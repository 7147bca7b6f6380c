import Octiron.Riscv.Translate

/-! Superpages.  The translation of the architecture takes a leaf's PPN as it is
and drops the fields below the leaf's level; `virt_to_phys` shifts the whole PPN to
the place of its highest field.  The two meet at physical address zero only. -/
namespace Octiron.Riscv.Sv39

open Lib Lib.Word Lib.ByteMemory

section Format

/-- Bits 10 to 53 of an entry. -/
def ppn (pte : U64) : BitVec 44 := pte.extractLsb' 10 44

/-- Bits 54 to 63 of an entry, zero in every entry of the format. -/
def reserved (pte : U64) : BitVec 10 := pte.extractLsb' 54 10

/-- The low PPN fields of a leaf, one for each level below it, are zero. -/
def LowPpnZero (pte : U64) (level : Nat) : Prop := (ppn pte).toNat % 2 ^ (9 * level) = 0

instance (pte : U64) (level : Nat) : Decidable (LowPpnZero pte level) :=
  inferInstanceAs (Decidable (_ = _))

/-- The walk of the architecture from a table down: the leaf it meets and its level. -/
def leafBelow (m : Mem) (va table : U64) (level : Nat) : Option (Nat × U64) :=
  let pte := load64 m (table + 8 * vpn va level)
  if !isValid pte || reserved pte != 0 then none
  else if isLeaf pte then some (level, pte)
  else match level with
    | 0 => none
    | level + 1 => leafBelow m va ((ppn pte).setWidth 64 <<< 12) level

/-- The address that a leaf at a level gives to `va`: its PPN fields from that level
on, and the bits of `va` below them. -/
def translation (pte va : U64) (level : Nat) : U64 :=
  BitVec.ofNat 64 ((ppn pte).toNat / 2 ^ (9 * level) * 2 ^ (12 + 9 * level) +
    va.toNat % 2 ^ (12 + 9 * level))

end Format

section Fields

variable {pte va : U64}

theorem ppn_toNat (hreserved : reserved pte = 0) : (ppn pte).toNat = pte.toNat / 2 ^ 10 := by
  have hpte := pte.isLt
  have htop : pte.toNat / 2 ^ 54 = 0 := by
    have hfield := congrArg BitVec.toNat hreserved
    rw [reserved, BitVec.extractLsb'_toNat, Nat.shiftRight_eq_div_pow] at hfield
    change _ = 0 at hfield
    omega
  rw [ppn, BitVec.extractLsb'_toNat, Nat.shiftRight_eq_div_pow]
  omega

/-- What is left of an entry without its low ten bits is its PPN. -/
theorem ushiftRight_eq_ppn (hreserved : reserved pte = 0) :
    pte >>> 10 = (ppn pte).setWidth 64 := by
  have hppn := (ppn pte).isLt
  apply BitVec.eq_of_toNat_eq
  rw [BitVec.toNat_ushiftRight, Nat.shiftRight_eq_div_pow, BitVec.toNat_setWidth,
    ppn_toNat hreserved, Nat.mod_eq_of_lt (by omega)]

/-- The parts of `va` combined with a gigapage's base are its bits 12 to 29. -/
theorem gigapageOffset_eq (va : U64) :
    (vpn va 1 <<< 21) ||| (vpn va 0 <<< 12) ||| (va &&& pageSize) = va &&& 0x3FFFF000 := by
  apply BitVec.eq_of_getLsbD_eq
  intro i hi
  rw [show pageSize = BitVec.twoPow 64 12 from rfl,
    show (0x3FFFF000 : U64) = BitVec.ofNat 64 (2 ^ 18 - 1) <<< 12 from rfl]
  simp only [vpn, show (0x1FF : U64) = BitVec.ofNat 64 (2 ^ 9 - 1) from rfl, BitVec.getLsbD_or,
    BitVec.getLsbD_and, BitVec.getLsbD_shiftLeft, BitVec.getLsbD_ushiftRight,
    BitVec.getLsbD_twoPow, BitVec.getLsbD_ofNat, Nat.testBit_two_pow_sub_one]
  by_cases hlow : i < 21
  · grind
  · grind

theorem and_gigapageMask_toNat (va : U64) :
    (va &&& 0x3FFFF000).toNat = va.toNat % 2 ^ 30 - va.toNat % 2 ^ 12 := by
  have hsplit : va &&& 0x3FFFF000 = va &&& BitVec.ofNat 64 (2 ^ 30 - 1) &&& ~~~(pageSize - 1) := by
    rw [BitVec.and_assoc]
    rfl
  rw [hsplit, toNat_and_not_sub_one _ pageSize pageSize_toNat, BitVec.toNat_and,
    show (BitVec.ofNat 64 (2 ^ 30 - 1)).toNat = 2 ^ 30 - 1 from rfl,
    Nat.and_two_pow_sub_one_eq_mod]
  omega

theorem vpn_zero_shift_eq_zero_iff (va : U64) :
    vpn va 0 <<< 12 = 0 ↔ va.toNat % 2 ^ 21 < 2 ^ 12 := by
  have hva := va.isLt
  have hnat : (vpn va 0 <<< 12).toNat = va.toNat / 2 ^ 12 % 2 ^ 9 * 2 ^ 12 := by
    rw [BitVec.toNat_shiftLeft, vpn, BitVec.toNat_and, BitVec.toNat_ushiftRight,
      show (0x1FF : U64).toNat = 2 ^ 9 - 1 from rfl, Nat.and_two_pow_sub_one_eq_mod,
      Nat.shiftRight_eq_div_pow, Nat.shiftLeft_eq]
    omega
  rw [← BitVec.toNat_inj, hnat]
  change _ = 0 ↔ _
  omega

theorem getLsbD_page (va : U64) : va.getLsbD 12 = decide (va.toNat / 2 ^ 12 % 2 = 1) := by
  rw [BitVec.getLsbD, Nat.testBit_eq_decide_div_mod_eq]

end Fields

section Leaf

variable {pte va : U64}

/-- A gigapage's address: the PPN is moved as a whole, so the frame number of the
gigapage lands eighteen bits too high. -/
theorem gigapage_toNat (hreserved : reserved pte = 0) :
    (leafAddress pte va 2 ||| va &&& pageSize).toNat =
      (ppn pte).toNat * 2 ^ 30 % 2 ^ 64 + (va.toNat % 2 ^ 30 - va.toNat % 2 ^ 12) := by
  have hnat : (getGigapageAddr pte).toNat = (ppn pte).toNat * 2 ^ 30 % 2 ^ 64 := by
    rw [getGigapageAddr, BitVec.toNat_shiftLeft, BitVec.toNat_ushiftRight,
      Nat.shiftRight_eq_div_pow, ← ppn_toNat hreserved, Nat.shiftLeft_eq]
  have hoffset := and_gigapageMask_toNat va
  rw [leafAddress, BitVec.or_assoc, BitVec.or_assoc, ← BitVec.or_assoc (vpn va 1 <<< 21),
    gigapageOffset_eq, BitVec.toNat_or, hoffset, hnat]
  have hdvd : (ppn pte).toNat * 2 ^ 30 % 2 ^ 64 = ((ppn pte).toNat % 2 ^ 34) <<< 30 := by
    rw [Nat.shiftLeft_eq]
    omega
  rw [hdvd, Nat.shiftLeft_add_eq_or_of_lt]
  omega

/-- A megapage's address is the truth value of its two parts, with the page bit of
`va` added in. -/
theorem megapage_toNat (hreserved : reserved pte = 0) :
    (leafAddress pte va 1 ||| va &&& pageSize).toNat =
      (if (ppn pte).toNat * 2 ^ 21 % 2 ^ 64 ≠ 0 ∨ ¬ va.toNat % 2 ^ 21 < 2 ^ 12 then 1 else 0) +
        if va.toNat / 2 ^ 12 % 2 = 1 then 4096 else 0 := by
  have hnat : getMegapageAddr pte = 0 ↔ (ppn pte).toNat * 2 ^ 21 % 2 ^ 64 = 0 := by
    rw [← BitVec.toNat_inj, getMegapageAddr, BitVec.toNat_shiftLeft, BitVec.toNat_ushiftRight,
      Nat.shiftRight_eq_div_pow, ← ppn_toNat hreserved, Nat.shiftLeft_eq]
    rfl
  rw [leafAddress, and_pageSize, getLsbD_page]
  simp only [ne_eq, hnat, vpn_zero_shift_eq_zero_iff, decide_eq_true_eq]
  split <;> split <;> rfl

theorem translation_toNat (pte va : U64) {level : Nat} (hlevel : level ≤ 2) :
    (translation pte va level).toNat =
      (ppn pte).toNat / 2 ^ (9 * level) * 2 ^ (12 + 9 * level) +
        va.toNat % 2 ^ (12 + 9 * level) := by
  have hppn := (ppn pte).isLt
  rw [translation, BitVec.toNat_ofNat]
  interval_cases level <;> omega

/-- A frame number moved up by eighteen bits is in its place again only if it is zero. -/
theorem movedFrame_eq_iff {n v : Nat} (hn : n < 2 ^ 44) (hlow : n % 2 ^ 18 = 0) :
    n * 2 ^ 30 % 2 ^ 64 + (v % 2 ^ 30 - v % 2 ^ 12) = n / 2 ^ 18 * 2 ^ 30 + v % 2 ^ 30 ↔
      n = 0 ∧ v % 2 ^ 12 = 0 := by
  obtain ⟨q, rfl⟩ := Nat.dvd_of_mod_eq_zero hlow
  have hmoved : 2 ^ 18 * q * 2 ^ 30 % 2 ^ 64 = q % 2 ^ 16 * 2 ^ 48 := by omega
  rw [hmoved, Nat.mul_div_cancel_left q (by decide)]
  constructor
  · intro heq
    have hsame : v % 2 ^ 12 = 0 := by omega
    have hlow : q % 2 ^ 18 = 0 := by omega
    omega
  · rintro ⟨hzero, hoffset⟩
    omega

/-- A truth value and a page bit add up to an offset below a base in two places. -/
theorem truthValue_eq_iff {n v : Nat} (hn : n < 2 ^ 44) (hlow : n % 2 ^ 9 = 0) :
    (if n * 2 ^ 21 % 2 ^ 64 ≠ 0 ∨ ¬ v % 2 ^ 21 < 2 ^ 12 then 1 else 0) +
        (if v / 2 ^ 12 % 2 = 1 then 4096 else 0) = n / 2 ^ 9 * 2 ^ 21 + v % 2 ^ 21 ↔
      n = 0 ∧ (v % 2 ^ 21 = 0 ∨ v % 2 ^ 21 = 0x1001) := by
  by_cases hzero : n = 0
  · subst hzero
    split <;> split <;> omega
  · have hbase : 2 ^ 21 ≤ n / 2 ^ 9 * 2 ^ 21 := by omega
    simp only [hzero, false_and, iff_false]
    split <;> split <;> omega

theorem ppn_eq_zero_iff (pte : U64) : ppn pte = 0 ↔ (ppn pte).toNat = 0 := by
  rw [← BitVec.toNat_inj]
  rfl

theorem gigapage_eq_iff (hreserved : reserved pte = 0) (hlow : LowPpnZero pte 2) :
    leafAddress pte va 2 ||| va &&& pageSize = translation pte va 2 ↔
      ppn pte = 0 ∧ va.toNat % 2 ^ 12 = 0 := by
  rw [← BitVec.toNat_inj, gigapage_toNat hreserved, translation_toNat pte va (Nat.le_refl 2),
    ppn_eq_zero_iff]
  exact movedFrame_eq_iff (ppn pte).isLt hlow

theorem megapage_eq_iff (hreserved : reserved pte = 0) (hlow : LowPpnZero pte 1) :
    leafAddress pte va 1 ||| va &&& pageSize = translation pte va 1 ↔
      ppn pte = 0 ∧ (va.toNat % 2 ^ 21 = 0 ∨ va.toNat % 2 ^ 21 = 0x1001) := by
  rw [← BitVec.toNat_inj, megapage_toNat hreserved, translation_toNat pte va (by decide),
    ppn_eq_zero_iff]
  exact truthValue_eq_iff (ppn pte).isLt hlow

end Leaf

/-- The walk of `virt_to_phys` ends at the leaf of the architecture's walk. -/
theorem walkDown_of_leafBelow {m : Mem} {va pte table : U64} {level found : Nat}
    (h : leafBelow m va table level = some (found, pte)) :
    walkDown m va table level = some (leafAddress pte va found ||| va &&& pageSize) ∧
      reserved pte = 0 := by
  induction level generalizing table with
  | zero =>
    rw [leafBelow, ← entryAddr] at h
    split at h
    · cases h
    · rename_i hformat
      simp only [Bool.or_eq_true, Bool.not_eq_true', bne_iff_ne, not_or, Bool.not_eq_false,
        ne_eq, not_not] at hformat
      split at h
      · rename_i hleaf
        obtain ⟨rfl, rfl⟩ := Prod.mk.inj (Option.some.inj h)
        exact ⟨walkDown_leaf hformat.1 hleaf, hformat.2⟩
      · cases h
  | succ level ih =>
    rw [leafBelow, ← entryAddr] at h
    split at h
    · cases h
    · rename_i hformat
      simp only [Bool.or_eq_true, Bool.not_eq_true', bne_iff_ne, not_or, Bool.not_eq_false,
        ne_eq, not_not] at hformat
      split at h
      · rename_i hleaf
        obtain ⟨rfl, rfl⟩ := Prod.mk.inj (Option.some.inj h)
        exact ⟨walkDown_leaf hformat.1 hleaf, hformat.2⟩
      · rename_i hpointer
        rw [walkDown_pointer hformat.1 (Bool.eq_false_iff.mpr hpointer), getAddress,
          ushiftRight_eq_ppn hformat.2]
        exact ih h

/-- For a superpage `virt_to_phys` gives the translation only where the leaf's PPN
is zero, and there for few of the addresses of the superpage. -/
theorem virtToPhys_superpage_iff {m : Mem} {root va pte : U64} {level : Nat}
    (hleaf : leafBelow m va root 2 = some (level, pte)) (hlevel : level = 2 ∨ level = 1)
    (hlow : LowPpnZero pte level) :
    virtToPhys m root va = some (translation pte va level) ↔
      ppn pte = 0 ∧ (level = 2 ∧ va.toNat % 2 ^ 12 = 0 ∨
        level = 1 ∧ (va.toNat % 2 ^ 21 = 0 ∨ va.toNat % 2 ^ 21 = 0x1001)) := by
  obtain ⟨hwalk, hreserved⟩ := walkDown_of_leafBelow hleaf
  rw [virtToPhys, hwalk, Option.some_inj]
  rcases hlevel with rfl | rfl
  · rw [gigapage_eq_iff hreserved hlow]
    simp
  · rw [megapage_eq_iff hreserved hlow]
    simp

/-- A root at `0x1000` with one entry, `pte` at index 0. -/
def oneEntry (pte : U64) : Mem := store64 (fun _ => 0) 0x1000 pte

/-- The gigapage at physical address zero. -/
theorem virtToPhys_superpage_lowest :
    leafBelow (oneEntry 0xCF) 0x5000 0x1000 2 = some (2, 0xCF) ∧
      virtToPhys (oneEntry 0xCF) 0x1000 0x5000 = some 0x5000 := by
  have hleaf : leafBelow (oneEntry 0xCF) 0x5000 0x1000 2 = some (2, 0xCF) := by decide
  refine ⟨hleaf, ?_⟩
  exact (virtToPhys_superpage_iff hleaf (.inl rfl) (by decide)).mpr (by decide)

/-- The gigapage at `0x80000000`, as a bootloader maps it, at its first address. -/
theorem virtToPhys_superpage_ne :
    leafBelow (oneEntry 0x200000CF) 0 0x1000 2 = some (2, 0x200000CF) ∧
      LowPpnZero 0x200000CF 2 ∧ translation 0x200000CF 0 2 = 0x80000000 ∧
      virtToPhys (oneEntry 0x200000CF) 0x1000 0 = some 0x2000000000000 ∧
      virtToPhys (oneEntry 0x200000CF) 0x1000 0 ≠ some (translation 0x200000CF 0 2) := by
  decide

end Octiron.Riscv.Sv39
