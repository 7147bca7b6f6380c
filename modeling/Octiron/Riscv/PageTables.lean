import Octiron.Riscv.Sv39
import Octiron.Lib.RadixTree
import Mathlib.Tactic.IntervalCases

/-! Memory seen as page tables.  A table lies in a page frame, an entry names the
frame of the table below it, and a store to an entry or a zeroed page is an
update of the tables. -/
namespace Octiron.Riscv.Sv39

open Lib Lib.Word Lib.ByteMemory

abbrev Frame := BitVec 52
abbrev Index := BitVec 9

def frameAddr (p : Frame) : U64 := p.setWidth 64 <<< 12

def frameOf (address : U64) : Frame := (address >>> 12).setWidth 52

/-- The frame that `getAddress` names. -/
def entryFrame (entry : U64) : Frame := (entry >>> 10).setWidth 52

/-- The address of an entry of a table. -/
def slot (p : Frame) (i : Index) : U64 := entryAddr (frameAddr p) (i.setWidth 64)

def tables (m : Mem) : RadixTree.Tables Frame Index U64 := fun p i => load64 m (slot p i)

theorem frameAddr_toNat (p : Frame) : (frameAddr p).toNat = p.toNat * 4096 := by
  have hp := p.isLt
  rw [frameAddr, BitVec.toNat_shiftLeft, BitVec.toNat_setWidth, Nat.shiftLeft_eq]
  omega

theorem slot_toNat (p : Frame) (i : Index) :
    (slot p i).toNat = p.toNat * 4096 + 8 * i.toNat := by
  have hp := p.isLt
  have hi := i.isLt
  rw [slot, entryAddr, BitVec.toNat_add, BitVec.toNat_mul, frameAddr_toNat, BitVec.toNat_setWidth,
    show (8 : U64).toNat = 8 from rfl]
  omega

theorem getAddress_eq (entry : U64) : getAddress entry = frameAddr (entryFrame entry) := by
  apply BitVec.eq_of_toNat_eq
  have he := entry.isLt
  rw [frameAddr_toNat, getAddress, entryFrame, BitVec.toNat_shiftLeft, BitVec.toNat_setWidth,
    BitVec.toNat_ushiftRight, Nat.shiftLeft_eq, Nat.shiftRight_eq_div_pow]
  omega

theorem frameOf_frameAddr (p : Frame) : frameOf (frameAddr p) = p := by
  apply BitVec.eq_of_toNat_eq
  have hp := p.isLt
  rw [frameOf, BitVec.toNat_setWidth, BitVec.toNat_ushiftRight, frameAddr_toNat,
    Nat.shiftRight_eq_div_pow]
  omega

theorem frameAddr_frameOf {address : U64} (h : isAligned address pageSize = true) :
    frameAddr (frameOf address) = address := by
  have hmod : address.toNat % 4096 = 0 := by
    have heq := congrArg BitVec.toNat (beq_iff_eq.mp h)
    simpa [pageSize] using heq.symm
  have ha := address.isLt
  apply BitVec.eq_of_toNat_eq
  rw [frameAddr_toNat, frameOf, BitVec.toNat_setWidth, BitVec.toNat_ushiftRight,
    Nat.shiftRight_eq_div_pow]
  omega

section Entry

variable {p : Frame} {flags : U64}

theorem tableEntry_eq_add (hflags : flags.toNat < 1024) :
    (tableEntry (frameAddr p) flags).toNat = p.toNat * 1024 + flags.toNat := by
  have hp := p.isLt
  rw [tableEntry, BitVec.toNat_or, BitVec.toNat_ushiftRight, frameAddr_toNat,
    Nat.shiftRight_eq_div_pow, show p.toNat * 4096 / 2 ^ 2 = 2 ^ 10 * p.toNat by omega,
    ← Nat.two_pow_add_eq_or_of_lt hflags]
  omega

/-- The frame and the flags of an entry can both be read back. -/
theorem entryFrame_tableEntry (hflags : flags.toNat < 1024) :
    entryFrame (tableEntry (frameAddr p) flags) = p := by
  apply BitVec.eq_of_toNat_eq
  have hp := p.isLt
  rw [entryFrame, BitVec.toNat_setWidth, BitVec.toNat_ushiftRight, tableEntry_eq_add hflags,
    Nat.shiftRight_eq_div_pow]
  omega

theorem tableEntry_and (hflags : flags.toNat < 1024) :
    tableEntry (frameAddr p) flags &&& 0x3FF = flags := by
  apply BitVec.eq_of_toNat_eq
  rw [BitVec.toNat_and, tableEntry_eq_add hflags, show (0x3FF : U64).toNat = 2 ^ 10 - 1 from rfl,
    Nat.and_two_pow_sub_one_eq_mod]
  omega

/-- Tests of the flag bits read the flags only. -/
theorem tableEntry_and_flag (hflags : flags.toNat < 1024) {bit : U64} (hbit : 0x3FF &&& bit = bit) :
    tableEntry (frameAddr p) flags &&& bit = flags &&& bit := by
  calc tableEntry (frameAddr p) flags &&& bit
      = tableEntry (frameAddr p) flags &&& 0x3FF &&& bit := by rw [BitVec.and_assoc, hbit]
    _ = flags &&& bit := by rw [tableEntry_and hflags]

end Entry

/-- Different slots share no byte. -/
theorem slot_apart {p q : Frame} {i j : Index} (h : ¬ (q = p ∧ j = i)) :
    Apart (slot q j) 8 (slot p i) 8 := by
  have hp := p.isLt
  have hq := q.isLt
  have hi := i.isLt
  have hj := j.isLt
  have hne : q.toNat ≠ p.toNat ∨ j.toNat ≠ i.toNat := by
    by_contra hboth
    push Not at hboth
    exact h ⟨BitVec.eq_of_toNat_eq hboth.1, BitVec.eq_of_toNat_eq hboth.2⟩
  have hslot := slot_toNat p i
  have hslot' := slot_toNat q j
  apply apart_of_le <;> omega

theorem tables_store64 (m : Mem) (p : Frame) (i : Index) (v : U64) :
    tables (store64 m (slot p i) v) = RadixTree.setEntry (tables m) p i v := by
  funext q j
  by_cases hsame : q = p ∧ j = i
  · obtain ⟨rfl, rfl⟩ := hsame
    rw [RadixTree.setEntry_self, tables, load64_store64_same]
  · rw [RadixTree.setEntry_of_ne hsame, tables, load64_store64_apart (slot_apart hsame), tables]

theorem tables_fill (m : Mem) (p : Frame) :
    tables (Memory.fill m (frameAddr p) 0 pageSize.toNat) = RadixTree.clear (tables m) p 0 := by
  have hp := p.isLt
  funext q j
  have hq := q.isLt
  have hj := j.isLt
  rw [tables, Memory.fill_eq_setRange _ _ _ (by decide),
    show pageSize.toNat = 4096 from rfl]
  have hslot := slot_toNat q j
  have hframe := frameAddr_toNat p
  by_cases hsame : q = p
  · subst hsame
    rw [RadixTree.clear_self]
    apply load64_setRange_zero
    intro x hx
    rw [within_iff (by omega)] at hx ⊢
    omega
  · have hne : q.toNat ≠ p.toNat := fun heq => hsame (BitVec.eq_of_toNat_eq heq)
    rw [RadixTree.clear_of_ne hsame, tables]
    apply load64_setRange_apart
    apply apart_of_le <;> omega

/-! A virtual address is looked up by its bits 12 to 38, nine for each level. -/

abbrev Key := BitVec 27

def keyOf (va : U64) : Key := (va >>> 12).setWidth 27

def keyIndex (key : Key) (level : Nat) : Index := (key >>> (9 * level)).setWidth 9

theorem vpn_eq (va : U64) {level : Nat} (hlevel : level ≤ 2) :
    vpn va level = (keyIndex (keyOf va) level).setWidth 64 := by
  apply BitVec.eq_of_toNat_eq
  have hva := va.isLt
  rw [vpn, keyIndex, keyOf, BitVec.toNat_and, BitVec.toNat_ushiftRight,
    show (0x1FF : U64).toNat = 2 ^ 9 - 1 from rfl, Nat.and_two_pow_sub_one_eq_mod,
    Nat.shiftRight_add, Nat.shiftRight_eq_div_pow, Nat.shiftRight_eq_div_pow]
  simp only [BitVec.toNat_setWidth, BitVec.toNat_ushiftRight, Nat.shiftRight_eq_div_pow]
  interval_cases level <;> omega

theorem entryAddr_vpn (p : Frame) (va : U64) {level : Nat} (hlevel : level ≤ 2) :
    entryAddr (frameAddr p) (vpn va level) = slot p (keyIndex (keyOf va) level) := by
  rw [vpn_eq va hlevel, slot]

/-- The entry that a valid entry leads on to. -/
theorem entryAddr_getAddress {m : Mem} {p : Frame} {i : Index} {va : U64} {level : Nat}
    (hlevel : level ≤ 2) : entryAddr (getAddress (load64 m (slot p i))) (vpn va level) =
      slot (entryFrame (tables m p i)) (keyIndex (keyOf va) level) := by
  rw [getAddress_eq, entryAddr_vpn _ _ hlevel]
  rfl

/-- Two keys with the same three indices are one. -/
theorem key_ext {key key' : Key} (h : ∀ level ≤ 2, keyIndex key level = keyIndex key' level) :
    key = key' := by
  apply BitVec.eq_of_toNat_eq
  have h₀ := congrArg BitVec.toNat (h 0 (by decide))
  have h₁ := congrArg BitVec.toNat (h 1 (by decide))
  have h₂ := congrArg BitVec.toNat (h 2 (by decide))
  have hkey := key.isLt
  have hkey' := key'.isLt
  simp only [keyIndex, BitVec.toNat_setWidth, BitVec.toNat_ushiftRight,
    Nat.shiftRight_eq_div_pow] at h₀ h₁ h₂
  omega

end Octiron.Riscv.Sv39
