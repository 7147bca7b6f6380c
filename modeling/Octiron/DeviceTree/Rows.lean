import Octiron.DeviceTree.Rewrite

/-! The rows that `reg` and `ranges` are decoded to, compared across two memories: which
bytes each element depends on.  An address of three cells is read as sixteen bytes,
four more than it has. -/
namespace Octiron.DeviceTree

open Lib.Word Lib.ByteMemory Exec

/-- What `regAddress` stores. -/
def regValue (m : Mem) (ptr : U64) (cells : U32) : Option U128 :=
  if cells = 0 then none
  else if cells = 1 then some ((readBigEndian32 m ptr).setWidth 128)
  else if cells = 2 then some ((readBigEndian64 m ptr).setWidth 128)
  else some (readBigEndian128 m ptr)

def sizeValue (m : Mem) (ptr : U64) (cells : U32) : Option U64 :=
  if cells = 0 then none
  else if cells = 1 then some ((readBigEndian32 m ptr).setWidth 64)
  else some (readBigEndian64 m ptr)

def rangeValue (m : Mem) (ptr : U64) (cells : U32) : U64 :=
  if cells = 1 then (readBigEndian32 m ptr).setWidth 64
  else if cells = 2 then readBigEndian64 m ptr
  else (readBigEndian128 m ptr).setWidth 64

/-- The bytes that decoding an address of so many cells reads. -/
def addressReach (cells : U32) : Nat := if cells = 3 then 16 else 4 * cells.toNat

section Values

variable (m : Mem) (ptr : U64)

theorem regValue_zero : regValue m ptr 0 = none := if_pos rfl

theorem regValue_one : regValue m ptr 1 = some ((readBigEndian32 m ptr).setWidth 128) :=
  (if_neg (by decide)).trans (if_pos rfl)

theorem regValue_two : regValue m ptr 2 = some ((readBigEndian64 m ptr).setWidth 128) :=
  (if_neg (by decide)).trans ((if_neg (by decide)).trans (if_pos rfl))

theorem regValue_three : regValue m ptr 3 = some (readBigEndian128 m ptr) :=
  (if_neg (by decide)).trans ((if_neg (by decide)).trans (if_neg (by decide)))

theorem sizeValue_zero : sizeValue m ptr 0 = none := if_pos rfl

theorem sizeValue_one : sizeValue m ptr 1 = some ((readBigEndian32 m ptr).setWidth 64) :=
  (if_neg (by decide)).trans (if_pos rfl)

theorem sizeValue_two : sizeValue m ptr 2 = some (readBigEndian64 m ptr) :=
  (if_neg (by decide)).trans (if_neg (by decide))

theorem rangeValue_one : rangeValue m ptr 1 = (readBigEndian32 m ptr).setWidth 64 :=
  if_pos rfl

theorem rangeValue_two : rangeValue m ptr 2 = readBigEndian64 m ptr :=
  (if_neg (by decide)).trans (if_pos rfl)

theorem rangeValue_three : rangeValue m ptr 3 = (readBigEndian128 m ptr).setWidth 64 :=
  (if_neg (by decide)).trans (if_neg (by decide))

end Values

section Elements

variable {m : Mem} {array ptr : U64} {cells : U32}

theorem regAddress_eq_ok {x : Option U128} (h : regAddress m array ptr cells = .ok x) :
    x = regValue m ptr cells := by
  unfold regAddress at h
  unfold regValue
  split at h
  · next hzero =>
    rw [if_pos hzero]
    exact (Except.ok.inj h).symm
  next hzero =>
  rw [if_neg hzero]
  split at h
  · next hone =>
    rw [if_pos hone]
    obtain ⟨_, _, h⟩ := bind_eq_ok.mp h
    exact (pure_eq_ok.mp h).symm
  next hone =>
  rw [if_neg hone]
  split at h
  · next htwo =>
    rw [if_pos htwo]
    obtain ⟨_, _, h⟩ := bind_eq_ok.mp h
    exact (pure_eq_ok.mp h).symm
  next htwo =>
  rw [if_neg htwo]
  split at h
  · obtain ⟨_, _, h⟩ := bind_eq_ok.mp h
    exact (pure_eq_ok.mp h).symm
  · exact nomatch h

theorem sizeElement_eq_ok {x : Option U64} (h : sizeElement m array ptr cells = .ok x) :
    x = sizeValue m ptr cells := by
  unfold sizeElement at h
  unfold sizeValue
  split at h
  · next hzero =>
    rw [if_pos hzero]
    exact (Except.ok.inj h).symm
  next hzero =>
  rw [if_neg hzero]
  split at h
  · next hone =>
    rw [if_pos hone]
    obtain ⟨_, _, h⟩ := bind_eq_ok.mp h
    exact (pure_eq_ok.mp h).symm
  next hone =>
  rw [if_neg hone]
  split at h
  · obtain ⟨_, _, h⟩ := bind_eq_ok.mp h
    exact (pure_eq_ok.mp h).symm
  · exact nomatch h

theorem rangeAddress_eq_ok {x : U64} (h : rangeAddress m array ptr cells = .ok x) :
    x = rangeValue m ptr cells ∧ 1 ≤ cells.toNat ∧ cells.toNat ≤ 3 := by
  unfold rangeAddress at h
  unfold rangeValue
  split at h
  · next hone =>
    rw [if_pos hone, hone]
    obtain ⟨_, _, h⟩ := bind_eq_ok.mp h
    exact ⟨(pure_eq_ok.mp h).symm, by decide, by decide⟩
  next hone =>
  rw [if_neg hone]
  split at h
  · next htwo =>
    rw [if_pos htwo, htwo]
    obtain ⟨_, _, h⟩ := bind_eq_ok.mp h
    exact ⟨(pure_eq_ok.mp h).symm, by decide, by decide⟩
  next htwo =>
  rw [if_neg htwo]
  split at h
  · next hthree =>
    rw [hthree]
    obtain ⟨_, _, h⟩ := bind_eq_ok.mp h
    exact ⟨(pure_eq_ok.mp h).symm, by decide, by decide⟩
  · exact nomatch h

end Elements

section TwoReads

variable {m m' : Mem} {ptr ptr' : U64} {cells : U32}

/-- Small cell counts, one by one. -/
theorem cells_cases (h : cells.toNat ≤ 3) : cells = 0 ∨ cells = 1 ∨ cells = 2 ∨ cells = 3 := by
  simp only [← BitVec.toNat_inj]
  change cells.toNat = 0 ∨ cells.toNat = 1 ∨ cells.toNat = 2 ∨ cells.toNat = 3
  omega

theorem regValue_congr (hcells : cells.toNat ≤ 3)
    (h : SameBytes m ptr m' ptr' (addressReach cells)) :
    regValue m ptr cells = regValue m' ptr' cells := by
  obtain rfl | rfl | rfl | rfl := cells_cases hcells
  · rw [regValue_zero, regValue_zero]
  · rw [regValue_one, regValue_one, readBigEndian32_eq_iff.mpr h]
  · rw [regValue_two, regValue_two, readBigEndian64_eq_iff.mpr h]
  · rw [regValue_three, regValue_three, readBigEndian128_congr h]

theorem sizeValue_congr (hcells : cells.toNat ≤ 2)
    (h : SameBytes m ptr m' ptr' (4 * cells.toNat)) :
    sizeValue m ptr cells = sizeValue m' ptr' cells := by
  obtain rfl | rfl | rfl | rfl := cells_cases (hcells.trans (by decide))
  · rw [sizeValue_zero, sizeValue_zero]
  · rw [sizeValue_one, sizeValue_one, readBigEndian32_eq_iff.mpr h]
  · rw [sizeValue_two, sizeValue_two, readBigEndian64_eq_iff.mpr h]
  · exact absurd hcells (by decide)

theorem rangeValue_congr (hlow : 1 ≤ cells.toNat) (hhigh : cells.toNat ≤ 3)
    (h : SameBytes m ptr m' ptr' (addressReach cells)) :
    rangeValue m ptr cells = rangeValue m' ptr' cells := by
  obtain rfl | rfl | rfl | rfl := cells_cases hhigh
  · exact absurd hlow (by decide)
  · rw [rangeValue_one, rangeValue_one, readBigEndian32_eq_iff.mpr h]
  · rw [rangeValue_two, rangeValue_two, readBigEndian64_eq_iff.mpr h]
  · rw [rangeValue_three, rangeValue_three, readBigEndian128_congr h]

/-- Equal addresses of three cells come from equal bytes, the four behind them too. -/
theorem sameBytes_of_regValue (hcells : cells = 3)
    (h : regValue m ptr cells = regValue m' ptr' cells) : SameBytes m ptr m' ptr' 16 := by
  rw [hcells, regValue_three, regValue_three] at h
  exact readBigEndian128_eq_iff.mp (Option.some.inj h)

theorem sameBytes_of_rangeValue (hcells : cells = 3)
    (h : rangeValue m ptr cells = rangeValue m' ptr' cells) :
    SameBytes m (ptr + 8) m' (ptr' + 8) 8 := by
  rw [hcells, rangeValue_three, rangeValue_three] at h
  exact setWidth_readBigEndian128_eq_iff.mp h

end TwoReads

section Loops

variable {ρ : Type} {row row' : U64 → Exec ρ} {width : U64} {n : Nat} {j j' : U64} {rows rows' : List ρ}

theorem succ_row (j width : U64) (i : Nat) :
    j + width + width * BitVec.ofNat 64 i = j + width * BitVec.ofNat 64 (i + 1) := by
  rw [BitVec.ofNat_add, BitVec.mul_add, BitVec.add_assoc, BitVec.add_comm width]
  congr 2
  exact (BitVec.mul_one width).symm

/-- Two completed loops give the same rows exactly when their rows agree one by one. -/
theorem readRows_eq_iff (h : readRows row width n j = .ok rows)
    (h' : readRows row' width n j' = .ok rows') :
    rows = rows' ↔ ∀ i < n,
      row (j + width * BitVec.ofNat 64 i) = row' (j' + width * BitVec.ofNat 64 i) := by
  induction n generalizing j j' rows rows' with
  | zero =>
    obtain rfl := Except.ok.inj h
    obtain rfl := Except.ok.inj h'
    exact iff_of_true rfl nofun
  | succ n ih =>
    obtain ⟨first, hfirst, h⟩ := bind_eq_ok.mp h
    obtain ⟨rest, hrest, h⟩ := bind_eq_ok.mp h
    obtain ⟨first', hfirst', h'⟩ := bind_eq_ok.mp h'
    obtain ⟨rest', hrest', h'⟩ := bind_eq_ok.mp h'
    obtain rfl := pure_eq_ok.mp h
    obtain rfl := pure_eq_ok.mp h'
    rw [List.cons.injEq, ih hrest hrest']
    constructor
    · rintro ⟨rfl, htail⟩ i hi
      cases i with
      | zero =>
        rw [BitVec.mul_zero, BitVec.add_zero, BitVec.add_zero, hfirst, hfirst']
      | succ i =>
        rw [← succ_row, ← succ_row]
        exact htail i (Nat.lt_of_succ_lt_succ hi)
    · intro hall
      constructor
      · have hzero := hall 0 (Nat.succ_pos n)
        rw [BitVec.mul_zero, BitVec.add_zero, BitVec.add_zero, hfirst, hfirst'] at hzero
        exact Except.ok.inj hzero
      · intro i hi
        rw [succ_row, succ_row]
        exact hall (i + 1) (Nat.succ_lt_succ hi)

/-- A completed loop completed each of its rows. -/
theorem readRows_row (h : readRows row width n j = .ok rows) {i : Nat} (hi : i < n) :
    ∃ r, row (j + width * BitVec.ofNat 64 i) = .ok r := by
  induction n generalizing j rows i with
  | zero => exact absurd hi (Nat.not_lt_zero i)
  | succ n ih =>
    obtain ⟨first, hfirst, h⟩ := bind_eq_ok.mp h
    obtain ⟨rest, hrest, -⟩ := bind_eq_ok.mp h
    cases i with
    | zero =>
      rw [BitVec.mul_zero, BitVec.add_zero]
      exact ⟨first, hfirst⟩
    | succ i =>
      rw [← succ_row]
      exact ih hrest (Nat.lt_of_succ_lt_succ hi)

theorem readRows_at {w : Nat} (h : readRows row (BitVec.ofNat 64 w) n 0 = .ok rows) {i : Nat}
    (hi : i < n) : ∃ r, row (BitVec.ofNat 64 (w * i)) = .ok r := by
  obtain ⟨r, hr⟩ := readRows_row h hi
  exact ⟨r, by rwa [BitVec.ofNat_mul, ← BitVec.zero_add (_ * _)]⟩

/-- Rows of `w` bytes each, the last one reading `k` more, agree on the same bytes
exactly when the `k` bytes behind the last one are the same. -/
theorem rows_eq_iff {m m' : Mem} {data data' : U64} {w k : Nat} (hn : 0 < n)
    (h : readRows row (BitVec.ofNat 64 w) n 0 = .ok rows)
    (h' : readRows row' (BitVec.ofNat 64 w) n 0 = .ok rows')
    (hsame : SameBytes m data m' data' (w * n))
    (hcongr : ∀ i < n, SameBytes m (data + BitVec.ofNat 64 (w * i)) m'
      (data' + BitVec.ofNat 64 (w * i)) (w + k) →
      row (BitVec.ofNat 64 (w * i)) = row' (BitVec.ofNat 64 (w * i)))
    (htail : ∀ i < n, row (BitVec.ofNat 64 (w * i)) = row' (BitVec.ofNat 64 (w * i)) →
      SameBytes m (data + BitVec.ofNat 64 (w * i) + BitVec.ofNat 64 w) m'
        (data' + BitVec.ofNat 64 (w * i) + BitVec.ofNat 64 w) k) :
    rows = rows' ↔ SameBytes m (data + BitVec.ofNat 64 (w * n)) m'
      (data' + BitVec.ofNat 64 (w * n)) k := by
  have hoffset : ∀ i, (0 : U64) + BitVec.ofNat 64 w * BitVec.ofNat 64 i =
      BitVec.ofNat 64 (w * i) :=
    fun i => (BitVec.zero_add _).trans (BitVec.ofNat_mul w i).symm
  rw [readRows_eq_iff h h']
  simp only [hoffset]
  constructor
  · intro hall
    obtain ⟨last, rfl⟩ := Nat.exists_eq_succ_of_ne_zero hn.ne'
    have hlast := htail last (Nat.lt_succ_self last) (hall last (Nat.lt_succ_self last))
    rwa [add_ofNat_add, add_ofNat_add] at hlast
  · intro hbehind i hi
    have hwhole : SameBytes m data m' data' (w * n + k) := sameBytes_add.mpr ⟨hsame, hbehind⟩
    refine hcongr i hi (hwhole.part ?_)
    have hmul : w * (i + 1) ≤ w * n := Nat.mul_le_mul_left w hi
    rw [Nat.mul_add, Nat.mul_one] at hmul
    omega

end Loops

section Decoders

variable {m m' : Mem} {hhdmBase : U64} {answers : Pmm.Answers}

theorem cellBytes_setWidth {cells : U32} (h : cells.toNat ≤ 3) :
    (cellBytes cells).setWidth 64 = BitVec.ofNat 64 (4 * cells.toNat) := by
  obtain rfl | rfl | rfl | rfl := cells_cases h <;> rfl

/-- How many bytes behind the last row an address of three cells reaches, when no size
follows it. -/
def overreach (address size : U32) : Nat := if address = 3 ∧ size = 0 then 4 else 0

/-- What follows an address in its row, or is read behind it, covers its reach. -/
theorem addressReach_le_row {address size : U32} :
    addressReach address ≤ 4 * address.toNat + 4 * size.toNat + overreach address size := by
  unfold addressReach overreach
  split
  · next hthree =>
    have haddress : address.toNat = 3 := congrArg BitVec.toNat hthree
    by_cases hsize : size = 0
    · rw [if_pos ⟨hthree, hsize⟩]
      omega
    · have hpos : 0 < size.toNat := BitVec.toNat_pos_of_ne_zero hsize
      omega
  · omega

theorem regRow_eq_ok {data addressArray sizeArray : U64} {cells : Cells} {k : Nat}
    {r : Option U128 × Option U64} (haddress : cells.address.toNat ≤ 3)
    (h : regRow m data cells addressArray sizeArray (BitVec.ofNat 64 k) = .ok r) :
    r = (regValue m (data + BitVec.ofNat 64 k) cells.address,
      sizeValue m (data + BitVec.ofNat 64 k + BitVec.ofNat 64 (4 * cells.address.toNat))
        cells.size) := by
  obtain ⟨address, hfirst, h⟩ := bind_eq_ok.mp h
  obtain ⟨size, hsecond, h⟩ := bind_eq_ok.mp h
  obtain rfl := pure_eq_ok.mp h
  rw [regAddress_eq_ok hfirst, sizeElement_eq_ok hsecond, cellBytes_setWidth haddress,
    BitVec.add_assoc]

theorem rangeRow_eq_ok {data cbusAddressArray pbusAddressArray sizeArray : U64} {cells : Cells}
    {parentAddressCells : U32} {k : Nat} {r : U64 × U64 × Option U64}
    (h : rangeRow m data cells parentAddressCells cbusAddressArray pbusAddressArray sizeArray
      (BitVec.ofNat 64 k) = .ok r) :
    r = (rangeValue m (data + BitVec.ofNat 64 k) cells.address,
        rangeValue m (data + BitVec.ofNat 64 k + BitVec.ofNat 64 (4 * cells.address.toNat))
          parentAddressCells,
        sizeValue m (data + BitVec.ofNat 64 k + BitVec.ofNat 64 (4 * cells.address.toNat) +
          BitVec.ofNat 64 (4 * parentAddressCells.toNat)) cells.size) ∧
      (1 ≤ cells.address.toNat ∧ cells.address.toNat ≤ 3) ∧
      1 ≤ parentAddressCells.toNat ∧ parentAddressCells.toNat ≤ 3 := by
  obtain ⟨cbusAddress, hfirst, h⟩ := bind_eq_ok.mp h
  obtain ⟨pbusAddress, hsecond, h⟩ := bind_eq_ok.mp h
  obtain ⟨size, hthird, h⟩ := bind_eq_ok.mp h
  obtain rfl := pure_eq_ok.mp h
  obtain ⟨rfl, haddress⟩ := rangeAddress_eq_ok hfirst
  obtain ⟨rfl, hparent⟩ := rangeAddress_eq_ok hsecond
  refine ⟨?_, haddress, hparent⟩
  rw [sizeElement_eq_ok hthird, cellBytes_setWidth haddress.2, cellBytes_setWidth hparent.2]
  simp only [BitVec.add_assoc]

variable {data data' : U64} {cells : Cells} {n : Nat}

/-- Two decoded lists of pairs are the same exactly when the bytes behind the value are,
as far as the last pair reaches. -/
theorem pairs_eq_iff {addressArray addressArray' sizeArray sizeArray' : U64}
    {rows rows' : List (Option U128 × Option U64)} (haddress : cells.address.toNat ≤ 3)
    (hsize : cells.size.toNat ≤ 2) (hn : 0 < n)
    (h : readRows (regRow m data cells addressArray sizeArray)
      (BitVec.ofNat 64 (4 * cells.address.toNat + 4 * cells.size.toNat)) n 0 = .ok rows)
    (h' : readRows (regRow m' data' cells addressArray' sizeArray')
      (BitVec.ofNat 64 (4 * cells.address.toNat + 4 * cells.size.toNat)) n 0 = .ok rows')
    (hsame : SameBytes m data m' data' ((4 * cells.address.toNat + 4 * cells.size.toNat) * n)) :
    rows = rows' ↔ SameBytes m
      (data + BitVec.ofNat 64 ((4 * cells.address.toNat + 4 * cells.size.toNat) * n)) m'
      (data' + BitVec.ofNat 64 ((4 * cells.address.toNat + 4 * cells.size.toNat) * n))
      (overreach cells.address cells.size) := by
  refine rows_eq_iff hn h h' hsame ?_ ?_
  · intro i hi hrow
    obtain ⟨r, hr⟩ := readRows_at h hi
    obtain ⟨r', hr'⟩ := readRows_at h' hi
    have hfirst := regValue_congr haddress (hrow.mono addressReach_le_row)
    have hsecond := sizeValue_congr hsize (hrow.part (l := 4 * cells.size.toNat)
      (k := 4 * cells.address.toNat) (Nat.le_add_right _ _))
    rw [hr, hr', regRow_eq_ok haddress hr, regRow_eq_ok haddress hr', hfirst, hsecond]
  · intro i hi heq
    obtain ⟨r, hr⟩ := readRows_at h hi
    obtain ⟨r', hr'⟩ := readRows_at h' hi
    unfold overreach
    split
    · next hlast =>
      have hthree : cells.address.toNat = 3 := congrArg BitVec.toNat hlast.1
      have hzero : cells.size.toNat = 0 := congrArg BitVec.toNat hlast.2
      rw [hr, hr', regRow_eq_ok haddress hr, regRow_eq_ok haddress hr'] at heq
      have hreach := sameBytes_of_regValue hlast.1 (ok_pair_inj heq).1
      exact hreach.part (by omega)
    · exact nofun

/-- The same of triples: it is the parent's address that may be read past the value. -/
theorem triples_eq_iff {cbusAddressArray cbusAddressArray' pbusAddressArray pbusAddressArray'
    sizeArray sizeArray' : U64} {parentAddressCells : U32} {rows rows' : List (U64 × U64 × Option U64)}
    {w : Nat} (hsize : cells.size.toNat ≤ 2) (hn : 0 < n)
    (hw : w = 4 * cells.address.toNat + (4 * parentAddressCells.toNat + 4 * cells.size.toNat))
    (h : readRows (rangeRow m data cells parentAddressCells cbusAddressArray pbusAddressArray
      sizeArray) (BitVec.ofNat 64 w) n 0 = .ok rows)
    (h' : readRows (rangeRow m' data' cells parentAddressCells cbusAddressArray' pbusAddressArray'
      sizeArray') (BitVec.ofNat 64 w) n 0 = .ok rows')
    (hsame : SameBytes m data m' data' (w * n)) :
    rows = rows' ↔ SameBytes m (data + BitVec.ofNat 64 (w * n)) m'
      (data' + BitVec.ofNat 64 (w * n)) (overreach parentAddressCells cells.size) := by
  refine rows_eq_iff hn h h' hsame ?_ ?_
  · intro i hi hrow
    obtain ⟨r, hr⟩ := readRows_at h hi
    obtain ⟨r', hr'⟩ := readRows_at h' hi
    obtain ⟨hvalue, haddress, hparent⟩ := rangeRow_eq_ok hr
    obtain ⟨hvalue', -, -⟩ := rangeRow_eq_ok hr'
    have hreach : addressReach cells.address ≤ w + overreach parentAddressCells cells.size := by
      unfold addressReach
      split
      · next hthree =>
        have htoNat : cells.address.toNat = 3 := congrArg BitVec.toNat hthree
        omega
      · omega
    have hreach' := @addressReach_le_row parentAddressCells cells.size
    have hfirst := rangeValue_congr haddress.1 haddress.2 (hrow.mono hreach)
    have hbehind := hrow.part (k := 4 * cells.address.toNat)
      (l := 4 * parentAddressCells.toNat + 4 * cells.size.toNat +
        overreach parentAddressCells cells.size) (by omega)
    have hsecond := rangeValue_congr hparent.1 hparent.2 (hbehind.mono hreach')
    have hthird := sizeValue_congr hsize (hbehind.part (k := 4 * parentAddressCells.toNat)
      (l := 4 * cells.size.toNat) (Nat.le_add_right _ _))
    rw [hr, hr', hvalue, hvalue', hfirst, hsecond, hthird]
  · intro i hi heq
    obtain ⟨r, hr⟩ := readRows_at h hi
    obtain ⟨r', hr'⟩ := readRows_at h' hi
    unfold overreach
    split
    · next hlast =>
      have hthree : parentAddressCells.toNat = 3 := congrArg BitVec.toNat hlast.1
      have hzero : cells.size.toNat = 0 := congrArg BitVec.toNat hlast.2
      rw [hr, hr', (rangeRow_eq_ok hr).1, (rangeRow_eq_ok hr').1] at heq
      have hvalues := Prod.mk.inj (ok_pair_inj heq).2
      have hreach := (sameBytes_of_rangeValue hlast.1 hvalues.1).part (k := 4) (l := 4) (Nat.le_refl 8)
      have hoffset : ∀ a : U64, a + BitVec.ofNat 64 (4 * cells.address.toNat) + 8 +
          BitVec.ofNat 64 4 = a + BitVec.ofNat 64 w := by
        intro a
        rw [hw, hthree, hzero, show (8 : U64) = BitVec.ofNat 64 8 by rfl, add_ofNat_add,
          add_ofNat_add]
      rwa [hoffset, hoffset] at hreach
    · exact nofun

end Decoders

end Octiron.DeviceTree
