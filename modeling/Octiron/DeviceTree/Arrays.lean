import Octiron.Allocators.BumpPlacement
import Octiron.DeviceTree.ArrayStores
import Octiron.DeviceTree.DeadArms
import Octiron.Lib.Elements

/-! The arrays that `reg` and `ranges` are decoded into: what their elements say, and
whether they stay in the blocks that were asked for.  An address of three cells is read
as sixteen bytes; `reg` stores all of them in twelve, and `ranges` half of them. -/
namespace Octiron.DeviceTree

open Lib.Word Lib.ByteMemory Lib.Elements Exec Pmm

section Elements

variable {m : Mem} {array ptr data : U64} {cells : U32}

theorem regAddress_eq (h : cells.toNat ≤ 3) (harray : cells ≠ 0 → array ≠ 0) :
    regAddress m array ptr cells = .ok (regValue m ptr cells) := by
  rw [regAddress_array harray]
  obtain rfl | rfl | rfl | rfl := cells_cases h <;> rfl

theorem sizeElement_eq (h : cells.toNat ≤ 2) (harray : cells ≠ 0 → array ≠ 0) :
    sizeElement m array ptr cells = .ok (sizeValue m ptr cells) := by
  rw [sizeElement_array harray]
  obtain rfl | rfl | rfl | rfl := cells_cases (h.trans (by decide))
  · rfl
  · rfl
  · rfl
  · exact absurd h (by decide)

theorem rangeAddress_eq (h : cells.toNat ≤ 3) (hne : cells ≠ 0) (harray : array ≠ 0) :
    rangeAddress m array ptr cells = .ok (rangeValue m ptr cells) := by
  rw [rangeAddress_array harray]
  obtain rfl | rfl | rfl | rfl := cells_cases h
  · exact absurd rfl hne
  · rfl
  · rfl
  · rfl

theorem readCells_one : readCells m ptr 1 = (readBigEndian32 m ptr).toNat := by
  simp [readCells]

theorem readCells_two : readCells m ptr 2 = (readBigEndian64 m ptr).toNat := by
  simp [readCells, toNat_readBigEndian64]

/-- An address of less than three cells is stored as it is. -/
theorem regValue_toNat (h : cells.toNat ≤ 3) (hne : cells ≠ 3) :
    (regValue m ptr cells).map BitVec.toNat =
      if cells = 0 then none else some (readCells m ptr cells.toNat) := by
  obtain rfl | rfl | rfl | rfl := cells_cases h
  · rfl
  · rw [regValue_one, if_neg (by decide)]
    have hlt := (readBigEndian32 m ptr).isLt
    change some ((readBigEndian32 m ptr).setWidth 128).toNat = some (readCells m ptr 1)
    rw [readCells_one, BitVec.toNat_setWidth, Nat.mod_eq_of_lt (by omega)]
  · rw [regValue_two, if_neg (by decide)]
    have hlt := (readBigEndian64 m ptr).isLt
    change some ((readBigEndian64 m ptr).setWidth 128).toNat = some (readCells m ptr 2)
    rw [readCells_two, BitVec.toNat_setWidth, Nat.mod_eq_of_lt (by omega)]
  · exact absurd rfl hne

theorem sizeValue_toNat (h : cells.toNat ≤ 2) :
    (sizeValue m ptr cells).map BitVec.toNat =
      if cells = 0 then none else some (readCells m ptr cells.toNat) := by
  obtain rfl | rfl | rfl | rfl := cells_cases (h.trans (by decide))
  · rfl
  · rw [sizeValue_one, if_neg (by decide)]
    have hlt := (readBigEndian32 m ptr).isLt
    change some ((readBigEndian32 m ptr).setWidth 64).toNat = some (readCells m ptr 1)
    rw [readCells_one, BitVec.toNat_setWidth, Nat.mod_eq_of_lt (by omega)]
  · rw [sizeValue_two, if_neg (by decide)]
    change some (readBigEndian64 m ptr).toNat = some (readCells m ptr 2)
    rw [readCells_two]
  · exact absurd h (by decide)

end Elements

section Loops

/-- A loop whose rows all complete, at a multiple of the width each. -/
theorem readRows_eq_ok {ρ : Type} {row : U64 → Exec ρ} {f : Nat → ρ} {w n k : Nat}
    (h : ∀ i < n, row (BitVec.ofNat 64 (w * (k + i))) = .ok (f (k + i))) :
    readRows row (BitVec.ofNat 64 w) n (BitVec.ofNat 64 (w * k)) =
      .ok ((List.range n).map fun i => f (k + i)) := by
  induction n generalizing k with
  | zero => rfl
  | succ n ih =>
    have hfirst := h 0 (Nat.succ_pos n)
    rw [Nat.add_zero] at hfirst
    have hrest := @ih (k + 1) fun i hi => by
      have := h (i + 1) (Nat.succ_lt_succ hi)
      rwa [Nat.add_right_comm, Nat.add_assoc]
    rw [readRows, hfirst, ok_bind, ← BitVec.ofNat_add, ← Nat.mul_succ, hrest, ok_bind,
      List.range_succ_eq_map, List.map_cons, List.map_map]
    congr 2
    apply List.map_congr_left
    intro i _
    rw [Function.comp_apply, Nat.succ_eq_add_one, Nat.add_right_comm, Nat.add_assoc]

end Loops

section Reg

variable (m : Mem) (hhdmBase : U64) (answers : Answers)

/-- A pair of big-endian integers, of as many cells as the parent has. -/
def encodePair (p : Cells) (pair : Nat × Nat) : List U8 :=
  encodeCells p.address.toNat pair.1 ++ encodeCells p.size.toNat pair.2

def PairFits (p : Cells) (pair : Nat × Nat) : Prop :=
  pair.1 < 2 ^ (32 * p.address.toNat) ∧ pair.2 < 2 ^ (32 * p.size.toNat)

/-- What the arrays are to hold of it. -/
def pairElements (p : Cells) (pair : Nat × Nat) : Option Nat × Option Nat :=
  (if p.address = 0 then none else some pair.1, if p.size = 0 then none else some pair.2)

/-- The pairs are decoded one by one, into blocks that are large enough for them. -/
structure RegExact (parent : Cells) (bump : Bump.State) (prop : Entry) (pairs : List (Nat × Nat))
    (prop' : Entry) (bump₁ bump₂ : Bump.State) : Prop where
  completed : propertyRewriteReg m hhdmBase answers (some parent) bump prop = .ok (prop', bump₂)
  addressBlock : Bump.allocAligned hhdmBase answers bump
    (arrayRequest parent.address (BitVec.ofNat 64 pairs.length)).1
    (arrayRequest parent.address (BitVec.ofNat 64 pairs.length)).2 = .ok (prop'.data.word1, bump₁)
  sizeBlock : Bump.allocAligned hhdmBase answers bump₁
    (arrayRequest parent.size (BitVec.ofNat 64 pairs.length)).1
    (arrayRequest parent.size (BitVec.ofNat 64 pairs.length)).2 = .ok (prop'.data.word2, bump₂)
  type : prop'.type = .reg
  nPairs : prop'.data.word0.toNat = pairs.length
  elements : prop'.pairs.map (fun e => (e.1.map BitVec.toNat, e.2.map BitVec.toNat)) =
    pairs.map (pairElements parent)
  addressInside : ElementsInside prop'.data.word1 (regElementBytes parent.address) pairs.length
    (arrayRequest parent.address (BitVec.ofNat 64 pairs.length)).1.toNat
  sizeInside : ElementsInside prop'.data.word2 (4 * parent.size.toNat) pairs.length
    (arrayRequest parent.size (BitVec.ofNat 64 pairs.length)).1.toNat

variable {m hhdmBase answers} {parent : Cells} {bump bump₁ bump₂ : Bump.State} {prop prop' : Entry}
  {pairs : List (Nat × Nat)}

theorem length_encodePair (p : Cells) (pair : Nat × Nat) :
    (encodePair p pair).length = regRowBytes p := by
  rw [encodePair, List.length_append, length_encodeCells, length_encodeCells, regRowBytes]

theorem length_encodePairs (p : Cells) (pairs : List (Nat × Nat)) :
    (pairs.flatMap (encodePair p)).length = regRowBytes p * pairs.length :=
  length_flatMap fun pair _ => length_encodePair p pair

/-- The bytes that an array of `n` elements is asked for. -/
theorem arrayRequest_toNat {cells : U32} {n : Nat} (h : cells.toNat ≤ 3)
    (hfit : 4 * cells.toNat * n < 2 ^ 64) :
    (arrayRequest cells (BitVec.ofNat 64 n)).1.toNat = 4 * cells.toNat * n := by
  rw [arrayRequest, cellBytes_setWidth h, ← BitVec.ofNat_mul, toNat_ofNat_of_lt hfit]

/-- The number of rows, as the code computes it. -/
theorem rows_divide {w n : Nat} {size : U64} (hw : 0 < w) (hsize : size = BitVec.ofNat 64 (w * n))
    (hfit : w * n < 2 ^ 64) (hn : 0 < n) :
    RowsOf w size ∧ size / BitVec.ofNat 64 w = BitVec.ofNat 64 n := by
  have hwFit : w < 2 ^ 64 := (Nat.le_mul_of_pos_right w hn).trans_lt hfit
  have hnFit : n < 2 ^ 64 := (Nat.le_mul_of_pos_left n hw).trans_lt hfit
  have hsizeNat : size.toNat = w * n := by rw [hsize, toNat_ofNat_of_lt hfit]
  refine ⟨⟨hsizeNat ▸ Nat.mul_pos hw hn, hsizeNat ▸ Nat.dvd_mul_right w n⟩, ?_⟩
  apply BitVec.eq_of_toNat_eq
  rw [BitVec.toNat_udiv, hsizeNat, toNat_ofNat_of_lt hwFit, toNat_ofNat_of_lt hnFit,
    Nat.mul_div_cancel_left n hw]

/-- Elements of sixteen bytes leave a block of twelve for each. -/
theorem ne_three_of_inside {array : U64} {n : Nat} (hn : 0 < n)
    (hfit : 4 * parent.address.toNat * n < 2 ^ 64)
    (hinside : ElementsInside array (regElementBytes parent.address) n
      (arrayRequest parent.address (BitVec.ofNat 64 n)).1.toNat) : parent.address ≠ 3 := by
  intro hthree
  have hcells : parent.address.toNat = 3 := congrArg BitVec.toNat hthree
  rw [arrayRequest_toNat hcells.le hfit, elementsInside_iff hfit, regElementBytes,
    if_pos hthree, hcells] at hinside
  omega

theorem regRow_eq {data addressArray sizeArray : U64} (hp : parent.Bounded)
    (haddress : parent.address ≠ 0 → addressArray ≠ 0) (hsize : parent.size ≠ 0 → sizeArray ≠ 0)
    (k : Nat) :
    regRow m data parent addressArray sizeArray (BitVec.ofNat 64 k) =
      .ok (regValue m (data + BitVec.ofNat 64 k) parent.address,
        sizeValue m (data + BitVec.ofNat 64 k + BitVec.ofNat 64 (4 * parent.address.toNat))
          parent.size) := by
  unfold regRow
  rw [regAddress_eq hp.toNat_le.1 haddress, ok_bind, cellBytes_setWidth hp.toNat_le.1]
  dsimp only
  rw [← BitVec.add_assoc, sizeElement_eq hp.toNat_le.2 hsize]
  rfl

/-- The two values read at an encoded pair. -/
theorem regValues_of_holds {ptr : U64} {pair : Nat × Nat} (hp : parent.Bounded)
    (hne : parent.address ≠ 3) (hfits : PairFits parent pair)
    (h : Holds m ptr (encodePair parent pair)) :
    ((regValue m ptr parent.address).map BitVec.toNat,
      (sizeValue m (ptr + BitVec.ofNat 64 (4 * parent.address.toNat)) parent.size).map
        BitVec.toNat) = pairElements parent pair := by
  obtain ⟨hfirst, hsecond⟩ := holds_append.mp h
  rw [length_encodeCells] at hsecond
  rw [regValue_toNat hp.toNat_le.1 hne, sizeValue_toNat hp.toNat_le.2, readCells_of_holds hfirst,
    readCells_of_holds hsecond, Nat.mod_eq_of_lt hfits.1, Nat.mod_eq_of_lt hfits.2]
  rfl

/-- A completed call, from the three things it does. -/
theorem propertyRewriteReg_of_arrays {n addressArray sizeArray : U64}
    {rows : List (Option U128 × Option U64)} (hp : parent.Bounded)
    (hcheck : regCheck (some parent) prop.data.raw = .ok (parent, n))
    (haddressArray : Bump.allocAligned hhdmBase answers bump (arrayRequest parent.address n).1
      (arrayRequest parent.address n).2 = .ok (addressArray, bump₁))
    (hnull₁ : addressArray = 0 ↔ parent.address = 0)
    (hsizeArray : Bump.allocAligned hhdmBase answers bump₁ (arrayRequest parent.size n).1
      (arrayRequest parent.size n).2 = .ok (sizeArray, bump₂))
    (hnull₂ : sizeArray = 0 ↔ parent.size = 0)
    (hread : readRows (regRow m prop.data.raw.data parent addressArray sizeArray)
      (regWidth parent) n.toNat 0 = .ok rows) :
    propertyRewriteReg m hhdmBase answers (some parent) bump prop =
      .ok ({ prop with
        type := .reg
        data := { prop.data with word0 := n, word1 := addressArray, word2 := sizeArray }
        pairs := rows }, bump₂) := by
  rw [propertyRewriteReg_eq, hcheck]
  simp only [ok_bind, haddressArray, hsizeArray, kassert_array hp.toNat_le.1 hnull₁,
    kassert_array (hp.toNat_le.2.trans (by decide)) hnull₂, hread]
  rfl

/-- The length of so many pairs passes. -/
theorem regCheck_of_pairs (hp : parent.Bounded) (hpos : 0 < regRowBytes parent)
    (hn : 0 < pairs.length)
    (hsize : prop.data.raw.size = BitVec.ofNat 64 (pairs.flatMap (encodePair parent)).length)
    (hfit : regRowBytes parent * pairs.length < 2 ^ 64) :
    regCheck (some parent) prop.data.raw = .ok (parent, BitVec.ofNat 64 pairs.length) := by
  rw [length_encodePairs] at hsize
  obtain ⟨hrows, hdivide⟩ := rows_divide hpos hsize hfit hn
  rw [regCheck_some hp, (rowCount_of_rows (regRowBytes_lt hp) hrows).1, hdivide]
  rfl

/-- With addresses of less than three cells all pairs are decoded. -/
theorem regExact_of_ne_three (hp : parent.Bounded) (hpos : 0 < regRowBytes parent)
    (hn : 0 < pairs.length) (hfits : ∀ pair ∈ pairs, PairFits parent pair)
    (hvalue : Denotes m prop.data.raw.data prop.data.raw.size (pairs.flatMap (encodePair parent)))
    (hfit : regRowBytes parent * pairs.length < 2 ^ 64)
    (hserved : Serves hhdmBase answers bump (regRequests (some parent) prop.data.raw))
    (hne : parent.address ≠ 3) :
    ∃ prop' bump₁ bump₂, RegExact m hhdmBase answers parent bump prop pairs prop' bump₁ bump₂ := by
  have hcheck := regCheck_of_pairs hp hpos hn hvalue.1 hfit
  have hcount : pairs.length < 2 ^ 64 := (Nat.le_mul_of_pos_left _ hpos).trans_lt hfit
  have hcountNat : (BitVec.ofNat 64 pairs.length).toNat = pairs.length := toNat_ofNat_of_lt hcount
  have hparts : 4 * parent.address.toNat * pairs.length + 4 * parent.size.toNat * pairs.length <
      2 ^ 64 := by
    rw [← Nat.add_mul]
    exact hfit
  have hpositive : 0 < (BitVec.ofNat 64 pairs.length).toNat := hcountNat.symm ▸ hn
  unfold regRequests at hserved
  rw [hcheck] at hserved
  obtain ⟨addressArray, bump₁, haddressArray, hnull₁, hserved⟩ := hserved.next
  obtain ⟨sizeArray, bump₂, hsizeArray, hnull₂, -⟩ := hserved.next
  rw [arrayRequest_empty_iff hp.toNat_le.1 hpositive (by rw [hcountNat]; omega)] at hnull₁
  rw [arrayRequest_empty_iff (hp.toNat_le.2.trans (by decide)) hpositive
    (by rw [hcountNat]; omega)] at hnull₂
  have hread := @readRows_eq_ok _ (regRow m prop.data.raw.data parent addressArray sizeArray)
    (fun i => (regValue m (prop.data.raw.data + BitVec.ofNat 64 (regRowBytes parent * i))
        parent.address,
      sizeValue m (prop.data.raw.data + BitVec.ofNat 64 (regRowBytes parent * i) +
        BitVec.ofNat 64 (4 * parent.address.toNat)) parent.size))
    (regRowBytes parent) pairs.length 0 fun i _ => regRow_eq hp (mt hnull₁.mp) (mt hnull₂.mp) _
  rw [Nat.mul_zero, ← regWidth_of_bounded hp] at hread
  rw [← hcountNat] at hread
  have hcompleted := propertyRewriteReg_of_arrays hp hcheck haddressArray hnull₁ hsizeArray hnull₂
    hread
  rw [hcountNat] at hcompleted
  simp only [Nat.zero_add] at hcompleted
  refine ⟨_, bump₁, bump₂, ⟨hcompleted, haddressArray, hsizeArray, rfl, hcountNat, ?_, ?_, ?_⟩⟩
  · dsimp only
    rw [List.map_map]
    apply List.ext_getElem (by simp)
    intro i hi hi'
    have hiPairs : i < pairs.length := by simpa using hi'
    rw [List.getElem_map, List.getElem_map, List.getElem_range, Function.comp_apply]
    exact regValues_of_holds hp hne (hfits _ (List.getElem_mem hiPairs))
      (holds_flatMap_at (fun pair _ => length_encodePair parent pair) hvalue.2 hiPairs)
  · rw [arrayRequest_toNat hp.toNat_le.1 (by omega), elementsInside_iff (by omega), regElementBytes,
      if_neg hne]
  · rw [arrayRequest_toNat (hp.toNat_le.2.trans (by decide)) (by omega),
      elementsInside_iff (by omega)]

/-- What an assertion on an array has seen. -/
theorem array_null {cells : U32} {array : U64}
    (hassert : (if cellBytes cells = 0 then array == 0 else array != 0) = true)
    (hzero : array = 0) : (cellBytes cells).setWidth 64 = (0 : U64) := by
  split at hassert
  · next hcells =>
    rw [hcells]
    rfl
  · exact absurd hzero (bne_iff_ne.mp hassert)

end Reg

end Octiron.DeviceTree
