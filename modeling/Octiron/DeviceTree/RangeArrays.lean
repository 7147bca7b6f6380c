import Octiron.DeviceTree.Arrays

/-! The three arrays of `ranges`.  The array of parent addresses is given a block for as
many bytes as the child addresses have, and an address of three cells is stored as the
last eight of the sixteen bytes that are read. -/
namespace Octiron.DeviceTree

open Lib.Word Lib.ByteMemory Lib.Elements Exec Pmm

section Values

variable {m : Mem} {ptr : U64} {cells : U32}

variable (m ptr) in
/-- An address of three cells is the last eight of sixteen bytes: its first cell is zero,
and the other two equal the cell behind it. -/
def SurvivesCut : Prop :=
  readBigEndian32 m ptr = 0 ∧ readBigEndian32 m (ptr + 4) = readBigEndian32 m (ptr + 8) ∧
    readBigEndian32 m (ptr + 8) = readBigEndian32 m (ptr + 12)

theorem readCells_three : readCells m ptr 3 = (readBigEndian32 m ptr).toNat * 2 ^ 64 +
    ((readBigEndian32 m (ptr + 4)).toNat * 2 ^ 32 + (readBigEndian32 m (ptr + 8)).toNat) := by
  have height : ptr + 4 + 4 = ptr + 8 := add_ofNat_add ptr 4 4
  simp only [readCells, height]
  omega

/-- Four digits, the first two of them read as the last two are. -/
theorem digits_iff {a b c d : Nat} (hb : b < 2 ^ 32) (hc : c < 2 ^ 32) (hd : d < 2 ^ 32) :
    c * 2 ^ 32 + d = a * 2 ^ 64 + (b * 2 ^ 32 + c) ↔ a = 0 ∧ b = c ∧ c = d := by
  constructor
  · intro h
    have ha : a = 0 := by omega
    subst ha
    have hbc : b = c := by omega
    exact ⟨rfl, hbc, by omega⟩
  · rintro ⟨rfl, rfl, rfl⟩
    omega

theorem survivesCut_iff : (readBigEndian64 m (ptr + 8)).toNat = readCells m ptr 3 ↔
    SurvivesCut m ptr := by
  have htwelve : ptr + 8 + 4 = ptr + 12 := add_ofNat_add ptr 8 4
  rw [toNat_readBigEndian64, readCells_three, htwelve, SurvivesCut, ← BitVec.toNat_inj,
    ← BitVec.toNat_inj, ← BitVec.toNat_inj]
  exact digits_iff (readBigEndian32 m (ptr + 4)).isLt (readBigEndian32 m (ptr + 8)).isLt
    (readBigEndian32 m (ptr + 12)).isLt

/-- Which addresses are stored as they are. -/
theorem rangeValue_toNat_iff (h : cells.toNat ≤ 3) (hne : cells ≠ 0) :
    (rangeValue m ptr cells).toNat = readCells m ptr cells.toNat ↔
      (cells = 3 → SurvivesCut m ptr) := by
  obtain rfl | rfl | rfl | rfl := cells_cases h
  · exact absurd rfl hne
  · have hlt := (readBigEndian32 m ptr).isLt
    refine iff_of_true ?_ fun hthree => absurd hthree (by decide)
    change ((readBigEndian32 m ptr).setWidth 64).toNat = readCells m ptr 1
    rw [readCells_one, BitVec.toNat_setWidth, Nat.mod_eq_of_lt (by omega)]
  · refine iff_of_true ?_ fun hthree => absurd hthree (by decide)
    change (readBigEndian64 m ptr).toNat = readCells m ptr 2
    rw [readCells_two]
  · rw [rangeValue_three, setWidth_readBigEndian128]
    exact survivesCut_iff.trans ⟨fun hsurvives _ => hsurvives, fun hsurvives => hsurvives rfl⟩

end Values

section Ranges

variable (m : Mem) (hhdmBase : U64) (answers : Answers)

/-- A child address, a parent address and a size. -/
abbrev Triple := Nat × Nat × Nat

def encodeTriple (own p : Cells) (triple : Triple) : List U8 :=
  encodeCells own.address.toNat triple.1 ++
    (encodeCells p.address.toNat triple.2.1 ++ encodeCells own.size.toNat triple.2.2)

def TripleFits (own p : Cells) (triple : Triple) : Prop :=
  triple.1 < 2 ^ (32 * own.address.toNat) ∧ triple.2.1 < 2 ^ (32 * p.address.toNat) ∧
    triple.2.2 < 2 ^ (32 * own.size.toNat)

/-- Every address of three cells survives, of the child and of the parent. -/
def AllSurvive (parent own : Cells) (data : U64) (n : Nat) : Prop :=
  ∀ i < n,
    (own.address = 3 → SurvivesCut m (data + BitVec.ofNat 64 (rangesRowBytes own parent * i))) ∧
    (parent.address = 3 → SurvivesCut m (data + BitVec.ofNat 64 (rangesRowBytes own parent * i) +
      BitVec.ofNat 64 (4 * own.address.toNat)))

variable {m hhdmBase answers} {parent own : Cells} {bump bump₁ bump₂ bump₃ : Bump.State}
  {prop : Entry} {triples : List Triple}

theorem length_encodeTriple (own p : Cells) (triple : Triple) :
    (encodeTriple own p triple).length = rangesRowBytes own p := by
  rw [encodeTriple, List.length_append, List.length_append, length_encodeCells, length_encodeCells,
    length_encodeCells, rangesRowBytes]

theorem length_encodeTriples (own p : Cells) (triples : List Triple) :
    (triples.flatMap (encodeTriple own p)).length = rangesRowBytes own p * triples.length :=
  length_flatMap fun triple _ => length_encodeTriple own p triple

theorem rangeRow_eq {data cbus pbus size : U64} (hown : own.Bounded) (hp : parent.Bounded)
    (haddress : own.address ≠ 0) (hparent : parent.address ≠ 0) (hcbus : cbus ≠ 0)
    (hpbus : pbus ≠ 0) (hsize : own.size ≠ 0 → size ≠ 0) (k : Nat) :
    rangeRow m data own parent.address cbus pbus size (BitVec.ofNat 64 k) =
      .ok (rangeValue m (data + BitVec.ofNat 64 k) own.address,
        rangeValue m (data + BitVec.ofNat 64 k + BitVec.ofNat 64 (4 * own.address.toNat))
          parent.address,
        sizeValue m (data + BitVec.ofNat 64 k + BitVec.ofNat 64 (4 * own.address.toNat) +
          BitVec.ofNat 64 (4 * parent.address.toNat)) own.size) := by
  unfold rangeRow
  rw [rangeAddress_eq hown.toNat_le.1 haddress hcbus, ok_bind, cellBytes_setWidth hown.toNat_le.1,
    cellBytes_setWidth hp.toNat_le.1]
  dsimp only
  rw [← BitVec.add_assoc, rangeAddress_eq hp.toNat_le.1 hparent hpbus, ok_bind]
  rw [← BitVec.add_assoc, ← BitVec.add_assoc, sizeElement_eq hown.toNat_le.2 hsize]
  rfl

/-- The addresses read at an encoded triple are those of the triple, if they survive. -/
theorem rangeValues_iff {ptr : U64} {triple : Triple} (hown : own.Bounded) (hp : parent.Bounded)
    (haddress : own.address ≠ 0) (hparent : parent.address ≠ 0)
    (hfits : TripleFits own parent triple) (h : Holds m ptr (encodeTriple own parent triple)) :
    ((rangeValue m ptr own.address).toNat = triple.1 ∧
      (rangeValue m (ptr + BitVec.ofNat 64 (4 * own.address.toNat)) parent.address).toNat =
        triple.2.1) ↔
      (own.address = 3 → SurvivesCut m ptr) ∧
        (parent.address = 3 → SurvivesCut m (ptr + BitVec.ofNat 64 (4 * own.address.toNat))) := by
  obtain ⟨hfirst, hrest⟩ := holds_append.mp h
  obtain ⟨hsecond, -⟩ := holds_append.mp hrest
  rw [length_encodeCells] at hsecond
  have hchild := readCells_of_holds hfirst
  have hbus := readCells_of_holds hsecond
  rw [Nat.mod_eq_of_lt hfits.1] at hchild
  rw [Nat.mod_eq_of_lt hfits.2.1] at hbus
  rw [← rangeValue_toNat_iff hown.toNat_le.1 haddress, ← rangeValue_toNat_iff hp.toNat_le.1 hparent,
    hchild, hbus]

/-- The size is read as it is. -/
theorem rangeSize_eq {ptr : U64} {triple : Triple} (hown : own.Bounded)
    (hfits : TripleFits own parent triple) (h : Holds m ptr (encodeTriple own parent triple)) :
    (sizeValue m (ptr + BitVec.ofNat 64 (4 * own.address.toNat) +
        BitVec.ofNat 64 (4 * parent.address.toNat)) own.size).map BitVec.toNat =
      if own.size = 0 then none else some triple.2.2 := by
  obtain ⟨-, hrest⟩ := holds_append.mp h
  obtain ⟨-, hthird⟩ := holds_append.mp hrest
  rw [length_encodeCells, length_encodeCells] at hthird
  rw [sizeValue_toNat hown.toNat_le.2, readCells_of_holds hthird, Nat.mod_eq_of_lt hfits.2.2]

/-- A completed call, from the things it does. -/
theorem propertyRewriteRanges_of_arrays {n cbus pbus size : U64}
    {rows : List (U64 × U64 × Option U64)} (hne : prop.data.raw.size ≠ 0)
    (hcheck : rangesCheck (some parent) own prop.data.raw = .ok (parent, n))
    (hcbus : Bump.allocAligned hhdmBase answers bump (arrayRequest own.address n).1
      (arrayRequest own.address n).2 = .ok (cbus, bump₁))
    (hpbus : Bump.allocAligned hhdmBase answers bump₁ (arrayRequest own.address n).1
      (arrayRequest own.address n).2 = .ok (pbus, bump₂))
    (hsize : Bump.allocAligned hhdmBase answers bump₂ (arrayRequest own.size n).1
      (arrayRequest own.size n).2 = .ok (size, bump₃))
    (hread : readRows (rangeRow m prop.data.raw.data own parent.address cbus pbus size)
      (rangesWidth own parent.address) n.toNat 0 = .ok rows) :
    propertyRewriteRanges m hhdmBase answers (some parent) own bump prop =
      .ok ({ prop with
        type := .ranges
        data := { prop.data with word0 := n, word1 := cbus, word2 := pbus, word3 := size }
        triples := rows }, bump₃) := by
  rw [propertyRewriteRanges_eq hne, hcheck]
  simp only [ok_bind, hcbus, hpbus, hsize, hread]
  rfl

/-- The length of so many triples passes. -/
theorem rangesCheck_of_triples (hown : own.Bounded) (hp : parent.Bounded)
    (hpos : 0 < rangesRowBytes own parent) (hn : 0 < triples.length)
    (hsize : prop.data.raw.size =
      BitVec.ofNat 64 (triples.flatMap (encodeTriple own parent)).length)
    (hfit : rangesRowBytes own parent * triples.length < 2 ^ 64) :
    prop.data.raw.size ≠ 0 ∧ rangesCheck (some parent) own prop.data.raw =
      .ok (parent, BitVec.ofNat 64 triples.length) := by
  rw [length_encodeTriples] at hsize
  obtain ⟨hrows, hdivide⟩ := rows_divide hpos hsize hfit hn
  refine ⟨fun hzero => ?_, ?_⟩
  · have hsizePos := hrows.1
    rw [hzero] at hsizePos
    exact absurd hsizePos (by decide)
  · rw [rangesCheck_some hown hp, (rowCount_of_rows (rangesRowBytes_lt hown hp) hrows).1, hdivide]
    rfl

/-- The rows that a value of triples is read as. -/
def rangesRow (m : Mem) (parent own : Cells) (data : U64) (i : Nat) : U64 × U64 × Option U64 :=
  let ptr := data + BitVec.ofNat 64 (rangesRowBytes own parent * i)
  (rangeValue m ptr own.address,
    rangeValue m (ptr + BitVec.ofNat 64 (4 * own.address.toNat)) parent.address,
    sizeValue m (ptr + BitVec.ofNat 64 (4 * own.address.toNat) +
      BitVec.ofNat 64 (4 * parent.address.toNat)) own.size)

/-- They are the triples, where all addresses survive. -/
theorem rangesRows_iff {data : U64} (hown : own.Bounded) (hp : parent.Bounded)
    (haddress : own.address ≠ 0) (hparent : parent.address ≠ 0)
    (hfits : ∀ triple ∈ triples, TripleFits own parent triple)
    (hholds : Holds m data (triples.flatMap (encodeTriple own parent))) :
    (∀ i (hi : i < triples.length),
      (rangesRow m parent own data i).1.toNat = triples[i].1 ∧
        (rangesRow m parent own data i).2.1.toNat = triples[i].2.1) ↔
      AllSurvive m parent own data triples.length :=
  forall₂_congr fun _ hi => rangeValues_iff hown hp haddress hparent (hfits _ (List.getElem_mem hi))
    (holds_flatMap_at (fun triple _ => length_encodeTriple own parent triple) hholds hi)

/-- Served requests are enough for the call to complete. -/
theorem ranges_completed (hown : own.Bounded) (hp : parent.Bounded) (haddress : own.address ≠ 0)
    (hparent : parent.address ≠ 0) (hne : prop.data.raw.size ≠ 0)
    (hcheck : rangesCheck (some parent) own prop.data.raw =
      .ok (parent, BitVec.ofNat 64 triples.length))
    (hserved : Serves hhdmBase answers bump (rangesRequests (some parent) own prop.data.raw)) :
    ∃ cbus pbus size bump₁ bump₂ bump₃,
      Bump.allocAligned hhdmBase answers bump
        (arrayRequest own.address (BitVec.ofNat 64 triples.length)).1
        (arrayRequest own.address (BitVec.ofNat 64 triples.length)).2 = .ok (cbus, bump₁) ∧
      Bump.allocAligned hhdmBase answers bump₁
        (arrayRequest own.address (BitVec.ofNat 64 triples.length)).1
        (arrayRequest own.address (BitVec.ofNat 64 triples.length)).2 = .ok (pbus, bump₂) ∧
      Bump.allocAligned hhdmBase answers bump₂
        (arrayRequest own.size (BitVec.ofNat 64 triples.length)).1
        (arrayRequest own.size (BitVec.ofNat 64 triples.length)).2 = .ok (size, bump₃) ∧
      (cbus ≠ 0 ∧ pbus ≠ 0 ∧ (own.size ≠ 0 → size ≠ 0)) ∧
      propertyRewriteRanges m hhdmBase answers (some parent) own bump prop =
        .ok ({ prop with
          type := .ranges
          data := { prop.data with
            word0 := BitVec.ofNat 64 triples.length
            word1 := cbus
            word2 := pbus
            word3 := size }
          triples := (List.range (BitVec.ofNat 64 triples.length).toNat).map
            (rangesRow m parent own prop.data.raw.data) }, bump₃) := by
  obtain ⟨-, -, -, hpositive, hrows⟩ := rangesCheck_eq_ok hcheck
  have hrows := hrows hp.toNat_le.1
  have hlt := prop.data.raw.size.isLt
  rw [← hrows, Nat.add_mul, Nat.add_mul] at hlt
  unfold rangesRequests at hserved
  rw [if_neg hne, hcheck] at hserved
  obtain ⟨cbus, bump₁, hcbus, hnull₁, hserved⟩ := hserved.next
  obtain ⟨pbus, bump₂, hpbus, hnull₂, hserved⟩ := hserved.next
  obtain ⟨size, bump₃, hsize, hnull₃, -⟩ := hserved.next
  rw [arrayRequest_empty_iff hown.toNat_le.1 hpositive (by omega)] at hnull₁ hnull₂
  rw [arrayRequest_empty_iff (hown.toNat_le.2.trans (by decide)) hpositive (by omega)] at hnull₃
  have hread := @readRows_eq_ok _ (rangeRow m prop.data.raw.data own parent.address cbus pbus size)
    (rangesRow m parent own prop.data.raw.data) (rangesRowBytes own parent)
    (BitVec.ofNat 64 triples.length).toNat 0 fun i _ =>
      rangeRow_eq hown hp haddress hparent (mt hnull₁.mp haddress) (mt hnull₂.mp haddress)
        (mt hnull₃.mp) _
  rw [Nat.mul_zero, ← rangesWidth_of_bounded hown hp] at hread
  simp only [Nat.zero_add] at hread
  exact ⟨cbus, pbus, size, bump₁, bump₂, bump₃, hcbus, hpbus, hsize,
    ⟨mt hnull₁.mp haddress, mt hnull₂.mp haddress, mt hnull₃.mp⟩,
    propertyRewriteRanges_of_arrays hne hcheck hcbus hpbus hsize hread⟩

/-- The block of the parent addresses is long enough but for one cell against more. -/
theorem pbusInside_iff {pbus : U64} {n : Nat} (hown : own.Bounded) (hp : parent.Bounded)
    (haddress : own.address ≠ 0) (hn : 0 < n) (hfit : 4 * own.address.toNat * n < 2 ^ 64) :
    ElementsInside pbus (rangeElementBytes parent.address) n
        (arrayRequest own.address (BitVec.ofNat 64 n)).1.toNat ↔
      (own.address = 1 → parent.address.toNat ≤ 1) := by
  rw [arrayRequest_toNat hown.toNat_le.1 hfit, elementsInside_iff hfit, Nat.mul_le_mul_right_iff hn,
    rangeElementBytes]
  obtain h | h | h | h := cells_cases hown.toNat_le.1
  · exact absurd h haddress
  all_goals
    rw [h]
    obtain h' | h' | h' | h' := cells_cases hp.toNat_le.1 <;> rw [h'] <;> decide

/-- Those of the child addresses and of the sizes always are. -/
theorem cbusInside {cbus : U64} {n : Nat} (hown : own.Bounded)
    (hfit : 4 * own.address.toNat * n < 2 ^ 64) :
    ElementsInside cbus (rangeElementBytes own.address) n
      (arrayRequest own.address (BitVec.ofNat 64 n)).1.toNat := by
  rw [arrayRequest_toNat hown.toNat_le.1 hfit, elementsInside_iff hfit]
  apply Nat.mul_le_mul_right
  unfold rangeElementBytes
  split
  · next hthree =>
    rw [hthree]
    decide
  · exact Nat.le_refl _

theorem sizeInside {size : U64} {n : Nat} (hown : own.Bounded)
    (hfit : 4 * own.size.toNat * n < 2 ^ 64) :
    ElementsInside size (4 * own.size.toNat) n
      (arrayRequest own.size (BitVec.ofNat 64 n)).1.toNat := by
  rw [arrayRequest_toNat (hown.toNat_le.2.trans (by decide)) hfit, elementsInside_iff hfit]

end Ranges

end Octiron.DeviceTree
