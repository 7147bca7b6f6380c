import Octiron.DeviceTree.RecordFields
import Octiron.DeviceTree.Requests
import Octiron.Lib.Lockstep
import Octiron.Lib.Tables

/-! The decoding loops in memory.  Each reads the cell counts again for every element and
stores what it has read; as long as the stores stay clear of what is read, the arrays are
filled with the rows of the value. -/
namespace Octiron.DeviceTree

open Lib.Word Lib.ByteMemory Lib.Lockstep Lib.Tables Exec

/-- The elements of `reg.address_array`: `u32`, `u64` and `u128`. -/
def regElementBytes (cells : U32) : Nat := if cells = 3 then 16 else 4 * cells.toNat

/-- Those of the two address arrays of `range`: `u32`, and `u64` twice. -/
def rangeElementBytes (cells : U32) : Nat := if cells = 3 then 8 else 4 * cells.toNat

/-- The two arrays of `reg`, from the pointers in the union. -/
def regColumns (parent : Cells) (data : Data) : List Column :=
  [⟨data.word1, regElementBytes parent.address⟩, ⟨data.word2, 4 * parent.size.toNat⟩]

/-- The three arrays of `range`. -/
def rangeColumns (parent own : Cells) (data : Data) : List Column :=
  [⟨data.word1, rangeElementBytes own.address⟩, ⟨data.word2, rangeElementBytes parent.address⟩,
    ⟨data.word3, 4 * own.size.toNat⟩]

def regValues (row : Option U128 × Option U64) : List Nat :=
  [row.1.elim 0 BitVec.toNat, row.2.elim 0 BitVec.toNat]

def rangeValues (row : U64 × U64 × Option U64) : List Nat :=
  [row.1.toNat, row.2.1.toNat, row.2.2.elim 0 BitVec.toNat]

namespace InMemory

section Elements

variable {m mem : Mem} {array ptr : U64} {i : Nat} {cells : U32}

/-- An indexed store is a store into a column. -/
theorem store_eq_put {width v : Nat} :
    store m (array + BitVec.ofNat 64 width * BitVec.ofNat 64 i) width v =
      (⟨array, width⟩ : Column).put m i v := by
  rw [← BitVec.ofNat_mul]
  rfl

theorem put_empty (m : Mem) (array : U64) (i v : Nat) : (⟨array, 0⟩ : Column).put m i v = m := by
  funext x
  exact store_apply_of_not_within (Nat.not_lt_zero _)

/-- An element that is stored where one is decoded. -/
theorem deref_lockstep {ρ : Type} {R : ρ → Mem → Prop} {r : ρ} (h : R r mem) :
    Related R (do deref array; return r) (do deref array; return mem) :=
  (related_self (deref array)).bind fun _ _ _ => h

theorem storeRegAddress_lockstep (hsame : SameBytes mem ptr m ptr (addressReach cells)) :
    Related (fun v mem' => mem' =
        (⟨array, regElementBytes cells⟩ : Column).put mem i (v.elim 0 BitVec.toNat))
      (regAddress m array ptr cells)
      (storeRegAddress mem array (BitVec.ofNat 64 i) ptr cells) := by
  unfold regAddress storeRegAddress
  by_cases hzero : cells = 0
  · subst hzero
    exact (put_empty mem array i 0).symm
  rw [if_neg hzero, if_neg hzero]
  by_cases hone : cells = 1
  · subst hone
    refine deref_lockstep ?_
    rw [readBigEndian32_eq_iff.mpr hsame]
    refine store_eq_put.trans (congrArg _ ?_)
    have hlt := (readBigEndian32 m ptr).isLt
    change _ = ((readBigEndian32 m ptr).setWidth 128).toNat
    rw [BitVec.toNat_setWidth, Nat.mod_eq_of_lt (by omega)]
  rw [if_neg hone, if_neg hone]
  by_cases htwo : cells = 2
  · subst htwo
    refine deref_lockstep ?_
    rw [readBigEndian64_eq_iff.mpr hsame]
    refine store_eq_put.trans (congrArg _ ?_)
    have hlt := (readBigEndian64 m ptr).isLt
    change _ = ((readBigEndian64 m ptr).setWidth 128).toNat
    rw [BitVec.toNat_setWidth, Nat.mod_eq_of_lt (by omega)]
  rw [if_neg htwo, if_neg htwo]
  by_cases hthree : cells = 3
  · subst hthree
    refine deref_lockstep ?_
    rw [readBigEndian128_congr hsame]
    exact store_eq_put
  rw [if_neg hthree, if_neg hthree]
  rfl

theorem storeSize_lockstep (hsame : SameBytes mem ptr m ptr (4 * cells.toNat)) :
    Related (fun v mem' => mem' =
        (⟨array, 4 * cells.toNat⟩ : Column).put mem i (v.elim 0 BitVec.toNat))
      (sizeElement m array ptr cells) (storeSize mem array (BitVec.ofNat 64 i) ptr cells) := by
  unfold sizeElement storeSize
  by_cases hzero : cells = 0
  · subst hzero
    exact (put_empty mem array i 0).symm
  rw [if_neg hzero, if_neg hzero]
  by_cases hone : cells = 1
  · subst hone
    refine deref_lockstep ?_
    rw [readBigEndian32_eq_iff.mpr hsame]
    refine store_eq_put.trans (congrArg _ ?_)
    have hlt := (readBigEndian32 m ptr).isLt
    change _ = ((readBigEndian32 m ptr).setWidth 64).toNat
    rw [BitVec.toNat_setWidth, Nat.mod_eq_of_lt (by omega)]
  rw [if_neg hone, if_neg hone]
  by_cases htwo : cells = 2
  · subst htwo
    refine deref_lockstep ?_
    rw [readBigEndian64_eq_iff.mpr hsame]
    exact store_eq_put
  rw [if_neg htwo, if_neg htwo]
  rfl

theorem storeRangeAddress_lockstep (hsame : SameBytes mem ptr m ptr (addressReach cells)) :
    Related (fun v mem' => mem' =
        (⟨array, rangeElementBytes cells⟩ : Column).put mem i v.toNat)
      (rangeAddress m array ptr cells)
      (storeRangeAddress mem array (BitVec.ofNat 64 i) ptr cells) := by
  unfold rangeAddress storeRangeAddress
  by_cases hone : cells = 1
  · subst hone
    refine deref_lockstep ?_
    rw [readBigEndian32_eq_iff.mpr hsame]
    refine store_eq_put.trans (congrArg _ ?_)
    have hlt := (readBigEndian32 m ptr).isLt
    rw [BitVec.toNat_setWidth, Nat.mod_eq_of_lt (by omega)]
  rw [if_neg hone, if_neg hone]
  by_cases htwo : cells = 2
  · subst htwo
    refine deref_lockstep ?_
    rw [readBigEndian64_eq_iff.mpr hsame]
    exact store_eq_put
  rw [if_neg htwo, if_neg htwo]
  by_cases hthree : cells = 3
  · subst hthree
    refine deref_lockstep ?_
    rw [readBigEndian128_congr hsame]
    exact store_eq_put
  rw [if_neg hthree, if_neg hthree]
  rfl

end Elements

/-- The cell counts that a node and its parent have in memory, in records that are kept. -/
structure Counts (keep : U64 → Prop) (m : Mem) (node : U64) (own : Cells)
    (parent : Option Cells) : Prop where
  own : cellsAt m node = own
  keepNode : ∀ x, Within x node 56 → keep x
  atRoot : parent = none → parentAt m node = 0
  below : ∀ p, parent = some p → parentAt m node ≠ 0 ∧ cellsAt m (parentAt m node) = p
  keepParent : parent ≠ none → ∀ x, Within x (parentAt m node) 56 → keep x

section Counts

variable {keep : U64 → Prop} {m mem : Mem} {node : U64} {own : Cells} {parent : Option Cells}

theorem Counts.agree (h : Counts keep m node own parent) (hagree : AgreeOn keep m mem) :
    Counts keep mem node own parent := by
  have hsame := sameNode_of_bytes fun x hx => hagree x (h.keepNode x hx)
  refine ⟨hsame.cells.trans h.own, h.keepNode, fun hnone => ?_, fun p hp => ?_, fun hne => ?_⟩
  · rw [hsame.parent, h.atRoot hnone]
  · obtain ⟨hne, hcells⟩ := h.below p hp
    have hkeep := h.keepParent (by rw [hp]; exact Option.some_ne_none p)
    have hsameParent := sameNode_of_bytes fun x hx => hagree x (hkeep x hx)
    rw [hsame.parent]
    exact ⟨hne, hsameParent.cells.trans hcells⟩
  · rw [hsame.parent]
    exact h.keepParent hne

theorem Counts.parentCells (h : Counts keep m node own parent) :
    parentCells m node = derefParent parent := by
  unfold InMemory.parentCells
  cases parent with
  | none =>
    rw [h.atRoot rfl]
    rfl
  | some p =>
    obtain ⟨hne, hcells⟩ := h.below p rfl
    rw [deref_of_ne hne, hcells]
    rfl

end Counts

section Loops

variable {keep : U64 → Prop} {m : Mem} {ρ : Type} {row : U64 → Exec ρ}
  {rowIn : U64 → U64 → Mem → Exec Mem} {values : ρ → List Nat} {columns : List Column} {w n : Nat}

/-- A loop whose rows are stored clear of what the rows are read from. -/
theorem storeRows_lockstep (hroom : ∀ c ∈ columns, c.width * n ≤ 2 ^ 64)
    (hmiss : ∀ c ∈ columns, ∀ x, c.Covers n x → ¬ keep x)
    (hrow : ∀ i < n, ∀ mem, AgreeOn keep m mem →
      Related (fun r mem' => mem' = putRow mem i columns (values r)) (row (BitVec.ofNat 64 (w * i)))
        (rowIn (BitVec.ofNat 64 i) (BitVec.ofNat 64 (w * i)) mem))
    {count k : Nat} {mem : Mem} (hk : k + count ≤ n) (hagree : AgreeOn keep m mem) :
    Related (fun rows mem' => rows.length = count ∧
        mem' = putRows columns mem k (rows.map values))
      (readRows row (BitVec.ofNat 64 w) count (BitVec.ofNat 64 (w * k)))
      (storeRows rowIn (BitVec.ofNat 64 w) count (BitVec.ofNat 64 k) (BitVec.ofNat 64 (w * k)) mem) := by
  induction count generalizing k mem with
  | zero => exact ⟨rfl, rfl⟩
  | succ count ih =>
    rw [readRows, storeRows]
    refine (hrow k (by omega) mem hagree).bind ?_
    rintro r _ rfl
    have hcovers : ∀ x, (∃ c ∈ columns, Within x (c.element k) c.width) →
        ∃ c ∈ columns, c.Covers n x := by
      rintro x ⟨c, hc, hx⟩
      exact ⟨c, hc, Column.covers_element (by omega) (hroom c hc) hx⟩
    have hkept : ∀ x, (∃ c ∈ columns, c.Covers n x) → ¬ keep x := by
      rintro x ⟨c, hc, hx⟩
      exact hmiss c hc x hx
    have hchanges : ChangesOnly (fun x => ∃ c ∈ columns, c.Covers n x) mem
        (putRow mem k columns (values r)) := changesOnly_putRow.mono hcovers
    have hnext := ih (k := k + 1) (by omega) (hagree.trans (hchanges.agreeOn hkept))
    rw [← BitVec.ofNat_add, ← Nat.mul_succ, show (1 : U64) = BitVec.ofNat 64 1 by rfl,
      ← BitVec.ofNat_add]
    refine hnext.bind_left ?_
    rintro rows _ ⟨hlength, rfl⟩
    exact ⟨_, rfl, congrArg (· + 1) hlength, rfl⟩

end Loops

section Rows

variable {keep : U64 → Prop} {m m₀ mem : Mem} {node data : U64} {own p : Cells} {union : Data}
  {i j n : Nat}

theorem regRow_lockstep (hcounts : Counts keep m₀ node own (some p)) (hagree : AgreeOn keep m₀ mem)
    (hsame : ∀ mem, AgreeOn keep m₀ mem →
      SameBytes mem (data + BitVec.ofNat 64 j) m (data + BitVec.ofNat 64 j)
        (4 * p.address.toNat + 4 * p.size.toNat + overreach p.address p.size))
    (hp : p.address.toNat ≤ 3) (hi : i < n)
    (hroom : ∀ c ∈ regColumns p union, c.width * n ≤ 2 ^ 64)
    (hmiss : ∀ c ∈ regColumns p union, ∀ x, c.Covers n x → ¬ keep x) :
    Related (fun r mem' => mem' = putRow mem i (regColumns p union) (regValues r))
      (regRow m data p union.word1 union.word2 (BitVec.ofNat 64 j))
      (storeRegRow node data ((cellBytes p.address).setWidth 64) union.word1 union.word2
        (BitVec.ofNat 64 i) (BitVec.ofNat 64 j) mem) := by
  unfold regRow storeRegRow
  rw [(hcounts.agree hagree).parentCells, derefParent, ok_bind]
  refine (storeRegAddress_lockstep ((hsame mem hagree).mono addressReach_le_row)).bind ?_
  rintro address _ rfl
  have hagree' := hagree.trans
    ((Column.changesOnly_put (v := address.elim 0 BitVec.toNat) hi
      (hroom _ List.mem_cons_self)).agreeOn (hmiss _ List.mem_cons_self))
  dsimp only
  rw [(hcounts.agree hagree').parentCells, derefParent, ok_bind, cellBytes_setWidth hp,
    ← BitVec.add_assoc]
  refine (storeSize_lockstep ((hsame _ hagree').part (Nat.le_add_right _ _))).bind_left ?_
  rintro size _ rfl
  exact ⟨_, rfl, rfl⟩

/-- An address count that is not one to three ends both rows. -/
theorem rangeAddress_unreachable {array ptr : U64} {cells : U32}
    (h : ¬ (1 ≤ cells.toNat ∧ cells.toNat ≤ 3)) :
    rangeAddress m array ptr cells = .error .unreachable ∧
      storeRangeAddress mem array (BitVec.ofNat 64 i) ptr cells = .error .unreachable := by
  have hone : cells ≠ 1 := by
    rintro rfl
    exact h (by decide)
  have htwo : cells ≠ 2 := by
    rintro rfl
    exact h (by decide)
  have hthree : cells ≠ 3 := by
    rintro rfl
    exact h (by decide)
  rw [rangeAddress, storeRangeAddress, if_neg hone, if_neg htwo, if_neg hthree, if_neg hone,
    if_neg htwo, if_neg hthree]
  exact ⟨rfl, rfl⟩

/-- Whatever is read for an element, it is stored where one is decoded. -/
theorem storeRangeAddress_ends {array ptr : U64} {cells : U32} :
    Related (fun _ mem' => ∃ v, mem' = (⟨array, rangeElementBytes cells⟩ : Column).put mem i v)
      (rangeAddress m array ptr cells)
      (storeRangeAddress mem array (BitVec.ofNat 64 i) ptr cells) := by
  unfold rangeAddress storeRangeAddress
  split
  · next hone =>
    subst hone
    exact deref_lockstep ⟨_, store_eq_put⟩
  split
  · next htwo =>
    subst htwo
    exact deref_lockstep ⟨_, store_eq_put⟩
  split
  · next hthree =>
    subst hthree
    exact deref_lockstep ⟨_, store_eq_put⟩
  · rfl

/-- The three elements of a row; neither row comes to its end when the parent's address
count is not one to three. -/
theorem rangeRow_lockstep (hcounts : Counts keep m₀ node own (some p)) (hagree : AgreeOn keep m₀ mem)
    (hown : own.address.toNat ≤ 3) (hi : i < n) {columns : List Column}
    (hdecoded : 1 ≤ p.address.toNat ∧ p.address.toNat ≤ 3 → columns = rangeColumns p own union ∧
      ∀ mem, AgreeOn keep m₀ mem →
        SameBytes mem (data + BitVec.ofNat 64 j) m (data + BitVec.ofNat 64 j)
          (4 * own.address.toNat + (4 * p.address.toNat + 4 * own.size.toNat) +
            overreach p.address own.size))
    (hroom : ∀ c ∈ rangeColumns p own union, c.width * n ≤ 2 ^ 64)
    (hmiss : ∀ c ∈ rangeColumns p own union, ∀ x, c.Covers n x → ¬ keep x) :
    Related (fun r mem' => mem' = putRow mem i columns (rangeValues r))
      (rangeRow m data own p.address union.word1 union.word2 union.word3 (BitVec.ofNat 64 j))
      (storeRangeRow node data ((cellBytes own.address).setWidth 64)
        ((cellBytes p.address).setWidth 64) union.word1 union.word2 union.word3
        (BitVec.ofNat 64 i) (BitVec.ofNat 64 j) mem) := by
  unfold rangeRow storeRangeRow
  rw [(hcounts.agree hagree).own]
  have hfirst : (⟨union.word1, rangeElementBytes own.address⟩ : Column) ∈
      rangeColumns p own union := List.mem_cons_self
  have hsecond : (⟨union.word2, rangeElementBytes p.address⟩ : Column) ∈
      rangeColumns p own union := List.mem_cons_of_mem _ List.mem_cons_self
  by_cases hp : 1 ≤ p.address.toNat ∧ p.address.toNat ≤ 3
  · obtain ⟨rfl, hsame⟩ := hdecoded hp
    have hreach : addressReach own.address ≤ 4 * own.address.toNat +
        (4 * p.address.toNat + 4 * own.size.toNat) + overreach p.address own.size := by
      unfold addressReach
      split
      · next hthree =>
        have htoNat : own.address.toNat = 3 := congrArg BitVec.toNat hthree
        omega
      · omega
    refine (storeRangeAddress_lockstep ((hsame mem hagree).mono hreach)).bind ?_
    rintro cbusAddress _ rfl
    have hagree' := hagree.trans ((Column.changesOnly_put (v := cbusAddress.toNat) hi
      (hroom _ hfirst)).agreeOn (hmiss _ hfirst))
    dsimp only
    rw [(hcounts.agree hagree').parentCells, derefParent, ok_bind, cellBytes_setWidth hown,
      ← BitVec.add_assoc]
    have hbehind : ∀ mem, AgreeOn keep m₀ mem → SameBytes mem
        (data + BitVec.ofNat 64 j + BitVec.ofNat 64 (4 * own.address.toNat)) m
        (data + BitVec.ofNat 64 j + BitVec.ofNat 64 (4 * own.address.toNat))
        (4 * p.address.toNat + 4 * own.size.toNat + overreach p.address own.size) :=
      fun mem hmem => (hsame mem hmem).part (by omega)
    refine (storeRangeAddress_lockstep ((hbehind _ hagree').mono addressReach_le_row)).bind ?_
    rintro pbusAddress _ rfl
    have hagree'' := hagree'.trans ((Column.changesOnly_put (v := pbusAddress.toNat) hi
      (hroom _ hsecond)).agreeOn (hmiss _ hsecond))
    rw [(hcounts.agree hagree'').own, cellBytes_setWidth hp.2, ← BitVec.add_assoc,
      ← BitVec.add_assoc]
    refine (storeSize_lockstep ((hbehind _ hagree'').part (Nat.le_add_right _ _))).bind_left ?_
    rintro size _ rfl
    exact ⟨_, rfl, rfl⟩
  · -- both rows end at the parent's address
    refine storeRangeAddress_ends.bind ?_
    rintro _ _ ⟨v, rfl⟩
    have hagree' := hagree.trans ((Column.changesOnly_put (v := v) hi (hroom _ hfirst)).agreeOn
      (hmiss _ hfirst))
    dsimp only
    rw [(hcounts.agree hagree').parentCells, derefParent, ok_bind,
      (@rangeAddress_unreachable m mem i _ _ _ hp).1, (@rangeAddress_unreachable m _ i _ _ _ hp).2]
    rfl

end Rows

end InMemory

end Octiron.DeviceTree
