import Octiron.DeviceTree.CellCounts

/-! Divisions by zero, dead arms and the null parent in the second lap: where the pass
meets one of them, by the cell counts around the property it has come to. -/
namespace Octiron.DeviceTree

open Lib.Word Lib.ByteMemory Exec Pmm

/-- A turn of a second lap: the final cell counts around it, the bump allocator before it
and the property as the first lap has left it. -/
structure Turn where
  parent : Option Cells
  own : Cells
  bump : Bump.State
  prop : Entry

section Reached

variable (m : Mem) (hhdmBase : U64) (answers : Answers)

def Turn.result (turn : Turn) : Exec (Entry × Bump.State) :=
  rewriteSecond m hhdmBase answers turn.parent turn.own turn.bump turn.prop

/-- The pass over a list of siblings gets to the turn. -/
inductive Reaches (turn : Turn) : Option Cells → Nodes → Bump.State → Prop where
  | here {parent : Option Cells} {cells : Cells} {properties before after before' : List Entry}
      {children next : Nodes} {bump bump₁ : Bump.State} {err : Error}
      (hparent : turn.parent = parent)
      (hfirst : firstLap m hhdmBase answers properties cells bump =
        .ok (err, before ++ turn.prop :: after, turn.own, bump₁))
      (hok : err.isErr = false)
      (hbefore : secondLap m hhdmBase answers parent turn.own before bump₁ =
        .ok (before', turn.bump)) :
      Reaches turn parent (.node cells properties children next) bump
  | child {parent : Option Cells} {cells own : Cells} {properties properties' properties'' : List Entry}
      {children next : Nodes} {bump bump₁ bump₂ : Bump.State} {err : Error}
      (hfirst : firstLap m hhdmBase answers properties cells bump =
        .ok (err, properties', own, bump₁))
      (hok : err.isErr = false)
      (hsecond : secondLap m hhdmBase answers parent own properties' bump₁ =
        .ok (properties'', bump₂))
      (hchild : Reaches turn (some own) children bump₂) :
      Reaches turn parent (.node cells properties children next) bump
  | sibling {parent : Option Cells} {cells own : Cells}
      {properties properties' properties'' : List Entry} {children children' next : Nodes}
      {bump bump₁ bump₂ bump₃ : Bump.State} {err childErr : Error}
      (hfirst : firstLap m hhdmBase answers properties cells bump =
        .ok (err, properties', own, bump₁))
      (hok : err.isErr = false)
      (hsecond : secondLap m hhdmBase answers parent own properties' bump₁ =
        .ok (properties'', bump₂))
      (hchildren : rewriteNodes m hhdmBase answers (some own) children bump₂ =
        .ok (childErr, children', bump₃))
      (hchildOk : childErr.isErr = false)
      (hnext : Reaches turn parent next bump₃) :
      Reaches turn parent (.node cells properties children next) bump

end Reached

/-- The first turn of a node's second lap. -/
theorem Reaches.first {m : Mem} {hhdmBase : U64} {answers : Answers} {turn : Turn}
    {parent : Option Cells} {cells : Cells} {properties after : List Entry} {children next : Nodes}
    {bump : Bump.State} {err : Error} (hparent : turn.parent = parent)
    (hfirst : firstLap m hhdmBase answers properties cells bump =
      .ok (err, turn.prop :: after, turn.own, turn.bump))
    (hok : err.isErr = false) :
    Reaches m hhdmBase answers turn parent (.node cells properties children next) bump :=
  @Reaches.here _ _ _ _ _ _ _ [] _ [] _ _ _ _ _ hparent hfirst hok rfl

section Stops

variable {m : Mem} {hhdmBase : U64} {answers : Answers} {parent : Option Cells} {own cells : Cells}
  {bump : Bump.State} {prop : Entry} {properties : List Entry} {nodes : Nodes} {stop : Stop}
  {turn : Turn}

theorem allocAligned_stopsIn (size alignment : U64) :
    StopsIn [.nullDeref] (Bump.allocAligned hhdmBase answers bump size alignment) := by
  unfold Bump.allocAligned
  split
  · exact stopsIn_ok _
  · exact (stopsIn_deref (by simp)).bind fun _ _ =>
      (stopsIn_deref (by simp)).bind fun _ _ => stopsIn_ok _

theorem allocAligned_cases (hhdmBase : U64) (answers : Answers) (bump : Bump.State)
    (request : U64 × U64) :
    Bump.allocAligned hhdmBase answers bump request.1 request.2 = .error .nullDeref ∨
      ∃ array bump', Bump.allocAligned hhdmBase answers bump request.1 request.2 =
        .ok (array, bump') := by
  cases h : Bump.allocAligned hhdmBase answers bump request.1 request.2 with
  | error stop =>
    obtain rfl : stop = .nullDeref := by simpa using allocAligned_stopsIn _ _ _ h
    exact .inl rfl
  | ok result => exact .inr ⟨result.1, result.2, rfl⟩

theorem secondLap_append_error {before before' after : List Entry} {bump' : Bump.State}
    (hbefore : secondLap m hhdmBase answers parent own before bump = .ok (before', bump'))
    (hturn : rewriteSecond m hhdmBase answers parent own bump' prop = .error stop) :
    secondLap m hhdmBase answers parent own (before ++ prop :: after) bump = .error stop := by
  induction before generalizing before' bump with
  | nil =>
    obtain ⟨-, rfl⟩ := ok_pair_inj hbefore
    rw [List.nil_append, secondLap, hturn]
    rfl
  | cons first rest ih =>
    obtain ⟨⟨first', bump₁⟩, hfirst, hbefore⟩ := bind_eq_ok.mp hbefore
    obtain ⟨⟨rest', bump₂⟩, hrest, hbefore⟩ := bind_eq_ok.mp hbefore
    obtain ⟨-, rfl⟩ := Prod.mk.inj (pure_eq_ok.mp hbefore)
    rw [List.cons_append, secondLap, hfirst, ok_bind]
    dsimp only
    rw [ih hrest]
    rfl

/-- A reached turn that stops is the last one. -/
theorem Reaches.stops (h : Reaches m hhdmBase answers turn parent nodes bump)
    (hstop : turn.result m hhdmBase answers = .error stop) :
    rewriteNodes m hhdmBase answers parent nodes bump = .error stop := by
  induction h with
  | here hparent hfirst hok hbefore =>
    unfold Turn.result at hstop
    rw [hparent] at hstop
    rw [rewriteNodes, hfirst, ok_bind]
    dsimp only
    rw [if_neg (by rw [hok]; decide), secondLap_append_error hbefore hstop]
    rfl
  | child hfirst hok hsecond _ ih =>
    rw [rewriteNodes, hfirst, ok_bind]
    dsimp only
    rw [if_neg (by rw [hok]; decide), hsecond, ok_bind]
    dsimp only
    rw [ih]
    rfl
  | sibling hfirst hok hsecond hchildren hchildOk _ ih =>
    rw [rewriteNodes, hfirst, ok_bind]
    dsimp only
    rw [if_neg (by rw [hok]; decide), hsecond, ok_bind]
    dsimp only
    rw [hchildren, ok_bind]
    dsimp only
    rw [if_neg (by rw [hchildOk]; decide), ih]
    rfl

/-- The counts around a reached turn. -/
theorem Reaches.bounded (h : Reaches m hhdmBase answers turn parent nodes bump)
    (hnodes : nodes.All fun cells _ => cells.Bounded)
    (hparent : ∀ p, parent = some p → p.Bounded) :
    turn.own.Bounded ∧ ∀ p, turn.parent = some p → p.Bounded := by
  have hlap {properties properties' : List Entry} {cells own : Cells} {bump bump' : Bump.State}
      {err : Error} (hfirst : firstLap m hhdmBase answers properties cells bump =
        .ok (err, properties', own, bump')) (hok : err.isErr = false) (hcells : cells.Bounded) :
      own.Bounded := by
    obtain ⟨herr, -⟩ | ⟨-, -, hbounded⟩ := firstLap_cases hfirst
    · exact absurd (hok.symm.trans herr) (by decide)
    · exact hbounded hcells
  induction h with
  | here hturn hfirst hok hbefore => exact ⟨hlap hfirst hok hnodes.1, hturn ▸ hparent⟩
  | child hfirst hok hsecond _ ih =>
    refine ih hnodes.2.1 fun p hp => ?_
    obtain rfl := Option.some.inj hp
    exact hlap hfirst hok hnodes.1
  | sibling hfirst hok hsecond hchildren hchildOk _ ih => exact ih hnodes.2.2 hparent

end Stops

section Widths

/-- The bytes of a pair, and of a triple. -/
def regRowBytes (p : Cells) : Nat := 4 * p.address.toNat + 4 * p.size.toNat

def rangesRowBytes (own p : Cells) : Nat :=
  4 * own.address.toNat + (4 * p.address.toNat + 4 * own.size.toNat)

/-- A length of one or more rows. -/
def RowsOf (w : Nat) (size : U64) : Prop := 0 < size.toNat ∧ w ∣ size.toNat

variable {w : Nat} {size : U64} {own p : Cells}

theorem Cells.Bounded.toNat_le (h : p.Bounded) : p.address.toNat ≤ 3 ∧ p.size.toNat ≤ 2 :=
  ⟨BitVec.le_def.mp h.1, BitVec.le_def.mp h.2⟩

theorem regWidth_of_bounded (hp : p.Bounded) : regWidth p = BitVec.ofNat 64 (regRowBytes p) :=
  regWidth_eq hp.toNat_le.1 hp.toNat_le.2

theorem rangesWidth_of_bounded (hown : own.Bounded) (hp : p.Bounded) :
    rangesWidth own p.address = BitVec.ofNat 64 (rangesRowBytes own p) :=
  rangesWidth_eq hown.toNat_le.1 hp.toNat_le.1 hown.toNat_le.2

theorem regRowBytes_lt (hp : p.Bounded) : regRowBytes p < 2 ^ 64 := by
  have := hp.toNat_le
  unfold regRowBytes
  omega

theorem rangesRowBytes_lt (hown : own.Bounded) (hp : p.Bounded) : rangesRowBytes own p < 2 ^ 64 := by
  have := hown.toNat_le
  have := hp.toNat_le
  unfold rangesRowBytes
  omega

theorem RowsOf.pos (h : RowsOf w size) : 0 < w := Nat.pos_of_dvd_of_pos h.2 h.1

/-- The division, and the two assertions behind it. -/
def rowCount (size width : U64) : Exec U64 := do
  let n ← divide size width
  kassert (n > 0)
  kassert (size % width == 0)
  return n

theorem rowCount_of_rows (hlt : w < 2 ^ 64) (h : RowsOf w size) :
    rowCount size (BitVec.ofNat 64 w) = .ok (size / BitVec.ofNat 64 w) ∧
      0 < (size / BitVec.ofNat 64 w).toNat := by
  have hpos : 0 < (size / BitVec.ofNat 64 w).toNat := by
    rw [BitVec.toNat_udiv, toNat_ofNat_of_lt hlt]
    exact Nat.div_pos (Nat.le_of_dvd h.1 h.2) h.pos
  have hwidth : ¬ BitVec.ofNat 64 w = 0 := by
    intro hzero
    have := congrArg BitVec.toNat hzero
    rw [toNat_ofNat_of_lt hlt] at this
    exact h.pos.ne' this
  have hmod : (size % BitVec.ofNat 64 w == 0) = true := by
    rw [beq_iff_eq, ← BitVec.toNat_inj, BitVec.toNat_umod, toNat_ofNat_of_lt hlt]
    exact Nat.mod_eq_zero_of_dvd h.2
  have hgt : size / BitVec.ofNat 64 w > 0 := BitVec.lt_def.mpr hpos
  refine ⟨?_, hpos⟩
  rw [rowCount, divide, if_neg hwidth, ok_bind, hmod, decide_eq_true hgt]
  rfl

end Widths

section Checks

variable {own p : Cells} {raw : ByteView}

theorem regCheck_some (hp : p.Bounded) : regCheck (some p) raw =
    rowCount raw.size (BitVec.ofNat 64 (regRowBytes p)) >>= fun n => .ok (p, n) := by
  have haddress : decide (p.address ≤ 3) = true := decide_eq_true hp.1
  have hsize : decide (p.size ≤ 2) = true := decide_eq_true hp.2
  rw [← regWidth_of_bounded hp]
  unfold regCheck rowCount
  simp only [derefParent, ok_bind, bind_assoc, pure_bind, haddress, hsize, kassert_true]
  rfl

theorem rangesCheck_some (hown : own.Bounded) (hp : p.Bounded) : rangesCheck (some p) own raw =
    rowCount raw.size (BitVec.ofNat 64 (rangesRowBytes own p)) >>= fun n => .ok (p, n) := by
  have haddress : decide (own.address ≤ 3) = true := decide_eq_true hown.1
  have hsize : decide (own.size ≤ 2) = true := decide_eq_true hown.2
  rw [← rangesWidth_of_bounded hown hp]
  unfold rangesCheck rowCount
  simp only [derefParent, ok_bind, bind_assoc, pure_bind, haddress, hsize, kassert_true]
  rfl

end Checks

section Rows

variable {m : Mem} {array ptr data j width : U64} {cells : U32} {n : Nat}

end Rows

section Turns

variable (m : Mem) (hhdmBase : U64) (answers : Answers)

/-- What the language leaves undefined, and reading through the null parent. -/
def Undefined {α : Type} (parent : Option Cells) (x : Exec α) : Prop :=
  x = .error .divByZero ∨ x = .error .unreachable ∨ (parent = none ∧ x = .error .nullDeref)

namespace Turn

variable (turn : Turn)

end Turn

variable {m hhdmBase answers} {parent : Option Cells} {own p : Cells} {bump : Bump.State}
  {prop : Entry} {turn : Turn}

end Turns

section Pass

variable (m : Mem) (hhdmBase : U64) (answers : Answers) (properties : List Entry)
  (children : Nodes) (bump : Bump.State)

/-- The turns that the pass over a whole tree gets to. -/
def Reached (turn : Turn) : Prop :=
  Reaches m hhdmBase answers turn none (.node ⟨2, 1⟩ properties children .none) bump

variable {m hhdmBase answers properties children bump}

end Pass

section OneReg

variable {hhdmBase : U64} {answers : Answers} {cells : Cells} {bump : Bump.State}

end OneReg

end Octiron.DeviceTree
