import Octiron.DeviceTree.TreeRecords
import Octiron.DeviceTree.Turns

/-! The turns of a pass one after the other: the blocks that each asks for, what it does to
memory, and which arrays are still there when the last of them is done. -/
namespace Octiron.DeviceTree.InMemory

open Lib.Word Lib.ByteMemory Exec Pmm
open Bump.InMemory (Touches)

/-- A turn over the property at `place`: the blocks it asks for, in this state of the
allocator, and what its arrays are to say from then on. -/
structure PlacedTurn where
  place : U64
  bump : Bump.State
  blocks : List Block
  holds : Mem → Prop

/-- The turns that come after a call, if it returns. -/
def turnsAfter {α : Type} (call : Exec α) (rest : α → List PlacedTurn) : List PlacedTurn :=
  match call with
  | .ok result => rest result
  | .error _ => []

@[simp] theorem turnsAfter_ok {α : Type} (result : α) (rest : α → List PlacedTurn) :
    turnsAfter (.ok result) rest = rest result := rfl

/-- The first lap leaves an array of strings. -/
def FirstHeld (m : Mem) (entry : Entry) (mem : Mem) : Prop :=
  keywordOf m entry.name = some .compatible → StringsHeld entry mem

/-- The second leaves the other arrays. -/
def SecondHeld (m : Mem) (parent : Option Cells) (own : Cells) (entry : Entry) (mem : Mem) : Prop :=
  keywordOf m entry.name ≠ some .compatible → ArraysHeld m parent own entry mem

section Order

variable (m : Mem) (hhdmBase : U64) (answers : Answers)

def firstTurn (place : U64) (prop : Entry) (cells : Cells) (bump : Bump.State) : PlacedTurn where
  place := place
  bump := bump
  blocks := firstBlocks m prop
  holds mem := ∀ result, DeviceTree.rewriteFirst m hhdmBase answers cells bump prop = .ok result →
    FirstHeld m result.2.1 mem

def firstTurns : List U64 → List Entry → Cells → Bump.State → List PlacedTurn
  | place :: places, prop :: rest, cells, bump =>
    firstTurn m hhdmBase answers place prop cells bump ::
      turnsAfter (DeviceTree.rewriteFirst m hhdmBase answers cells bump prop)
        fun (err, _, cells, bump) => if err.isErr then [] else firstTurns places rest cells bump
  | _, _, _, _ => []

def secondTurn (parent : Option Cells) (cells : Cells) (place : U64) (prop : Entry)
    (bump : Bump.State) : PlacedTurn where
  place := place
  bump := bump
  blocks := secondBlocks m parent cells prop
  holds mem := ∀ result, DeviceTree.rewriteSecond m hhdmBase answers parent cells bump prop =
    .ok result → SecondHeld m parent cells result.1 mem

def secondTurns (parent : Option Cells) (cells : Cells) :
    List U64 → List Entry → Bump.State → List PlacedTurn
  | place :: places, prop :: rest, bump =>
    secondTurn m hhdmBase answers parent cells place prop bump ::
      turnsAfter (DeviceTree.rewriteSecond m hhdmBase answers parent cells bump prop)
        fun (_, bump) => secondTurns parent cells places rest bump
  | _, _, _ => []

/-- Both laps of a node, and then what is below it. -/
def nodeTurns (parent : Option Cells) (below : Cells → Bump.State → List PlacedTurn)
    (places : List U64) (properties : List Entry) (cells : Cells) (bump : Bump.State) :
    List PlacedTurn :=
  firstTurns m hhdmBase answers places properties cells bump ++
    turnsAfter (firstLap m hhdmBase answers properties cells bump)
      fun (err, properties, cells, bump) => if err.isErr then [] else
        secondTurns m hhdmBase answers parent cells places properties bump ++
          turnsAfter (secondLap m hhdmBase answers parent cells properties bump)
            fun (_, bump) => below cells bump

/-- A node, and then its next sibling. -/
def nodesTurns : Option Cells → Places → Nodes → Bump.State → List PlacedTurn
  | parent, .node _ places childPlaces nextPlaces, .node cells properties children next, bump =>
    nodeTurns m hhdmBase answers parent
        (fun cells bump => nodesTurns (some cells) childPlaces children bump)
        places properties cells bump ++
      turnsAfter (rewriteNode m hhdmBase answers parent cells properties children bump)
        fun (err, _, _, _, bump) => if err.isErr then [] else nodesTurns parent nextPlaces next bump
  | _, _, _, _ => []

end Order

section Completed

variable {m : Mem} {hhdmBase : U64} {answers : Answers} {parent : Option Cells}
  {below : Cells → Bump.State → List PlacedTurn} {place : U64} {places : List U64}
  {properties properties' : List Entry} {cells own : Cells} {bump bump' : Bump.State} {err : Error}

theorem firstTurns_ok {entry entry' : Entry} {rest : List Entry}
    (h : DeviceTree.rewriteFirst m hhdmBase answers cells bump entry = .ok (err, entry', own, bump'))
    (hok : ¬ err.isErr = true) :
    firstTurns m hhdmBase answers (place :: places) (entry :: rest) cells bump =
      firstTurn m hhdmBase answers place entry cells bump ::
        firstTurns m hhdmBase answers places rest own bump' := by
  rw [firstTurns, h, turnsAfter_ok]
  exact congrArg _ (if_neg hok)

theorem secondTurns_ok {entry entry' : Entry} {rest : List Entry}
    (h : DeviceTree.rewriteSecond m hhdmBase answers parent cells bump entry = .ok (entry', bump')) :
    secondTurns m hhdmBase answers parent cells (place :: places) (entry :: rest) bump =
      secondTurn m hhdmBase answers parent cells place entry bump ::
        secondTurns m hhdmBase answers parent cells places rest bump' := by
  rw [secondTurns, h, turnsAfter_ok]

/-- After a first lap without error the second follows. -/
theorem nodeTurns_ok
    (h : firstLap m hhdmBase answers properties cells bump = .ok (err, properties', own, bump'))
    (hok : err.isErr = false) :
    nodeTurns m hhdmBase answers parent below places properties cells bump =
      firstTurns m hhdmBase answers places properties cells bump ++
        (secondTurns m hhdmBase answers parent own places properties' bump' ++
          turnsAfter (secondLap m hhdmBase answers parent own properties' bump')
            fun lap => below own lap.2) := by
  rw [nodeTurns, h, turnsAfter_ok]
  exact congrArg _ (if_neg (by rw [hok]; decide))

/-- And after a node without error its next sibling. -/
theorem nodesTurns_ok {children children' next : Nodes} {childPlaces nextPlaces : Places}
    (h : rewriteNode m hhdmBase answers parent cells properties children bump =
      .ok (err, own, properties', children', bump')) (hok : err.isErr = false) :
    nodesTurns m hhdmBase answers parent (.node place places childPlaces nextPlaces)
        (.node cells properties children next) bump =
      nodeTurns m hhdmBase answers parent
          (fun cells bump => nodesTurns m hhdmBase answers (some cells) childPlaces children bump)
          places properties cells bump ++
        nodesTurns m hhdmBase answers parent nextPlaces next bump' := by
  rw [nodesTurns, h, turnsAfter_ok]
  exact congrArg _ (if_neg (by rw [hok]; decide))

end Completed

section Runs

variable (hhdmBase : U64) (answers : Answers)

/-- What a turn does to memory: of whatever its stores stay clear of, it changes at most the
records; and where its arrays do not overlap, they say what they are to say for as long as
they are left alone. -/
structure TurnRun (keep : U64 → Prop) (turn : PlacedTurn) (arrays : List (U64 × Nat))
    (mem mem' : Mem) : Prop where
  changes : ∀ extra, Spared hhdmBase answers extra turn.bump turn.blocks →
    (∀ x, Within x turn.bump.currentRegion 24 → ¬ extra x) →
      ChangesOnly (fun x => ¬ extra x ∨ keep x) mem mem'
  holds : (arrays.Pairwise fun a b => Apart a.1 a.2 b.1 b.2) →
    ∀ later, AgreeOn (Covered arrays) mem' later → turn.holds later

/-- One turn after the other. -/
inductive Traced (keep : U64 → Prop) :
    List PlacedTurn → Bump.State → Mem → Bump.State → Mem → Prop where
  | nil (bump : Bump.State) (mem : Mem) : Traced keep [] bump mem bump mem
  | cons {turn : PlacedTurn} {turns : List PlacedTurn} {arrays : List (U64 × Nat)}
      {bump bump' : Bump.State} {mem mem₁ mem' : Mem}
      (hplace : place hhdmBase answers turn.bump turn.blocks = .ok (arrays, bump))
      (hrun : TurnRun hhdmBase answers keep turn arrays mem mem₁)
      (hrest : Traced keep turns bump mem₁ bump' mem') :
      Traced keep (turn :: turns) turn.bump mem bump' mem'

/-- The arrays of the property at `prop` are apart, and no later turn stores there. -/
def ArraysLeft (prop : U64) : List PlacedTurn → Prop
  | [] => True
  | turn :: rest =>
    (turn.place = prop → ∀ arrays bump',
      place hhdmBase answers turn.bump turn.blocks = .ok (arrays, bump') →
        (arrays.Pairwise fun a b => Apart a.1 a.2 b.1 b.2) ∧
          ∀ later ∈ rest, Spared hhdmBase answers (Covered arrays) later.bump later.blocks) ∧
      ArraysLeft prop rest

variable {hhdmBase answers} {keep extra : U64 → Prop} {bump bump₁ bump' : Bump.State}
  {turns turns' : List PlacedTurn}
  {mem mem₁ mem' : Mem} {prop : U64}

theorem Traced.append (h : Traced hhdmBase answers keep turns bump mem bump₁ mem₁)
    (h' : Traced hhdmBase answers keep turns' bump₁ mem₁ bump' mem') :
    Traced hhdmBase answers keep (turns ++ turns') bump mem bump' mem' := by
  induction h with
  | nil => exact h'
  | cons hplace hrun _ ih => exact .cons hplace hrun (ih h')

/-- What no turn stores in stays as it is. -/
theorem Traced.agree (h : Traced hhdmBase answers keep turns bump mem bump' mem')
    (hspared : ∀ turn ∈ turns, Spared hhdmBase answers extra turn.bump turn.blocks)
    (hheader : ∀ x, Within x bump.currentRegion 24 → ¬ extra x) (hapart : ∀ x, extra x → ¬ keep x) :
    AgreeOn extra mem mem' := by
  induction h with
  | nil => exact .refl extra _
  | cons hplace hrun _ ih =>
    have hturn := hspared _ List.mem_cons_self
    have hfirst : AgreeOn extra _ _ := (hrun.changes extra hturn hheader).agreeOn
      fun x hx hextra => hx.elim (fun hnot => hnot hextra) (hapart x hextra)
    exact hfirst.trans (ih (fun turn ht => hspared turn (List.mem_cons_of_mem _ ht))
      (hturn.requests.header hplace hheader))

/-- In the end the arrays of a property that are left alone say what they are to say. -/
theorem Traced.holds (h : Traced hhdmBase answers keep turns bump mem bump' mem')
    (hspared : ∀ turn ∈ turns, Spared hhdmBase answers keep turn.bump turn.blocks)
    (hleft : ArraysLeft hhdmBase answers prop turns) :
    ∀ turn ∈ turns, turn.place = prop → turn.holds mem' := by
  induction h with
  | nil => exact fun _ hmem => absurd hmem List.not_mem_nil
  | cons hplace hrun hrest ih =>
    obtain ⟨hhere, hleft⟩ := hleft
    intro turn hmem hprop
    rcases List.mem_cons.mp hmem with rfl | hmem
    · obtain ⟨hpairwise, hlater⟩ := hhere hprop _ _ hplace
      have hmiss := (hspared _ List.mem_cons_self).elements _ _ hplace
      refine hrun.holds hpairwise _ (hrest.agree hlater ?_ ?_)
      · rintro x hx ⟨a, ha, hin⟩
        exact (hmiss a ha x hin).2 hx
      · rintro x ⟨a, ha, hin⟩
        exact (hmiss a ha x hin).1
    · exact ih (fun turn ht => hspared turn (List.mem_cons_of_mem _ ht)) hleft turn hmem hprop

end Runs

end Octiron.DeviceTree.InMemory
