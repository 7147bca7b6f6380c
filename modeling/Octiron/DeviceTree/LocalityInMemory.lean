import Octiron.DeviceTree.ContentInMemory
import Octiron.DeviceTree.Locality

/-! Two properties with the same name and value, in two trees in memory: when what is read back
from their records and arrays is the same. -/
namespace Octiron.DeviceTree.InMemory

open Lib.Word Lib.ByteMemory Exec Pmm

/-- A property is one of its node's. -/
theorem Located.of_all {up u node prop : U64} {places : Places} {nodes : Nodes} {entry : Entry}
    {p : Entry → Prop} (h : Located up places nodes u node prop entry)
    (hall : nodes.All fun _ entries => ∀ entry ∈ entries, p entry) : p entry := by
  induction h with
  | here hmem => exact hall.1 _ (List.of_mem_zip hmem).2
  | child _ ih => exact ih hall.2.1
  | sibling _ ih => exact ih hall.2.2

/-- A property of a tree in memory that the pass gets through without error, with the bytes of
its name and of its value, and the cell counts that its node and the parent have in the end. -/
structure Occurrence (parent : Option Cells) (own : Cells) (name value : List U8) where
  input : PassInput
  err : Error
  heap' : Heap
  up : U64
  node : U64
  prop : U64
  nameView : StrView
  raw : ByteView
  completed : input.run = .ok (err, heap')
  noError : err.isErr = false
  located : Located 0 input.places input.nodes up node prop (Entry.ofRaw nameView raw)
  parentCounts : countsAt heap'.mem up = parent
  ownCounts : cellsAt heap'.mem node = own
  name_denotes : Denotes input.heap.mem nameView.data nameView.size name
  name_length : name.length < 2 ^ 64
  value_denotes : Denotes input.heap.mem raw.data raw.size value
  value_length : value.length < 2 ^ 64

namespace Occurrence

variable {parent : Option Cells} {own : Cells} {name value : List U8}
  (x y : Occurrence parent own name value)

/-- What is read back from the memory that the pass leaves. -/
def content : Option Content := contentAt x.heap'.mem own parent (value.count 0 + 1) x.prop

/-- No store of the pass leaves its block onto something that is still needed: the records, the
blob, the allocator's headers, and the arrays of the property itself. -/
structure Undisturbed : Prop where
  clear : x.input.Clear
  left : ArraysLeft x.input.hhdmBase x.input.answers x.prop x.input.turns

variable {x y}

/-- It is what the pass on the tree has decoded. -/
theorem Undisturbed.decoded (h : x.Undisturbed) :
    ∃ a : DeviceTree.Occurrence parent own name value,
      a.memory = x.input.heap.mem ∧ a.raw = x.raw ∧ x.content = some a.content := by
  obtain ⟨⟨err, nodes', bump'⟩, hideal, herr, hdone⟩ :=
    (x.input.run_lockstep h.clear).ok_right x.completed
  obtain rfl : err = x.err := herr
  obtain ⟨hsimulates, -, hnodes, htraced⟩ := hdone x.noError
  obtain ⟨entry', hoccurs, ⟨next, hrecord⟩, harrays⟩ :=
    x.located.left hideal x.noError hnodes (if_pos rfl)
  have hheld := harrays (htraced.holds h.clear h.left)
  rw [x.parentCounts, x.ownCounts] at hoccurs hheld
  obtain ⟨-, k, hreadable⟩ := x.located.of_all x.input.readable
  have hrewritten := rewriteNodes_rewritten hideal x.noError hoccurs
  have hcount : countStrings x.input.heap.mem x.raw = value.count 0 := by
    rw [countStrings]
    exact congrArg (List.count 0)
      (Denotes.bytes (s := StrView.ofByteView x.raw) x.value_denotes x.value_length)
  refine ⟨⟨x.input.heap.mem, x.input.hhdmBase, x.input.answers, x.input.bump, x.input.properties,
    x.input.children, x.err, nodes', bump', x.nameView, x.raw, entry', hideal, x.noError, hoccurs,
    x.name_denotes, x.name_length, x.value_denotes, x.value_length⟩, rfl, rfl, ?_⟩
  have hcontent := contentAt_eq hrecord hrewritten hreadable hsimulates.agrees hheld
  rwa [hcount] at hcontent

/-- Where the stores of both passes stay clear, the same is read back from both trees exactly
when what the decoders use besides the value is the same. -/
theorem readBack_eq_iff (hx : x.Undisturbed) (hy : y.Undisturbed) :
    x.content = y.content ↔
      DecodesLocally parent own name value x.input.heap.mem x.raw y.input.heap.mem y.raw := by
  obtain ⟨a, hmemory, hraw, hcontent⟩ := hx.decoded
  obtain ⟨b, hmemory', hraw', hcontent'⟩ := hy.decoded
  rw [hcontent, hcontent', Option.some_inj, a.content_eq_iff b, hmemory, hmemory', hraw, hraw']

end Occurrence

section Checks

variable (hhdmBase : U64) (answers : Answers) (prop : U64)

/-- `ArraysLeft`, as a computation. -/
def arraysLeft : List PlacedTurn → Bool
  | [] => true
  | turn :: rest =>
    (decide (turn.place ≠ prop) ||
      match place hhdmBase answers turn.bump turn.blocks with
      | .error _ => true
      | .ok (arrays, _) => decide (arrays.Pairwise fun a b => clear a b = true) &&
        rest.all fun later => clearBlocks hhdmBase answers arrays later.bump later.blocks) &&
      arraysLeft rest

variable {hhdmBase answers prop}

theorem arraysLeft_of_check {turns : List PlacedTurn}
    (h : arraysLeft hhdmBase answers prop turns = true) : ArraysLeft hhdmBase answers prop turns := by
  induction turns with
  | nil => trivial
  | cons turn rest ih =>
    rw [arraysLeft, Bool.and_eq_true, Bool.or_eq_true, decide_eq_true_eq] at h
    obtain ⟨hturn, hrest⟩ := h
    refine ⟨fun hplace arrays bump' hserved => ?_, ih hrest⟩
    rcases hturn with hother | hturn
    · exact absurd hplace hother
    rw [hserved, Bool.and_eq_true, decide_eq_true_eq] at hturn
    exact ⟨hturn.1.imp apart_of_clear,
      fun later hlater => spared_of_clear (List.all_eq_true.mp hturn.2 later hlater)⟩

variable {parent : Option Cells} {own : Cells} {name value : List U8} {nameView : StrView}
  {raw : ByteView} {up node : U64} {input : PassInput} {err : Error} {nodes' : Nodes}
  {bump' : Bump.State}

/-- Where the pass on the tree completes, the property occurs in memory. -/
theorem exists_occurrence (hclear : input.Clear)
    (hideal : DeviceTree.recursivePropertyRewrite input.heap.mem input.hhdmBase input.answers
      input.properties input.children input.bump = .ok (err, nodes', bump'))
    (hok : err.isErr = false)
    (hcounts : ∀ mem, NodesAt mem 0 input.places nodes' →
      countsAt mem up = parent ∧ cellsAt mem node = own)
    (hlocated : Located 0 input.places input.nodes up node prop (Entry.ofRaw nameView raw))
    (hleft : ArraysLeft input.hhdmBase input.answers prop input.turns)
    (hname : Denotes input.heap.mem nameView.data nameView.size name) (hnameLength : name.length < 2 ^ 64)
    (hvalue : Denotes input.heap.mem raw.data raw.size value) (hvalueLength : value.length < 2 ^ 64) :
    ∃ x : Occurrence parent own name value, x.input = input ∧ x.raw = raw ∧ x.Undisturbed := by
  obtain ⟨⟨err', h'⟩, hrun, herr, hdone⟩ := (input.run_lockstep hclear).ok hideal
  obtain rfl : err = err' := herr
  obtain ⟨hparent, hown⟩ := hcounts h'.mem (hdone hok).nodes
  exact ⟨⟨input, err, h', up, node, prop, nameView, raw, hrun, hok, hlocated, hparent, hown, hname,
    hnameLength, hvalue, hvalueLength⟩, rfl, rfl, hclear, hleft⟩

end Checks

section Followed

/-- A child of the root with a `phandle` of one byte and with a `reg`. -/
def followedPlaces : Places := .node 0x2000 [] (.node 0x3000 [0x4000, 0x4100] .none .none) .none

def followedPhandle : Entry := Entry.ofRaw ⟨0x10000, 7⟩ ⟨0x10020, 1⟩

def followedReg : Entry := Entry.ofRaw ⟨0x10010, 3⟩ ⟨0x10030, 12⟩

def followedChildren : Nodes := .node ⟨0, 0⟩ [followedPhandle, followedReg] .none .none

/-- The byte behind both values is one or zero. -/
def followedHeap (b : Bool) : Heap where
  mem := ofPieces ([(0x10000, literal "phandle"), (0x10010, literal "reg"),
      (0x10020, [0x12, BitVec.ofNat 8 b.toNat]),
      (0x10030, encodePair ⟨2, 1⟩ (5, 7) ++ [BitVec.ofNat 8 b.toNat])] ++
    treePieces 0 followedPlaces (.node ⟨2, 1⟩ [] followedChildren .none))

theorem followed_checks (b : Bool) : PassChecks (followedHeap b) followedPlaces
    (.node ⟨2, 1⟩ [] followedChildren .none) (0x10000, 0x60) where
  tree := by cases b <;> decide +kernel
  distinct := by decide +kernel
  apart := by decide +kernel
  header := by cases b <;> decide +kernel
  readable := ⟨nofun, ⟨by cases b <;> decide +kernel, trivial, trivial⟩, trivial⟩

def followedTree (b : Bool) : PassInput :=
  (followed_checks b).input 0xffffffc000000000 Bump.spacedPages

theorem followed_clear (b : Bool) : (followedTree b).Clear :=
  (followedTree b).clear_of_checks (by cases b <;> decide +kernel)

/-- The pass ends without error and leaves the counts as they were. -/
def followedResult : Exec (Error × Nodes × Bump.State) → Bool
  | .ok (err, .node cells [] (.node cells' _ .none .none) .none, _) =>
    decide (err = .empty ∧ cells = ⟨2, 1⟩ ∧ cells' = ⟨0, 0⟩)
  | _ => false

theorem followed_completes (b : Bool) : ∃ entries bump',
    DeviceTree.recursivePropertyRewrite (followedTree b).heap.mem (followedTree b).hhdmBase
      (followedTree b).answers (followedTree b).properties (followedTree b).children
      (followedTree b).bump =
    .ok (.empty, .node ⟨2, 1⟩ [] (.node ⟨0, 0⟩ entries .none .none) .none, bump') := by
  have hok : followedResult (DeviceTree.recursivePropertyRewrite (followedTree b).heap.mem
      (followedTree b).hhdmBase (followedTree b).answers (followedTree b).properties
      (followedTree b).children (followedTree b).bump) = true := by cases b <;> decide +kernel
  unfold followedResult at hok
  split at hok
  · next err cells cells' entries bump' hresult =>
    obtain ⟨rfl, rfl, rfl⟩ := of_decide_eq_true hok
    exact ⟨_, _, hresult⟩
  · cases hok

theorem followed_counts {mem : Mem} {entries : List Entry}
    (h : NodesAt mem 0 followedPlaces (.node ⟨2, 1⟩ [] (.node ⟨0, 0⟩ entries .none .none) .none)) :
    countsAt mem 0x2000 = some ⟨2, 1⟩ ∧ cellsAt mem 0x3000 = ⟨0, 0⟩ := by
  obtain ⟨hroot, -, ⟨hchild, -⟩, -⟩ := h
  exact ⟨(if_neg hroot.notNull).trans (congrArg some hroot.cells), hchild.cells⟩

theorem exists_followedPhandle (b : Bool) :
    ∃ x : Occurrence (some ⟨2, 1⟩) ⟨0, 0⟩ (literal "phandle") [0x12],
      x.input = followedTree b ∧ x.raw = ⟨0x10020, 1⟩ ∧ x.Undisturbed := by
  obtain ⟨entries, bump', hideal⟩ := followed_completes b
  exact exists_occurrence (followed_clear b) hideal rfl (fun mem h => followed_counts h)
    (.child (.here List.mem_cons_self))
    (arraysLeft_of_check (by cases b <;> decide +kernel))
    ⟨by decide, by cases b <;> decide +kernel⟩ (by decide)
    ⟨by decide, by cases b <;> decide +kernel⟩ (by decide)

theorem exists_followedReg (b : Bool) :
    ∃ x : Occurrence (some ⟨2, 1⟩) ⟨0, 0⟩ (literal "reg") (encodePair ⟨2, 1⟩ (5, 7)),
      x.input = followedTree b ∧ x.raw = ⟨0x10030, 12⟩ ∧ x.Undisturbed := by
  obtain ⟨entries, bump', hideal⟩ := followed_completes b
  exact exists_occurrence (followed_clear b) hideal rfl (fun mem h => followed_counts h)
    (.child (.here (List.mem_cons_of_mem _ List.mem_cons_self)))
    (arraysLeft_of_check (by cases b <;> decide +kernel))
    ⟨by decide, by cases b <;> decide +kernel⟩ (by decide)
    ⟨by decide +kernel, by cases b <;> decide +kernel⟩ (by decide +kernel)

/-- The short value is read with three bytes behind it. -/
theorem followedPhandle_differs : ¬ DecodesLocally (some ⟨2, 1⟩) ⟨0, 0⟩ (literal "phandle") [0x12]
    (followedTree true).heap.mem ⟨0x10020, 1⟩ (followedTree false).heap.mem ⟨0x10020, 1⟩ := by
  rw [DecodesLocally, if_neg (by decide)]
  intro hsame
  exact absurd (hsame 0 (by decide)) (by decide +kernel)

theorem followedReg_same : DecodesLocally (some ⟨2, 1⟩) ⟨0, 0⟩ (literal "reg")
    (encodePair ⟨2, 1⟩ (5, 7)) (followedTree true).heap.mem ⟨0x10030, 12⟩
    (followedTree false).heap.mem ⟨0x10030, 12⟩ := by
  have hnone : overread (keywordOfBytes (literal "reg")) (some ⟨2, 1⟩) ⟨0, 0⟩
      (encodePair ⟨2, 1⟩ (5, 7)).length = 0 := by decide +kernel
  rw [DecodesLocally, if_neg (by decide), hnone]
  exact nofun

theorem readBack_eq_iff_followed :
    (∃ x y : Occurrence (some ⟨2, 1⟩) ⟨0, 0⟩ (literal "phandle") [0x12],
      x.input = followedTree true ∧ y.input = followedTree false ∧ x.content ≠ y.content) ∧
    ∃ x y : Occurrence (some ⟨2, 1⟩) ⟨0, 0⟩ (literal "reg") (encodePair ⟨2, 1⟩ (5, 7)),
      x.input = followedTree true ∧ y.input = followedTree false ∧ x.content = y.content := by
  constructor
  · obtain ⟨x, hinput, hraw, hx⟩ := exists_followedPhandle true
    obtain ⟨y, hinput', hraw', hy⟩ := exists_followedPhandle false
    have hiff := Occurrence.readBack_eq_iff hx hy
    rw [hinput, hraw, hinput', hraw'] at hiff
    exact ⟨x, y, hinput, hinput', fun heq => followedPhandle_differs (hiff.mp heq)⟩
  · obtain ⟨x, hinput, hraw, hx⟩ := exists_followedReg true
    obtain ⟨y, hinput', hraw', hy⟩ := exists_followedReg false
    have hiff := Occurrence.readBack_eq_iff hx hy
    rw [hinput, hraw, hinput', hraw'] at hiff
    exact ⟨x, y, hinput, hinput', hiff.mpr followedReg_same⟩

/-- A `phandle` of one byte also says what the bytes behind it are. -/
theorem not_readBack_eq_followed :
    ¬ ∀ (parent : Option Cells) (own : Cells) (name value : List U8)
      (x y : Occurrence parent own name value), x.content = y.content := by
  intro hall
  obtain ⟨x, hinput, hraw, hx⟩ := exists_followedPhandle true
  obtain ⟨y, hinput', hraw', hy⟩ := exists_followedPhandle false
  obtain ⟨a, hmemory, hread, hcontent⟩ := hx.decoded
  obtain ⟨b, hmemory', hread', hcontent'⟩ := hy.decoded
  have hsame := hall _ _ _ _ x y
  rw [hcontent, hcontent', Option.some_inj, a.content_eq_iff b, hmemory, hmemory', hread, hread',
    hinput, hinput', hraw, hraw'] at hsame
  exact followedPhandle_differs hsame

end Followed

end Octiron.DeviceTree.InMemory
