import Octiron.DeviceTree.CellCounts
import Octiron.DeviceTree.LapsInMemory

/-! The pass over the whole tree in memory, in lockstep with the pass over the nodes: they
return alike, and memory holds the tree that the pass leaves. -/
namespace Octiron.DeviceTree.InMemory

open Lib.Word Lib.ByteMemory Lib.Lockstep Exec Pmm

/-- The records of a node, of its properties and of all below it. -/
def nodeSpans (place : U64) (props : List U64) (childPlaces : Places) : List (U64 × Nat) :=
  (place, 56) :: (propertySpans props ++ childPlaces.spans)

section Nodes

variable {keep reads : U64 → Prop} {m : Mem} {h : Heap} {bump : Bump.State} {node up next : U64}
  {props : List U64} {entries : List Entry} {own : Cells} {parent : Option Cells} {hhdmBase : U64}
  {answers : Answers} {turns depth : Nat} {children nodes : Nodes} {childPlaces places : Places}

/-- What the pass over a node leaves, unless it ends with an error. -/
structure NodeDone (keep reads : U64 → Prop) (m : Mem) (hhdmBase : U64) (answers : Answers)
    (h : Heap) (node up next : U64) (props : List U64) (childPlaces : Places)
    (passTurns : List PlacedTurn) (bump : Bump.State)
    (a : Error × Cells × List Entry × Nodes × Bump.State) (b : Heap) : Prop where
  empty : a.1 = .empty
  simulates : Simulates keep reads m b a.2.2.2.2
  changes : ChangesOnly (fun x => ¬ keep x ∨ Covered (nodeSpans node props childPlaces) x)
    h.mem b.mem
  record : NodeAt b.mem node up (props.headD 0) childPlaces.head next a.2.1
  properties : PropertiesAt b.mem props a.2.2.1
  children : NodesAt b.mem node childPlaces a.2.2.2.1
  traced : Traced hhdmBase answers keep passTurns bump h.mem a.2.2.2.2 b.mem

/-- And what it leaves of a list of siblings. -/
structure NodesDone (keep reads : U64 → Prop) (m : Mem) (hhdmBase : U64) (answers : Answers)
    (h : Heap) (up : U64) (places : Places) (passTurns : List PlacedTurn) (bump : Bump.State)
    (a : Error × Nodes × Bump.State) (b : Heap) : Prop where
  simulates : Simulates keep reads m b a.2.2
  changes : ChangesOnly (fun x => ¬ keep x ∨ Covered places.spans x) h.mem b.mem
  nodes : NodesAt b.mem up places a.2.1
  traced : Traced hhdmBase answers keep passTurns bump h.mem a.2.2 b.mem

/-- The call for one node, when the loop over the children does what it should. -/
theorem rewriteNode_lockstep (hsim : Simulates keep reads m h bump) (hreads : ∀ x, reads x → keep x)
    (hnode : NodeAt h.mem node up (props.headD 0) childPlaces.head next own)
    (hprops : PropertiesAt h.mem props entries) (hbelow : NodesAt h.mem node childPlaces children)
    (hrecords : RecordsKept keep reads (nodeSpans node props childPlaces))
    (hparent : ParentKept keep h.mem up parent)
    (hbeside : parent ≠ none → ∀ x, Within x up 56 → ¬ Covered (nodeSpans node props childPlaces) x)
    (hreadable : ∀ entry ∈ entries, EntryReadable reads m entry)
    (hspared : ∀ turn ∈ nodeTurns m hhdmBase answers parent
        (fun cells bump => nodesTurns m hhdmBase answers (some cells) childPlaces children bump)
        props entries own bump,
      Spared hhdmBase answers keep turn.bump turn.blocks)
    (hturns : entries.length < turns)
    (hchildren : ∀ (h' : Heap) (bump' : Bump.State) (cells : Cells), Simulates keep reads m h' bump' →
      NodesAt h'.mem node childPlaces children → ParentKept keep h'.mem node (some cells) →
      (∀ turn ∈ nodesTurns m hhdmBase answers (some cells) childPlaces children bump',
        Spared hhdmBase answers keep turn.bump turn.blocks) →
      Related (fun a b => a.1 = b.1 ∧ (a.1.isErr = false →
          NodesDone keep reads m hhdmBase answers h' node childPlaces
            (nodesTurns m hhdmBase answers (some cells) childPlaces children bump') bump' a b.2))
        (rewriteNodes m hhdmBase answers (some cells) children bump')
        (childLoop (recursivePropertyRewrite hhdmBase answers turns depth) turns childPlaces.head
          .empty h')) :
    Related (fun a b => a.1 = b.1 ∧ (a.1.isErr = false →
        NodeDone keep reads m hhdmBase answers h node up next props childPlaces
          (nodeTurns m hhdmBase answers parent
            (fun cells bump => nodesTurns m hhdmBase answers (some cells) childPlaces children bump)
            props entries own bump) bump a b.2))
      (rewriteNode m hhdmBase answers parent own entries children bump)
      (recursivePropertyRewrite hhdmBase answers turns (depth + 1) node h) := by
  have hlap : RecordsKept keep reads ((node, 56) :: propertySpans props) :=
    hrecords.sublist ((List.sublist_append_left _ _).cons_cons _)
  have hkept : ∀ x, Covered (nodeSpans node props childPlaces) x → keep x := fun x hx =>
    (hrecords.kept x hx).1
  have hrecord : ∀ x, Within x node 56 → ¬ Covered (propertySpans props ++ childPlaces.spans) x :=
    fun x hx => hrecords.head hx
  have hapart : ∀ x, Covered (propertySpans props) x → ¬ Covered childPlaces.spans x := fun x hx =>
    (hrecords.sublist (List.sublist_cons_self _ _)).apart hx
  have hcells : ∀ x, Within x (node + 16) 8 → Within x node 56 := fun x hx =>
    within_field hx (by decide) (by decide)
  rw [rewriteNode, recursivePropertyRewrite, hnode.properties]
  refine (firstLoop_lockstep hsim hreads hprops hnode.cells hlap hreadable
    (fun turn ht => hspared turn (List.mem_append_left _ ht)) hturns).left_eq.bind ?_
  rintro ⟨err, entries₁, own₁, bump₁⟩ ⟨err', h₁⟩ ⟨⟨herr, hfirst⟩, hideal₁⟩
  obtain rfl : err = err' := herr
  dsimp only
  split
  · next herr => exact ⟨rfl, fun hok => absurd herr (by rw [hok]; decide)⟩
  next hnot =>
  have hok : err.isErr = false := Bool.eq_false_of_not_eq_true hnot
  obtain ⟨hsim₁, hchanges₁, hprops₁, hcells₁, htraced₁⟩ := hfirst hok
  rw [nodeTurns_ok hideal₁ hok] at hspared ⊢
  -- what is neither a cell count nor part of a property is as before
  have hsame₁ : ∀ x, keep x → ¬ Within x (node + 16) 8 → ¬ Covered (propertySpans props) x →
      h₁.mem x = h.mem x := fun x hx hcell hprop =>
    hchanges₁.apply (not_or_intro (not_not_intro hx) fun hin => (covered_cons.mp hin).elim hcell hprop)
  have hnode₁ : NodeAt h₁.mem node up (props.headD 0) childPlaces.head next own₁ :=
    hnode.setCells (fun x hx hcount => hsame₁ x (hkept x (covered_cons.mpr (.inl hx))) hcount
      fun hin => hrecord x hx (covered_append.mpr (.inl hin))) hcells₁
  have hbelow₁ : NodesAt h₁.mem node childPlaces children := hbelow.congr fun x hx =>
    hsame₁ x (hkept x (covered_cons.mpr (.inr (covered_append.mpr (.inr hx)))))
      (fun hcell => hrecord x (hcells x hcell) (covered_append.mpr (.inr hx)))
      fun hin => hapart x hin hx
  have hparent₁ : ParentKept keep h₁.mem up parent := hparent.congr fun hne x hx =>
    hsame₁ x (hparent.keeps hne x hx)
      (fun hcell => hbeside hne x hx (covered_cons.mpr (.inl (hcells x hcell))))
      fun hin => hbeside hne x hx (covered_cons.mpr (.inr (covered_append.mpr (.inl hin))))
  have hturns₁ : entries₁.length < turns := by
    rw [← hprops₁.length_eq, hprops.length_eq]
    exact hturns
  rw [hnode₁.properties]
  refine (secondLoop_lockstep hsim₁ hreads hprops₁ hcells₁ hnode₁.parent hparent₁
    (fun hne x hx hin => hbeside hne x hx
      (covered_cons.mpr (.inr (covered_append.mpr (.inl hin))))) hlap
    (firstLap_readable hideal₁ hok hreadable)
    (fun turn ht => hspared turn (List.mem_append_right _ (List.mem_append_left _ ht)))
    hturns₁).left_eq.bind ?_
  rintro ⟨entries₂, bump₂⟩ h₂ ⟨⟨hsim₂, hchanges₂, hprops₂, htraced₂⟩, hideal₂⟩
  dsimp only
  rw [hideal₂, turnsAfter_ok] at hspared ⊢
  dsimp only at hspared ⊢
  have hsame₂ : ∀ x, keep x → ¬ Covered (propertySpans props) x → h₂.mem x = h₁.mem x :=
    fun x hx hnot => hchanges₂.apply (not_or_intro (not_not_intro hx) hnot)
  have hnode₂ : NodeAt h₂.mem node up (props.headD 0) childPlaces.head next own₁ :=
    hnode₁.congr fun x hx => hsame₂ x (hkept x (covered_cons.mpr (.inl hx))) fun hin =>
      hrecord x hx (covered_append.mpr (.inl hin))
  have hbelow₂ : NodesAt h₂.mem node childPlaces children := hbelow₁.congr fun x hx =>
    hsame₂ x (hkept x (covered_cons.mpr (.inr (covered_append.mpr (.inr hx))))) fun hin =>
      hapart x hin hx
  have hparent₂ : ParentKept keep h₂.mem node (some own₁) :=
    ⟨fun hnone => absurd hnone (Option.some_ne_none own₁),
      fun p hp => ⟨hnode₂.notNull, hnode₂.cells.trans (Option.some.inj hp)⟩,
      fun _ x hx => hkept x (covered_cons.mpr (.inl hx))⟩
  rw [hnode₂.children]
  refine (hchildren h₂ bump₂ own₁ hsim₂ hbelow₂ hparent₂ fun turn ht => hspared turn
    (List.mem_append_right _ (List.mem_append_right _ ht))).left_eq.bind_left ?_
  rintro ⟨err, children', bump₃⟩ ⟨err', h₃⟩ ⟨⟨herr, hdone⟩, hideal₃⟩
  refine ⟨_, rfl, herr, fun hok => ?_⟩
  obtain ⟨hsim₃, hchanges₃, hnodes₃, htraced₃⟩ := hdone hok
  have hsame₃ : ∀ x, keep x → ¬ Covered childPlaces.spans x → h₃.mem x = h₂.mem x :=
    fun x hx hnot => hchanges₃.apply (not_or_intro (not_not_intro hx) hnot)
  refine ⟨rewriteNodes_ok hideal₃ hok, hsim₃, ?_, hnode₂.congr fun x hx => ?_,
    hprops₂.congr fun x hx => ?_, hnodes₃, htraced₁.append (htraced₂.append htraced₃)⟩
  · refine ((hchanges₁.mono fun x hx => ?_).trans (hchanges₂.mono fun x hx => ?_)).trans
      (hchanges₃.mono fun x hx => ?_)
    · refine hx.imp_right fun hin => ?_
      rcases covered_cons.mp hin with hcell | hprop
      · exact covered_cons.mpr (.inl (hcells x hcell))
      · exact covered_cons.mpr (.inr (covered_append.mpr (.inl hprop)))
    · exact hx.imp_right fun hin => covered_cons.mpr (.inr (covered_append.mpr (.inl hin)))
    · exact hx.imp_right fun hin => covered_cons.mpr (.inr (covered_append.mpr (.inr hin)))
  · exact hsame₃ x (hkept x (covered_cons.mpr (.inl hx))) fun hin =>
      hrecord x hx (covered_append.mpr (.inr hin))
  · exact hsame₃ x (hkept x (covered_cons.mpr (.inr (covered_append.mpr (.inl hx))))) (hapart x hx)

/-- The loop over a list of siblings. -/
theorem childLoop_lockstep {t : Nat} (hsim : Simulates keep reads m h bump)
    (hreads : ∀ x, reads x → keep x) (hnodes : NodesAt h.mem up places nodes)
    (hrecords : RecordsKept keep reads places.spans) (hparent : ParentKept keep h.mem up parent)
    (hbeside : parent ≠ none → ∀ x, Within x up 56 → ¬ Covered places.spans x)
    (hreadable : nodes.All fun _ entries => ∀ entry ∈ entries, EntryReadable reads m entry)
    (hspared : ∀ turn ∈ nodesTurns m hhdmBase answers parent places nodes bump,
      Spared hhdmBase answers keep turn.bump turn.blocks)
    (hturns : nodes.weight ≤ turns) (hdepth : nodes.weight ≤ depth) (ht : nodes.weight ≤ t) :
    Related (fun a b => a.1 = b.1 ∧ (a.1.isErr = false →
        NodesDone keep reads m hhdmBase answers h up places
          (nodesTurns m hhdmBase answers parent places nodes bump) bump a b.2))
      (rewriteNodes m hhdmBase answers parent nodes bump)
      (childLoop (recursivePropertyRewrite hhdmBase answers turns depth) t places.head .empty h) := by
  induction nodes generalizing h bump parent up places depth t with
  | none =>
    obtain ⟨t, rfl⟩ := Nat.exists_eq_add_one_of_ne_zero (Nat.ne_zero_of_lt ht)
    cases places with
    | node place props childPlaces nextPlaces => exact hnodes.elim
    | none => exact ⟨rfl, fun _ => ⟨hsim, .refl _ _, trivial, .nil _ _⟩⟩
  | node cells entries children beside ihChildren ihNext =>
    cases places with
    | none => exact hnodes.elim
    | node place props childPlaces nextPlaces =>
    obtain ⟨hnode, hprops, hbelow, hnext⟩ := hnodes
    obtain ⟨hhere, hreadBelow, hreadNext⟩ := hreadable
    rw [Nodes.weight] at hturns hdepth ht
    obtain ⟨depth, rfl⟩ := Nat.exists_eq_add_one_of_ne_zero (n := depth) (by omega)
    obtain ⟨t, rfl⟩ := Nat.exists_eq_add_one_of_ne_zero (n := t) (by omega)
    have hweight := beside.weight_pos
    have hweight' := children.weight_pos
    rw [Places.spans, ← List.append_assoc, ← List.cons_append] at hrecords hbeside
    change RecordsKept keep reads (nodeSpans place props childPlaces ++ nextPlaces.spans) at hrecords
    have hown : RecordsKept keep reads (nodeSpans place props childPlaces) :=
      hrecords.sublist (List.sublist_append_left _ _)
    have hrest : RecordsKept keep reads nextPlaces.spans :=
      hrecords.sublist (List.sublist_append_right _ _)
    have hkept : ∀ x, Covered (nodeSpans place props childPlaces) x → keep x := fun x hx =>
      (hown.kept x hx).1
    have hapart : ∀ x, Covered (nodeSpans place props childPlaces) x → ¬ Covered nextPlaces.spans x :=
      fun x hx => hrecords.apart hx
    rw [nodesTurns] at hspared ⊢
    rw [rewriteNodes_node, childLoop, Places.head, if_neg hnode.notNull]
    refine ((rewriteNode_lockstep hsim hreads hnode hprops hbelow hown hparent
      (fun hne x hx hin => hbeside hne x hx (covered_append.mpr (.inl hin))) hhere
      (fun turn ht => hspared turn (List.mem_append_left _ ht)) (by omega)
      fun h' bump' cells' hsim' hbelow' hparent' hspared' => ihChildren hsim' hbelow'
        (hown.sublist ((List.sublist_append_right _ _).trans (List.sublist_cons_self _ _))) hparent'
        (fun _ x hx hin => hown.head hx (covered_append.mpr (.inr hin))) hreadBelow hspared' (by omega)
        (by omega) (by omega)).left_eq).bind ?_
    rintro ⟨err, cells₁, entries₁, children₁, bump₁⟩ ⟨err', h₁⟩ ⟨⟨herr, hdone⟩, hideal⟩
    obtain rfl : err = err' := herr
    dsimp only
    split
    · next herr => exact ⟨rfl, fun hok => absurd herr (by rw [hok]; decide)⟩
    next hnot =>
    have hdone := hdone (Bool.eq_false_of_not_eq_true hnot)
    obtain rfl : err = .empty := hdone.empty
    rw [hideal, turnsAfter_ok] at hspared ⊢
    dsimp only at hspared ⊢
    rw [if_neg hnot] at hspared ⊢
    rw [hdone.record.nextSibling]
    have hsame₁ : ∀ x, keep x → ¬ Covered (nodeSpans place props childPlaces) x →
        h₁.mem x = h.mem x :=
      fun x hx hout => hdone.changes.apply (not_or_intro (not_not_intro hx) hout)
    have hnext₁ : NodesAt h₁.mem up nextPlaces beside := hnext.congr fun x hx =>
      hsame₁ x (hrest.kept x hx).1 fun hin => hapart x hin hx
    have hparent₁ : ParentKept keep h₁.mem up parent := hparent.congr fun hne x hx =>
      hsame₁ x (hparent.keeps hne x hx) fun hin => hbeside hne x hx (covered_append.mpr (.inl hin))
    refine (ihNext hdone.simulates hnext₁ hrest hparent₁
      (fun hne x hx hin => hbeside hne x hx (covered_append.mpr (.inr hin))) hreadNext
      (fun turn ht => hspared turn (List.mem_append_right _ ht)) (by omega) (by omega)
      (by omega)).bind_left ?_
    rintro ⟨err, beside₂, bump₂⟩ ⟨err', h₂⟩ ⟨herr, hrestDone⟩
    refine ⟨_, rfl, herr, fun hok => ?_⟩
    obtain ⟨hsim₂, hchanges₂, hnodes₂, htraced₂⟩ := hrestDone hok
    have hsame₂ : ∀ x, Covered (nodeSpans place props childPlaces) x → h₂.mem x = h₁.mem x :=
      fun x hx => hchanges₂.apply (not_or_intro (not_not_intro (hkept x hx)) (hapart x hx))
    refine ⟨hsim₂, ?_, ⟨hdone.record.congr fun x hx => ?_, hdone.properties.congr fun x hx => ?_,
      hdone.children.congr fun x hx => ?_, hnodes₂⟩, hdone.traced.append htraced₂⟩
    · rw [Places.spans, ← List.append_assoc, ← List.cons_append]
      refine (hdone.changes.mono fun x hx => ?_).trans (hchanges₂.mono fun x hx => ?_)
      · exact hx.imp_right fun hin => covered_append.mpr (.inl hin)
      · exact hx.imp_right fun hin => covered_append.mpr (.inr hin)
    · exact hsame₂ x (covered_cons.mpr (.inl hx))
    · exact hsame₂ x (covered_cons.mpr (.inr (covered_append.mpr (.inl hx))))
    · exact hsame₂ x (covered_cons.mpr (.inr (covered_append.mpr (.inr hx))))

/-- The call for the root, which has no parent and no sibling. -/
theorem rewriteTree_lockstep {cells : Cells} (hsim : Simulates keep reads m h bump)
    (hreads : ∀ x, reads x → keep x)
    (htree : NodesAt h.mem 0 places (.node cells entries children .none))
    (hrecords : RecordsKept keep reads places.spans)
    (hreadable : (Nodes.node cells entries children .none).All fun _ entries =>
      ∀ entry ∈ entries, EntryReadable reads m entry)
    (hspared : ∀ turn ∈ nodesTurns m hhdmBase answers none places
        (.node cells entries children .none) bump,
      Spared hhdmBase answers keep turn.bump turn.blocks)
    (hturns : (Nodes.node cells entries children .none).weight ≤ turns)
    (hdepth : (Nodes.node cells entries children .none).weight ≤ depth) :
    Related (fun a b => a.1 = b.1 ∧ (a.1.isErr = false →
        NodesDone keep reads m hhdmBase answers h 0 places (nodesTurns m hhdmBase answers none places
          (.node cells entries children .none) bump) bump a b.2))
      (rewriteNodes m hhdmBase answers none (.node cells entries children .none) bump)
      (recursivePropertyRewrite hhdmBase answers turns depth places.head h) := by
  cases places with
  | none => exact htree.elim
  | node root props childPlaces nextPlaces =>
  cases nextPlaces with
  | node => exact htree.2.2.2.elim
  | none =>
  obtain ⟨hnode, hprops, hbelow, -⟩ := htree
  obtain ⟨hhere, hreadBelow, -⟩ := hreadable
  rw [Nodes.weight] at hturns hdepth
  obtain ⟨depth, rfl⟩ := Nat.exists_eq_add_one_of_ne_zero (n := depth) (by omega)
  have hweight := children.weight_pos
  have hspans : (Places.node root props childPlaces .none).spans = nodeSpans root props childPlaces := by
    rw [Places.spans, Places.spans, List.append_nil]
    rfl
  rw [hspans] at hrecords
  rw [nodesTurns] at hspared ⊢
  rw [rewriteNodes_node, Places.head]
  refine ((rewriteNode_lockstep hsim hreads hnode hprops hbelow hrecords
    ⟨fun _ => rfl, fun p hp => absurd hp.symm (Option.some_ne_none p), fun hne => absurd rfl hne⟩
    (fun hne => absurd rfl hne) hhere (fun turn ht => hspared turn (List.mem_append_left _ ht))
    (by omega) fun h' bump' cells' hsim' hbelow' hparent' hspared' =>
      childLoop_lockstep hsim' hreads hbelow'
        (hrecords.sublist ((List.sublist_append_right _ _).trans (List.sublist_cons_self _ _))) hparent'
        (fun _ x hx hin => hrecords.head hx (covered_append.mpr (.inr hin))) hreadBelow hspared'
        (by omega) (by omega) (by omega)).left_eq).bind_left ?_
  rintro ⟨err, cells₁, entries₁, children₁, bump₁⟩ ⟨err', h₁⟩ ⟨⟨herr, hdone⟩, hideal⟩
  obtain rfl : err = err' := herr
  by_cases herr : err.isErr = true
  · exact ⟨_, if_pos herr, rfl, fun hok => absurd herr (by rw [hok]; decide)⟩
  have hdone := hdone (Bool.eq_false_of_not_eq_true herr)
  obtain rfl : err = .empty := hdone.empty
  refine ⟨(.empty, .node cells₁ entries₁ children₁ .none, bump₁), rfl, rfl, fun _ => ?_⟩
  rw [hideal, turnsAfter_ok]
  dsimp only
  rw [if_neg herr]
  refine ⟨hdone.simulates, ?_, ⟨hdone.record, hdone.properties, hdone.children, trivial⟩,
    hdone.traced.append (.nil _ _)⟩
  rw [hspans]
  exact hdone.changes

end Nodes

/-- A tree in memory as the token loop leaves it, with the blob that it was read from and an
allocator; the default counts of the root have been stored. -/
structure PassInput where
  hhdmBase : U64
  answers : Answers
  heap : Heap
  bump : Bump.State
  places : Places
  properties : List Entry
  children : Nodes
  /-- The ranges of the blob that the decoders may read. -/
  blob : List (U64 × Nat)
  represents : Bump.InMemory.Represents heap bump
  tree : NodesAt heap.mem 0 places (.node ⟨2, 1⟩ properties children .none)
  distinct : places.Distinct
  apart : ∀ x, Covered places.spans x → ¬ Covered blob x
  header : ∀ x, Within x heap.currentRegion 24 → ¬ Covered (places.spans ++ blob) x
  readable : (Nodes.node ⟨2, 1⟩ properties children .none).All fun _ entries =>
    ∀ entry ∈ entries, EntryReadable (Covered blob) heap.mem entry

namespace PassInput

variable (x : PassInput)

def nodes : Nodes := .node ⟨2, 1⟩ x.properties x.children .none

/-- What the stores of the pass are to stay clear of. -/
def keep : U64 → Prop := Covered (x.places.spans ++ x.blob)

/-- The turns of the pass that keeps its arrays apart. -/
def turns : List PlacedTurn :=
  nodesTurns x.heap.mem x.hhdmBase x.answers none x.places x.nodes x.bump

/-- No turn stores in a record, in the blob, or in a header that is still needed. -/
def Clear : Prop := ∀ turn ∈ x.turns, Spared x.hhdmBase x.answers x.keep turn.bump turn.blocks

/-- The call for the root; no loop has more turns, nor the recursion more levels. -/
def run : Exec (Error × Heap) :=
  recursivePropertyRewrite x.hhdmBase x.answers x.nodes.weight x.nodes.weight x.places.head x.heap

theorem recordsKept : RecordsKept x.keep (Covered x.blob) x.places.spans where
  kept a ha := ⟨covered_append.mpr (.inl ha), x.apart a ha⟩
  distinct := x.distinct

theorem simulates : Simulates x.keep (Covered x.blob) x.heap.mem x.heap x.bump :=
  ⟨x.represents, x.header, .refl _ _⟩

/-- The pass in memory is the pass over the nodes. -/
theorem run_lockstep (hclear : x.Clear) :
    Related (fun a b => a.1 = b.1 ∧ (a.1.isErr = false →
        NodesDone x.keep (Covered x.blob) x.heap.mem x.hhdmBase x.answers x.heap 0 x.places x.turns
          x.bump a b.2))
      (DeviceTree.recursivePropertyRewrite x.heap.mem x.hhdmBase x.answers x.properties x.children
        x.bump)
      x.run :=
  rewriteTree_lockstep x.simulates (fun _ ha => covered_append.mpr (.inr ha)) x.tree x.recordsKept
    x.readable hclear (Nat.le_refl _) (Nat.le_refl _)

/-- Where the pass over the nodes returns, the call for the root returns the same. -/
theorem run_returns (hclear : x.Clear) {err : Error} {nodes' : Nodes} {bump' : Bump.State}
    (h : DeviceTree.recursivePropertyRewrite x.heap.mem x.hhdmBase x.answers x.properties x.children
      x.bump = .ok (err, nodes', bump')) : ∃ h', x.run = .ok (err, h') := by
  obtain ⟨⟨err', h'⟩, hrun, herr, -⟩ := (x.run_lockstep hclear).ok h
  obtain rfl : err = err' := herr
  exact ⟨h', hrun⟩

theorem clear_of_checks (h : (x.turns.all fun turn => clearBlocks x.hhdmBase x.answers
    (x.places.spans ++ x.blob) turn.bump turn.blocks) = true) : x.Clear := fun turn ht =>
  spared_of_clear (List.all_eq_true.mp h turn ht)

end PassInput

section Checks

variable {m : Mem} {spans spans' : List (U64 × Nat)} {r : U64 × Nat} {x : U64} {entry : Entry}

/-- These bytes are in one range. -/
def inside (a : U64) (n : Nat) (r : U64 × Nat) : Bool := (a - r.1).toNat + n ≤ r.2

theorem within_of_inside {a : U64} {n : Nat} (h : inside a n r = true) (hr : r.2 ≤ 2 ^ 64)
    (hx : Within x a n) : Within x r.1 r.2 := by
  have hoffset : a = r.1 + BitVec.ofNat 64 (a - r.1).toNat := by
    rw [BitVec.ofNat_toNat, BitVec.setWidth_eq, BitVec.add_comm, BitVec.sub_add_cancel]
  rw [hoffset] at hx
  exact within_of_offset (of_decide_eq_true h) hr hx

/-- The value is read as far as the last byte of the range, which is a NUL. -/
def readableIn (m : Mem) (r : U64 × Nat) (entry : Entry) : Bool :=
  let k := r.2 - 1 - (entry.data.raw.data - r.1).toNat
  inside entry.name.data entry.name.size.toNat r && decide (r.2 ≤ 2 ^ 63) &&
    decide (entry.data.raw.size.toNat + 4 ≤ k) && m (entry.data.raw.data + BitVec.ofNat 64 k) == 0 &&
    inside entry.data.raw.data (k + 1) r

theorem entryReadable_of_check (h : readableIn m r entry = true) :
    EntryReadable (Covered [r]) m entry := by
  simp only [readableIn, Bool.and_eq_true, decide_eq_true_eq, beq_iff_eq] at h
  obtain ⟨⟨⟨⟨hname, hlength⟩, hbehind⟩, hzero⟩, hvalue⟩ := h
  have hroom : r.2 ≤ 2 ^ 64 := hlength.trans (by decide)
  refine ⟨fun x hx => covered_cons.mpr (.inl (within_of_inside hname hroom hx)), _, hbehind, ?_, hzero,
    fun x hx => covered_cons.mpr (.inl (within_of_inside hvalue hroom hx))⟩
  omega

theorem apart_of_checks (h : (spans.all fun a => spans'.all (clear a)) = true) (hx : Covered spans x) :
    ¬ Covered spans' x := by
  obtain ⟨a, ha, hin⟩ := hx
  exact not_covered_of_clear (List.all_eq_true.mp h a ha) hin

/-- The records of a list of properties, and those of a list of nodes. -/
def propertyPieces : List U64 → List Entry → List (U64 × List U8)
  | prop :: props, entry :: rest =>
    (prop, propertyBytes entry.name (props.headD 0) entry.data.raw) :: propertyPieces props rest
  | _, _ => []

def treePieces : U64 → Places → Nodes → List (U64 × List U8)
  | up, .node place props childPlaces nextPlaces, .node cells entries children next =>
    (place, nodeBytes cells (props.headD 0) up childPlaces.head nextPlaces.head) ::
      (propertyPieces props entries ++
        (treePieces place childPlaces children ++ treePieces up nextPlaces next))
  | _, _, _ => []

/-- Everything about a tree in memory that can be computed. -/
structure PassChecks (heap : Heap) (places : Places) (nodes : Nodes) (blob : U64 × Nat) : Prop where
  tree : NodesAt heap.mem 0 places nodes
  distinct : places.spans.Pairwise fun a b => clear a b = true
  apart : (places.spans.all fun a => [blob].all (clear a)) = true
  header : (places.spans ++ [blob]).all (clear (heap.currentRegion, 24)) = true
  readable : nodes.All fun _ entries => ∀ entry ∈ entries, readableIn heap.mem blob entry = true

/-- A tree with an allocator that is found in memory. -/
def PassChecks.input {heap : Heap} {places : Places} {properties : List Entry} {children : Nodes}
    {blob : U64 × Nat} (hhdmBase : U64) (answers : Answers)
    (h : PassChecks heap places (.node ⟨2, 1⟩ properties children .none) blob) : PassInput where
  hhdmBase := hhdmBase
  answers := answers
  heap := heap
  bump := heap.state
  places := places
  properties := properties
  children := children
  blob := [blob]
  represents := Bump.InMemory.represents_state heap
  tree := h.tree
  distinct := h.distinct.imp apart_of_clear
  apart _ hx := apart_of_checks h.apart hx
  header _ hx := not_covered_of_clear h.header hx
  readable := h.readable.mono fun _ _ hall entry hmem => entryReadable_of_check (hall entry hmem)

end Checks

end Octiron.DeviceTree.InMemory
