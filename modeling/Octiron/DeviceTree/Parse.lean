import Octiron.DeviceTree.Records
import Octiron.DeviceTree.Relocation
import Octiron.DeviceTree.Reservations
import Octiron.DeviceTree.Strings

/-! `parse_from_blob` as a whole: the header, the reservations, the token loop and the
rewrite pass on the records that the loop leaves. -/
namespace Octiron

namespace Stack

variable {α : Type} {P : α → Prop} {st : Stack α}

/-- Relocation copies records, so what holds of all of them holds of all copies. -/
theorem all_emplaceBack (h : ∀ s, P (st.record s)) {sizeofT : Nat} {value : α} (hvalue : P value)
    (s : Slot) : P ((st.emplaceBack sizeofT value).2.record s) := by
  have hgrow : ∀ s, P ((st.grow sizeofT).record s) := by
    intro s
    unfold grow
    split
    · change P (st.relocated s)
      unfold relocated
      split <;> exact h _
    · exact h s
  change P (Function.update (st.grow sizeofT).record _ value s)
  rw [Function.update_apply]
  split
  · exact hvalue
  · exact hgrow s

theorem all_modify (h : ∀ s, P (st.record s)) {f : α → α} (hf : ∀ a, P a → P (f a)) (t s : Slot) :
    P ((st.modify t f).record s) := by
  by_cases hs : s = t
  · rw [hs, record_modify_same]
    exact hf _ (h t)
  · rw [record_modify_of_ne st f hs]
    exact h s

end Stack

namespace DeviceTree

open Lib.Word Lib.ByteMemory Lib.Lockstep Exec Stack

/-- What every kind of turn preserves, the token loop preserves, whatever it reads. -/
theorem tokenLoop_preserves {I : Parser → Prop}
    (hopen : ∀ p name depth, I p → I { p.openNode name with depth := depth })
    (hclose : ∀ p p' : Parser, I p → p.closeNode = .ok p' → I p')
    (hadd : ∀ (p p' : Parser) name value, I p → p.addProperty name value = .ok p' → I p')
    {m : Mem} {structures strings : U64} {turns : Nat} {offset offset' : U64} {p p' : Parser}
    (h : I p) (hloop : tokenLoop m structures strings turns offset p = .ok (offset', p')) :
    I p' := by
  induction turns generalizing offset p with
  | zero => cases hloop
  | succ turns ih =>
    obtain ⟨⟨⟩, -, hloop⟩ := bind_eq_ok.mp hloop
    dsimp only at hloop
    split at hloop
    · obtain ⟨⟨offset₁, p₁⟩, hparse, hloop⟩ := bind_eq_ok.mp hloop
      obtain ⟨name, -, hparse⟩ := bind_eq_ok.mp hparse
      obtain ⟨rfl, rfl⟩ := ok_pair_inj hparse
      exact ih (hopen p name _ h) hloop
    split at hloop
    · obtain ⟨p₁, hclosed, hloop⟩ := bind_eq_ok.mp hloop
      exact ih (hclose p p₁ h hclosed) hloop
    split at hloop
    · obtain ⟨⟨offset₁, p₁⟩, hparse, hloop⟩ := bind_eq_ok.mp hloop
      obtain ⟨name, -, hparse⟩ := bind_eq_ok.mp hparse
      obtain ⟨p₂, hadded, hpure⟩ := bind_eq_ok.mp hparse
      obtain ⟨rfl, rfl⟩ := ok_pair_inj hpure
      exact ih (hadd p p₂ name _ h hadded) hloop
    split at hloop
    · exact ih h hloop
    split at hloop
    · split at hloop
      · cases hloop
      · obtain ⟨-, rfl⟩ := ok_pair_inj hloop
        exact h
    · cases hloop

section Opened

variable {p : Parser} {name : StrView}

theorem Parser.openNode_properties : (p.openNode name).properties = p.properties := by
  unfold Parser.openNode
  cases p.current <;> rfl

/-- What no link changes holds of all nodes, if of the new one. -/
theorem Parser.all_openNode {P : Node → Prop} (h : ∀ s, P (p.nodes.record s))
    (hnew : P ⟨name, 0, 0, none, p.current, none, none⟩)
    (hsibling : ∀ node ptr, P node → P { node with nextSibling := ptr })
    (hchildren : ∀ node ptr, P node → P { node with children := ptr }) (s : Slot) :
    P ((p.openNode name).nodes.record s) := by
  have hnodes := @all_emplaceBack _ _ _ h sizeofNode _ hnew
  unfold Parser.openNode
  generalize p.nodes.emplaceBack sizeofNode ⟨name, 0, 0, none, p.current, none, none⟩ = result
    at hnodes ⊢
  obtain ⟨new, nodes⟩ := result
  cases p.current with
  | none => exact hnodes s
  | some cur =>
    dsimp only at hnodes ⊢
    refine all_modify (P := P) ?_ ?_ cur s
    · refine all_modify (P := P) hnodes ?_ new
      exact fun node => hsibling node _
    · exact fun node => hchildren node _

end Opened

section Unrewritten

/-- What the token loop stores in nodes and properties. -/
def Node.Unrewritten (node : Node) : Prop := node.addressCells = 0 ∧ node.sizeCells = 0

def Property.Unrewritten (prop : Property) : Prop :=
  prop.type = .raw ∧ prop.data = .ofRaw prop.data.raw

structure Parser.Unrewritten (p : Parser) : Prop where
  nodes : ∀ s, (p.nodes.record s).Unrewritten
  properties : ∀ s, (p.properties.record s).Unrewritten

variable {p p' : Parser}

theorem Parser.Unrewritten.openNode (h : p.Unrewritten) (name : StrView) :
    (p.openNode name).Unrewritten := by
  refine ⟨all_openNode h.nodes ⟨rfl, rfl⟩ (fun _ _ => id) fun _ _ => id, ?_⟩
  rw [openNode_properties]
  exact h.properties

theorem Parser.Unrewritten.addProperty (h : p.Unrewritten) {name : StrView} {value : ByteView}
    (hadd : p.addProperty name value = .ok p') : p'.Unrewritten := by
  unfold Parser.addProperty at hadd
  split at hadd
  · cases hadd
  · obtain rfl := Except.ok.inj hadd
    refine ⟨?_, all_emplaceBack h.properties ⟨rfl, rfl⟩⟩
    dsimp only
    refine all_modify (P := Node.Unrewritten) h.nodes ?_ _
    exact fun _ hnode => hnode

theorem Parser.Unrewritten.closeNode (h : p.Unrewritten) (hclose : p.closeNode = .ok p') :
    p'.Unrewritten := by
  unfold Parser.closeNode at hclose
  split at hclose
  · cases hclose
  · obtain rfl := Except.ok.inj hclose
    exact ⟨h.nodes, h.properties⟩

theorem unrewritten_empty : Parser.Unrewritten {} :=
  ⟨fun _ => ⟨rfl, rfl⟩, fun _ => ⟨rfl, rfl⟩⟩

end Unrewritten

section FirstRoot

/-- The first node ever opened is a root without siblings. -/
structure Parser.FirstRoot (p : Parser) : Prop where
  sound : p.Sound
  parents : ∀ s t, (p.nodes.record s).parent = some t → p.nodes.Allocated t
  root : (p.nodes.size = 0 ∧ p.nodes.capacity = 0 ∧ p.nodes.buffers = 0) ∨
    (p.nodes.Allocated ⟨0, 0⟩ ∧ (p.nodes.record ⟨0, 0⟩).parent = none ∧
      (p.nodes.record ⟨0, 0⟩).nextSibling = none)

variable {p p' : Parser}

theorem Parser.FirstRoot.openNode (h : p.FirstRoot) (name : StrView) : (p.openNode name).FirstRoot := by
  have hopened := h.sound.openNode name
  have hparents : ∀ s t, ((p.openNode name).nodes.record s).parent = some t →
      p.nodes.Allocated t :=
    all_openNode (P := fun node => ∀ t, node.parent = some t → p.nodes.Allocated t) h.parents
      h.sound.current (fun _ _ => id) fun _ _ => id
  refine ⟨hopened.sound, fun s t hst => hopened.keeps t (hparents s t hst), .inr ?_⟩
  rcases h.root with ⟨hsize, hcapacity, hbuffers⟩ | ⟨hroot, hparent, hsibling⟩
  · have hcurrent : p.current = none := by
      cases hcurrent : p.current with
      | none => rfl
      | some cur =>
        rcases h.sound.current cur hcurrent with hin | ⟨hin, -⟩ <;> rw [hbuffers] at hin
        · exact absurd hin (Nat.not_lt_zero _)
        · exact nomatch hin
    have hnew : (p.nodes.emplaceBack sizeofNode
        ⟨name, 0, 0, none, p.current, none, none⟩).1 = ⟨0, 0⟩ := by
      simp [emplaceBack, grow, slot, hsize, hcapacity, hbuffers]
    have hrecord := hopened.record
    have hallocated := hopened.sound.current _ hopened.current
    rw [hnew] at hrecord hallocated
    rw [hrecord, childrenHead, hcurrent]
    exact ⟨hallocated, rfl, rfl⟩
  · refine ⟨hopened.keeps _ hroot, (hopened.parent_eq hroot).trans hparent, ?_⟩
    by_cases hcur : p.current = some ⟨0, 0⟩
    · rw [hopened.parent _ hcur]
      exact hsibling
    · rw [hopened.frame _ hroot hcur]
      exact hsibling

theorem Parser.FirstRoot.addProperty (h : p.FirstRoot) {name : StrView} {value : ByteView}
    (hadd : p.addProperty name value = .ok p') : p'.FirstRoot := by
  cases hcurrent : p.current with
  | none => cases (addProperty_of_none hcurrent name value).symm.trans hadd
  | some cur =>
    obtain ⟨new, p₁, hadd', hadded⟩ := h.sound.addProperty hcurrent name value
    obtain rfl := Except.ok.inj (hadd.symm.trans hadd')
    refine ⟨hadded.sound, fun s t hst => hadded.keeps t (h.parents s t ?_), ?_⟩
    · rw [← hadded.parent_eq s]
      exact hst
    rcases h.root with ⟨-, -, hbuffers⟩ | ⟨hroot, hparent, hsibling⟩
    · rcases h.sound.current cur hcurrent with hin | ⟨hin, -⟩ <;> rw [hbuffers] at hin
      · exact absurd hin (Nat.not_lt_zero _)
      · exact nomatch hin
    · refine .inr ⟨hadded.keeps _ hroot, (hadded.parent_eq _).trans hparent, ?_⟩
      by_cases hcur : (⟨0, 0⟩ : Slot) = cur
      · rw [hcur, hadded.owner, ← hcur]
        exact hsibling
      · rw [hadded.frame _ hcur]
        exact hsibling

theorem Parser.FirstRoot.closeNode (h : p.FirstRoot) (hclose : p.closeNode = .ok p') :
    p'.FirstRoot := by
  unfold Parser.closeNode at hclose
  split at hclose
  · cases hclose
  · next cur hcurrent =>
    obtain rfl := Except.ok.inj hclose
    exact ⟨⟨h.sound.nodes, h.sound.properties, h.parents cur⟩, h.parents, h.root⟩

theorem firstRoot_empty : Parser.FirstRoot {} :=
  ⟨tracks_empty.sound, fun _ _ hst => (nomatch hst), .inl ⟨rfl, rfl, rfl⟩⟩

end FirstRoot

/-- A list of siblings, each with its name, its properties and its children. -/
inductive Forest where
  | none
  | node (name : StrView) (cells : Cells) (properties : List Entry) (children nextSibling : Forest)

namespace Forest

/-- What the pass goes over. -/
def nodes : Forest → Nodes
  | none => .none
  | node _ cells properties children nextSibling =>
    .node cells properties children.nodes nextSibling.nodes

def append : Forest → Forest → Forest
  | none, forest => forest
  | node name cells properties children nextSibling, forest =>
    node name cells properties children (nextSibling.append forest)

/-- The same names at the same places. -/
def SameNames : Forest → Forest → Prop
  | none, none => True
  | node name _ properties children nextSibling, node name' _ properties' children' nextSibling' =>
    name' = name ∧ properties'.map Entry.name = properties.map Entry.name ∧
      children.SameNames children' ∧ nextSibling.SameNames nextSibling'
  | _, _ => False

theorem append_assoc (f g h : Forest) : (f.append g).append h = f.append (g.append h) := by
  induction f with
  | none => rfl
  | node name cells properties children next _ ih => rw [append, append, append, ih]

@[simp] theorem append_none (f : Forest) : f.append none = f := by
  induction f with
  | none => rfl
  | node name cells properties children next _ ih => rw [append, ih]

theorem weight_append (f g : Forest) :
    (f.append g).nodes.weight + 1 = f.nodes.weight + g.nodes.weight := by
  induction f with
  | none => exact Nat.add_comm _ _
  | node name cells properties children next _ ih =>
    simp only [append, nodes, Nodes.weight] at ih ⊢
    omega

end Forest

section Raw

variable (m : Mem)

/-- The properties among the items, last one first, as the token loop leaves them. -/
def RawProperties : Items → List Entry → Prop
  | .nil, entries => entries = []
  | .nop rest, entries => RawProperties rest entries
  | .node _ _ rest, entries => RawProperties rest entries
  | .prop _ name value rest, entries => ∃ later nameView raw,
      entries = later ++ [.ofRaw nameView raw] ∧ RawProperties rest later ∧
      Denotes m nameView.data nameView.size name ∧ Denotes m raw.data raw.size value

/-- The nodes among the items, last one first, each with its own contents. -/
def RawForest : Items → Forest → Prop
  | .nil, forest => forest = .none
  | .nop rest, forest => RawForest rest forest
  | .prop _ _ _ rest, forest => RawForest rest forest
  | .node name body rest, forest => ∃ later nameView properties children,
      forest = later.append (.node nameView ⟨0, 0⟩ properties children .none) ∧
      RawForest rest later ∧ Denotes m nameView.data nameView.size name ∧
      RawProperties m body properties ∧ RawForest body children

variable {m}

/-- A token for each turn. -/
theorem weight_le_of_raw {items : Items} {properties : List Entry} {forest : Forest}
    (hproperties : RawProperties m items properties) (hforest : RawForest m items forest) :
    properties.length + forest.nodes.weight ≤ items.tokens.length + 1 := by
  induction items generalizing properties forest with
  | nil =>
    obtain rfl := hproperties
    obtain rfl := hforest
    exact le_rfl
  | nop rest ih => exact (ih hproperties hforest).trans (by simp [Items.tokens])
  | prop nameOffset name value rest ih =>
    obtain ⟨later, nameView, raw, rfl, hrest, -⟩ := hproperties
    have hle := ih hrest hforest
    simp only [Items.tokens, List.length_append, List.length_cons, List.length_nil]
    omega
  | node name body rest ihBody ihRest =>
    obtain ⟨later, nameView, own, children, rfl, hlater, -, hown, hchildren⟩ := hforest
    have hbody := ihBody hown hchildren
    have hrest := ihRest hproperties hlater
    have happend := later.weight_append (.node nameView ⟨0, 0⟩ own children .none)
    simp only [Forest.nodes, Nodes.weight] at happend
    simp only [Items.tokens, List.length_append, List.length_cons]
    omega

end Raw

namespace Records

/-- The list from `head` on consists of these nodes, with the names in their records. -/
def ForestList (r : Records) : Ptr → Forest → Ptr → List Slot → List Slot → Prop
  | _, .none, head, slots, propertySlots => head = none ∧ slots = [] ∧ propertySlots = []
  | parent, .node name cells properties children nextSibling, head, slots, propertySlots =>
    ∃ slot inner others own innerProperties otherProperties,
      head = some slot ∧ slots = slot :: (inner ++ others) ∧
      propertySlots = own ++ innerProperties ++ otherProperties ∧
      (r.nodes.record slot).name = name ∧ r.cells slot = cells ∧
      (r.nodes.record slot).parent = parent ∧
      r.PropertyList (r.nodes.record slot).properties own properties ∧
      r.ForestList (some slot) children (r.nodes.record slot).children inner innerProperties ∧
      r.ForestList parent nextSibling (r.nodes.record slot).nextSibling others otherProperties

section

variable {r r' : Records} {parent head : Ptr} {slots propertySlots : List Slot} {forest : Forest}

theorem ForestList.nodeList (h : r.ForestList parent forest head slots propertySlots) :
    r.NodeList parent forest.nodes head slots propertySlots := by
  induction forest generalizing parent head slots propertySlots with
  | none => exact h
  | node name cells properties children next ihChildren ihNext =>
    obtain ⟨slot, inner, others, own, innerProperties, otherProperties, rfl, rfl, rfl, -, hcells,
      hparent, hprops, hchildren, hnext⟩ := h
    exact ⟨slot, inner, others, own, innerProperties, otherProperties, rfl, rfl, rfl, hcells,
      hparent, hprops, ihChildren hchildren, ihNext hnext⟩

theorem PropertyList.unique {own own' : List Slot} {entries entries' : List Entry}
    (h : r.PropertyList head own entries) (h' : r.PropertyList head own' entries') :
    entries = entries' := by
  induction own generalizing head own' entries entries' with
  | nil =>
    obtain ⟨rfl, rfl⟩ := h
    cases own' with
    | nil => exact h'.2.symm
    | cons slot' slots' =>
      obtain ⟨_, -, hhead, -⟩ := h'
      cases hhead
  | cons slot slots ih =>
    obtain ⟨rest, rfl, rfl, hrest⟩ := h
    cases own' with
    | nil => cases h'.1
    | cons slot' slots' =>
      obtain ⟨rest', rfl, hhead, hrest'⟩ := h'
      obtain rfl := Option.some.inj hhead
      rw [ih hrest hrest']

/-- The records below a node are one forest. -/
theorem ForestList.unique {forest' : Forest} {parent' : Ptr} {slots' propertySlots' : List Slot}
    (h : r.ForestList parent forest head slots propertySlots)
    (h' : r.ForestList parent' forest' head slots' propertySlots') : forest = forest' := by
  induction forest generalizing parent head slots propertySlots forest' parent' slots'
      propertySlots' with
  | none =>
    obtain ⟨rfl, -, -⟩ := h
    cases forest' with
    | none => rfl
    | node =>
      obtain ⟨_, _, _, _, _, _, hhead, -⟩ := h'
      cases hhead
  | node name cells properties children next ihChildren ihNext =>
    obtain ⟨slot, _, _, _, _, _, rfl, -, -, rfl, rfl, -, hprops, hchildren, hnext⟩ := h
    cases forest' with
    | none => cases h'.1
    | node name' cells' properties' children' next' =>
      obtain ⟨slot', _, _, _, _, _, hhead, -, -, rfl, rfl, -, hprops', hchildren', hnext'⟩ := h'
      obtain rfl := Option.some.inj hhead
      rw [hprops.unique hprops', ihChildren hchildren hchildren', ihNext hnext hnext']

theorem NodeList.exists_forestList {nodes : Nodes}
    (h : r.NodeList parent nodes head slots propertySlots) :
    ∃ forest : Forest, forest.nodes = nodes ∧
      r.ForestList parent forest head slots propertySlots := by
  induction nodes generalizing parent head slots propertySlots with
  | none => exact ⟨.none, rfl, h⟩
  | node cells properties children next ihChildren ihNext =>
    obtain ⟨slot, inner, others, own, innerProperties, otherProperties, rfl, rfl, rfl, hcells,
      hparent, hprops, hchildren, hnext⟩ := h
    obtain ⟨below, rfl, hbelow⟩ := ihChildren hchildren
    obtain ⟨behind, rfl, hbehind⟩ := ihNext hnext
    exact ⟨.node (r.nodes.record slot).name cells properties below behind, rfl, slot, inner, others,
      own, innerProperties, otherProperties, rfl, rfl, rfl, rfl, hcells, hparent, hprops, hbelow,
      hbehind⟩

theorem PropertyList.congr {own : List Slot} {entries : List Entry}
    (h : r.PropertyList head own entries) (hproperties : r'.properties = r.properties)
    (harrays : r'.arrays = r.arrays) : r'.PropertyList head own entries := by
  induction own generalizing head entries with
  | nil => exact h
  | cons slot own ih =>
    obtain ⟨rest, rfl, hhead, h⟩ := h
    refine ⟨rest, ?_, hhead, ?_⟩
    · rw [entry, entry, hproperties, harrays]
    · rw [hproperties]
      exact ih h

/-- Only the records of the list matter. -/
theorem ForestList.congr (h : r.ForestList parent forest head slots propertySlots)
    (hnodes : ∀ s ∈ slots, r'.nodes.record s = r.nodes.record s)
    (hproperties : r'.properties = r.properties) (harrays : r'.arrays = r.arrays) :
    r'.ForestList parent forest head slots propertySlots := by
  induction forest generalizing parent head slots propertySlots with
  | none => exact h
  | node name cells properties children next ihChildren ihNext =>
    obtain ⟨slot, inner, others, own, innerProperties, otherProperties, rfl, rfl, rfl, hname, hcells,
      hparent, hown, hchildren, hnext⟩ := h
    simp only [List.mem_cons, List.mem_append] at hnodes
    have hslot := hnodes slot (.inl rfl)
    refine ⟨slot, inner, others, own, innerProperties, otherProperties, rfl, rfl, rfl, ?_, ?_, ?_, ?_,
      ?_, ?_⟩
    · rw [hslot, hname]
    · rw [← hcells, Records.cells, Records.cells, hslot]
    · rw [hslot, hparent]
    · rw [hslot]
      exact hown.congr hproperties harrays
    · rw [hslot]
      exact ihChildren hchildren fun s hs => hnodes s (.inr (.inl hs))
    · rw [hslot]
      exact ihNext hnext fun s hs => hnodes s (.inr (.inr hs))

/-- The pass renames nothing. -/
theorem PropertyList.sameNames {own own' : List Slot} {entries entries' : List Entry}
    (h : r.PropertyList head own entries) (h' : r'.PropertyList head own' entries')
    (hkept : Kept r r' slots propertySlots) : entries'.map Entry.name = entries.map Entry.name := by
  induction own generalizing head own' entries entries' with
  | nil =>
    obtain ⟨rfl, rfl⟩ := h
    cases own' with
    | nil => rw [h'.2]
    | cons slot own' =>
      obtain ⟨-, -, hhead, -⟩ := h'
      exact nomatch hhead
  | cons slot own ih =>
    obtain ⟨rest, rfl, rfl, hrest⟩ := h
    cases own' with
    | nil => exact nomatch h'.1
    | cons slot' own' =>
      obtain ⟨rest', rfl, hhead, hrest'⟩ := h'
      obtain rfl := Option.some.inj hhead
      rw [hkept.nextProperty slot] at hrest'
      have hname : (r'.entry slot).name = (r.entry slot).name := by
        rw [entry, entry, hkept.property slot]
      rw [List.map_cons, List.map_cons, ih hrest hrest', hname]

theorem ForestList.sameNames {forest' : Forest} {parent' : Ptr} {own ownProperties own'
      ownProperties' : List Slot}
    (h : r.ForestList parent forest head own ownProperties)
    (h' : r'.ForestList parent' forest' head own' ownProperties')
    (hkept : Kept r r' slots propertySlots) : forest.SameNames forest' := by
  induction forest generalizing parent parent' head own ownProperties own' ownProperties' forest' with
  | none =>
    obtain ⟨rfl, -⟩ := h
    cases forest' with
    | none => trivial
    | node name' cells' properties' children' next' =>
      obtain ⟨_, _, _, _, _, _, hhead, -⟩ := h'
      exact nomatch hhead
  | node name cells properties children next ihChildren ihNext =>
    obtain ⟨slot, inner, others, props, innerProperties, otherProperties, rfl, -, -, hname, -, -,
      hprops, hchildren, hnext⟩ := h
    cases forest' with
    | none => exact nomatch h'.1
    | node name' cells' properties' children' next' =>
      obtain ⟨slot', inner', others', props', innerProperties', otherProperties', hhead, -, -, hname',
        -, -, hprops', hchildren', hnext'⟩ := h'
      obtain rfl := Option.some.inj hhead
      have hrecord := hkept.node slot
      rw [hrecord] at hname' hprops' hchildren' hnext'
      exact ⟨hname'.symm.trans hname, hprops.sameNames hprops' hkept, ihChildren hchildren hchildren',
        ihNext hnext hnext'⟩

end

section Loaded

variable {m : Mem} {r : Records} {slots propertySlots : List Slot} {head tail : Ptr} {items : Items}

/-- Records that nothing has rewritten. -/
structure Untouched (r : Records) : Prop where
  nodes : ∀ s, (r.nodes.record s).Unrewritten
  properties : ∀ s, (r.properties.record s).Unrewritten
  arrays : ∀ s, r.arrays s = {}

theorem Untouched.cells_eq (h : r.Untouched) (s : Slot) : r.cells s = ⟨0, 0⟩ := by
  rw [cells, (h.nodes s).1, (h.nodes s).2]

theorem Untouched.entry_eq (h : r.Untouched) (s : Slot) :
    r.entry s = .ofRaw (r.properties.record s).name (r.properties.record s).data.raw := by
  rw [entry, h.arrays s, (h.properties s).1]
  exact congrArg (fun data => ({ name := _, type := .raw, data := data } : Entry)) (h.properties s).2

/-- The properties of a node, read from the head. -/
theorem Untouched.propertyList (hr : r.Untouched) {behind : List Slot} {entries : List Entry}
    (h : PropertiesFrom m r.properties.record items head tail slots)
    (htail : r.PropertyList tail behind entries) :
    ∃ first, RawProperties m items first ∧
      r.PropertyList head (slots.reverse ++ behind) (first ++ entries) := by
  induction items generalizing tail slots behind entries with
  | nil =>
    obtain ⟨rfl, rfl⟩ := h
    exact ⟨[], rfl, htail⟩
  | nop rest ih => exact ih h htail
  | node name body rest _ ih => exact ih h htail
  | prop nameOffset name value rest ih =>
    obtain ⟨slot, others, rfl, hrest, hname, -, hvalue, hnext⟩ := h
    have hcons : r.PropertyList (some slot) (slot :: behind) (r.entry slot :: entries) :=
      ⟨entries, rfl, rfl, by rw [hnext]; exact htail⟩
    obtain ⟨later, hlater, hlist⟩ := ih hrest hcons
    refine ⟨later ++ [r.entry slot], ⟨later, _, _, by rw [hr.entry_eq], hlater, hname, hvalue⟩, ?_⟩
    rw [List.reverse_cons, List.append_assoc, List.append_assoc]
    exact hlist

/-- The nodes below a parent, read from the head. -/
theorem Untouched.forestList (hr : r.Untouched) {parent : Slot} {behind behindProperties : List Slot}
    {forest : Forest}
    (h : NodesFrom m r.nodes.record r.properties.record parent items head tail slots propertySlots)
    (htail : r.ForestList (some parent) forest tail behind behindProperties) :
    ∃ first slots' propertySlots', RawForest m items first ∧
      r.ForestList (some parent) (first.append forest) head slots' propertySlots' ∧
      slots'.Perm (slots ++ behind) ∧ propertySlots'.Perm (propertySlots ++ behindProperties) := by
  induction items generalizing parent head tail slots propertySlots behind behindProperties forest with
  | nil =>
    obtain ⟨rfl, rfl, rfl⟩ := h
    exact ⟨.none, behind, behindProperties, rfl, htail, .refl _, .refl _⟩
  | nop rest ih => exact ih h htail
  | prop nameOffset name value rest ih => exact ih h htail
  | node name body rest ihBody ihRest =>
    obtain ⟨slot, inner, others, own, innerProperties, otherProperties, rfl, rfl, hrest, hname,
      hparent, hnext, hown, hbelow⟩ := h
    obtain ⟨properties, hproperties, hlist⟩ :=
      hr.propertyList hown (show r.PropertyList none [] [] from ⟨rfl, rfl⟩)
    obtain ⟨children, inner', innerProperties', hchildren, hinner, hperm, hpermProperties⟩ :=
      ihBody hbelow (show r.ForestList (some slot) .none none [] [] from ⟨rfl, rfl, rfl⟩)
    rw [Forest.append_none] at hinner
    rw [List.append_nil, List.append_nil] at hlist
    rw [List.append_nil] at hperm hpermProperties
    have hcons : r.ForestList (some parent)
        (.node (r.nodes.record slot).name ⟨0, 0⟩ properties children forest) (some slot)
        (slot :: (inner' ++ behind)) (own.reverse ++ innerProperties' ++ behindProperties) :=
      ⟨slot, inner', behind, own.reverse, innerProperties', behindProperties, rfl, rfl, rfl, rfl,
        hr.cells_eq slot, hparent, hlist, hinner, by rw [hnext]; exact htail⟩
    obtain ⟨later, slots', propertySlots', hlater, hall, hpermAll, hpermAllProperties⟩ :=
      ihRest hrest hcons
    refine ⟨later.append (.node (r.nodes.record slot).name ⟨0, 0⟩ properties children .none), slots',
      propertySlots', ⟨later, _, properties, children, rfl, hlater, hname, hproperties, hchildren⟩,
      ?_, ?_, ?_⟩
    · rw [Forest.append_assoc]
      exact hall
    · refine hpermAll.trans ?_
      simp only [List.perm_iff_count, List.count_append, List.count_cons] at hperm ⊢
      intro a
      have hcount := hperm a
      omega
    · refine hpermAllProperties.trans ?_
      simp only [List.perm_iff_count, List.count_append, List.count_reverse] at hpermProperties ⊢
      intro a
      have hcount := hpermProperties a
      omega

end Loaded

def setName (r : Records) (node : Slot) (name : StrView) : Records :=
  { r with nodes := r.nodes.modify node fun record => { record with name := name } }

theorem record_setName_same (r : Records) (node : Slot) (name : StrView) :
    (r.setName node name).nodes.record node = { r.nodes.record node with name := name } := by
  simp [setName, Stack.record_modify_same]

theorem record_setName_of_ne (r : Records) {node s : Slot} (name : StrView) (h : s ≠ node) :
    (r.setName node name).nodes.record s = r.nodes.record s := by
  simp [setName, Stack.record_modify_of_ne _ _ h]

theorem ForestList.setName {r : Records} {root : Slot} {slots propertySlots : List Slot} {parent : Ptr}
    {name : StrView} {cells : Cells} {properties : List Entry} {children next : Forest}
    (h : r.ForestList parent (.node name cells properties children next) (some root) slots
      propertySlots) (hnodup : slots.Nodup) (name' : StrView) :
    (r.setName root name').ForestList parent (.node name' cells properties children next) (some root)
      slots propertySlots := by
  obtain ⟨slot, inner, others, own, innerProperties, otherProperties, hroot, rfl, rfl, -, hcells,
    hparent, hown, hchildren, hnext⟩ := h
  obtain rfl := Option.some.inj hroot
  have hfresh := (List.nodup_cons.mp hnodup).1
  rw [List.mem_append, not_or] at hfresh
  have hrecord := record_setName_same r root name'
  have hother := @record_setName_of_ne r root
  refine ⟨root, inner, others, own, innerProperties, otherProperties, rfl, rfl, rfl, ?_, ?_, ?_, ?_, ?_,
    ?_⟩
  · rw [hrecord]
  · rw [← hcells, Records.cells, Records.cells, hrecord]
  · rw [hrecord]
    exact hparent
  · rw [hrecord]
    exact hown.congr rfl rfl
  · rw [hrecord]
    exact hchildren.congr (fun s hs => hother name' fun heq => hfresh.1 (heq ▸ hs)) rfl rfl
  · rw [hrecord]
    exact hnext.congr (fun s hs => hother name' fun heq => hfresh.2 (heq ▸ hs)) rfl rfl

end Records

/-- The globals of `device_tree.cpp`. -/
structure Globals where
  reservedRegions : Stack ReservedRegion := { record := fun _ => ⟨0, 0⟩ }
  records : Records
  root : Ptr := none
  initialized : Bool := false

section Blob

variable (m : Mem) (dtb : U64)

/-- `dtb + offset_structs`, the third word of the header. -/
def structuresOf : U64 := dtb + (readBigEndian32 m (dtb + 8)).setWidth 64

def stringsOf : U64 := dtb + (readBigEndian32 m (dtb + 12)).setWidth 64

/-- The literal `"/"` lies at `slash`. -/
def parseFromBlob (hhdmBase : U64) (answers : Pmm.Answers) (slash : U64) (turns : Nat)
    (g : Globals) : Exec (Error × Globals) :=
  if readBigEndian32 m dtb ≠ 0xD00DFEED then .ok (.ofCode .dtMagicNumber, g)
  else do
    let reservedRegions ← readReservations m dtb turns g.reservedRegions
    let g := { g with reservedRegions := reservedRegions }
    let (err, p) ← parseStructures m (structuresOf m dtb) (stringsOf m dtb) turns
      { nodes := g.records.nodes, properties := g.records.properties }
    let records := { g.records with nodes := p.nodes, properties := p.properties }
    if err.isErr then return (err, { g with records := records })
    let root := p.nodes.slot 0
    let (err, records) ←
      rewriteRecords m hhdmBase answers turns turns root (records.setCells root ⟨2, 1⟩)
    let g := { g with records := records, root := some root }
    if err.isErr then return (err.push .dtRewriteFailed, g)
    return (.ofCode .success,
      { g with records := records.setName root ⟨slash, 1⟩, initialized := true })

/-- A blob of one encoded tree, whose reservations the code can read. -/
structure Blob (tree : Tree) : Prop where
  magic : readBigEndian32 m dtb = 0xD00DFEED
  reservations : ¬ (rsvmapWord m (rsvmapOf m dtb) 0 ≠ 0 ∧ rsvmapWord m (rsvmapOf m dtb) 1 ≠ 0)
  encoded : Encoded m (structuresOf m dtb) (stringsOf m dtb) tree.tokens

end Blob

/-- What a call leaves when the pass over the tree ends as in `a`: the tree that the pass
has made of it, under the same names but for the root's. -/
structure ParseDone (slash : U64) (name : StrView) (properties : List Entry) (children : Forest)
    (a : Error × Nodes × Bump.State) (b : Error × Globals) : Prop where
  err : b.1 = if a.1.isErr then a.1.push .dtRewriteFailed else .ofCode .success
  initialized : b.2.initialized = !a.1.isErr
  bump : b.2.records.bump = a.2.2
  tree : ∃ forest slots propertySlots,
    b.2.records.ForestList none forest b.2.root slots propertySlots ∧
    slots.Nodup ∧ propertySlots.Nodup ∧ forest.nodes = a.2.1 ∧
    Forest.SameNames (.node (if a.1.isErr then name else ⟨slash, 1⟩) ⟨2, 1⟩ properties children .none)
      forest

section Blob

variable {m : Mem} {dtb hhdmBase slash : U64} {answers : Pmm.Answers} {turns : Nat}
  {tree : Tree} {bump : Bump.State}

/-- What the token loop leaves of an encoded tree that fits in the first buffer. -/
theorem exists_untouched {structures strings : U64}
    (h : Encoded m structures strings tree.tokens) (hcount : tree.nodeCount ≤ 73)
    (hturns : tree.tokens.length < turns) :
    ∃ p, parseStructures m structures strings turns {} = .ok (.ofCode .success, p) ∧
      p.nodes.slot 0 = ⟨0, 0⟩ ∧
      Represents m p.nodes.record p.properties.record ⟨0, 0⟩ tree ∧
      p.Unrewritten ∧ (p.nodes.record ⟨0, 0⟩).parent = none ∧
      (p.nodes.record ⟨0, 0⟩).nextSibling = none := by
  obtain ⟨p, hparse, hrooted, hsize, hrepresents⟩ := parseStructures_tree h hturns
  have hpos : tree.nodeCount = 1 + tree.body.nodeCount := rfl
  have hslot : p.nodes.slot 0 = ⟨0, 0⟩ := by
    rcases hrooted.buffers.one_or_more (by omega) with ⟨-, hbuffers⟩ | ⟨hmany, -⟩
    · rw [Stack.slot, hbuffers]
    · omega
  obtain ⟨⟨offset, p'⟩, hloop, hrest⟩ := bind_eq_ok.mp hparse
  have hsame : p' = p := by
    dsimp only at hrest
    split at hrest <;> exact (ok_pair_inj hrest).2
  subst hsame
  refine ⟨p', hparse, hslot, hrepresents, ?_, ?_⟩
  · refine tokenLoop_preserves (I := Parser.Unrewritten) (fun p name depth hp => ?_)
      (fun p p' hp => hp.closeNode) (fun p p' name value hp => hp.addProperty) unrewritten_empty hloop
    exact ⟨(hp.openNode name).nodes, (hp.openNode name).properties⟩
  · have hfirst := tokenLoop_preserves (I := Parser.FirstRoot) (fun p name depth hp =>
        have hopened := hp.openNode name
        ⟨⟨hopened.sound.nodes, hopened.sound.properties, hopened.sound.current⟩, hopened.parents,
          hopened.root⟩)
      (fun p p' hp => hp.closeNode) (fun p p' name value hp => hp.addProperty) firstRoot_empty hloop
    rcases hfirst.root with ⟨hzero, -⟩ | ⟨-, hlinks⟩
    · omega
    · exact hlinks

/-- The call runs in lockstep with the pass on the encoded tree. -/
theorem parseFromBlob_lockstep (h : Blob m dtb tree) (hcount : tree.nodeCount ≤ 73)
    (hturns : tree.tokens.length < turns) :
    ∃ name properties children, Denotes m name.data name.size tree.name ∧
      RawProperties m tree.body properties ∧ RawForest m tree.body children ∧
      Related (ParseDone slash name properties children)
        (recursivePropertyRewrite m hhdmBase answers properties children.nodes bump)
        (parseFromBlob m dtb hhdmBase answers slash turns { records := { bump := bump } }) := by
  obtain ⟨p, hparse, hslot, ⟨slots, own, propertySlots, hname, hown, hbelow, hnodup, hnodupProperties⟩,
    hunrewritten, hparent, hsibling⟩ := exists_untouched h.encoded hcount hturns
  set r₀ : Records := { nodes := p.nodes, properties := p.properties, bump := bump } with hr₀
  have hr : r₀.Untouched := ⟨hunrewritten.nodes, hunrewritten.properties, fun _ => rfl⟩
  obtain ⟨properties, hproperties, hlist⟩ :=
    hr.propertyList hown (show r₀.PropertyList none [] [] from ⟨rfl, rfl⟩)
  obtain ⟨children, slots', propertySlots', hchildren, hforest, hperm, hpermProperties⟩ :=
    hr.forestList hbelow (show r₀.ForestList (some ⟨0, 0⟩) .none none [] [] from ⟨rfl, rfl, rfl⟩)
  rw [List.append_nil, List.append_nil] at hlist
  rw [Forest.append_none] at hforest
  rw [List.append_nil] at hperm hpermProperties
  refine ⟨_, properties, children, hname, hproperties, hchildren, ?_⟩
  -- the records with the root's two counts
  set r₁ := r₀.setCells ⟨0, 0⟩ ⟨2, 1⟩ with hr₁
  have hkept := Records.kept_setCells r₀ ⟨0, 0⟩ ⟨2, 1⟩
  have hslots : ((⟨0, 0⟩ : Slot) :: (slots' ++ [])).Nodup := by
    rw [List.append_nil]
    exact ((hperm.cons _).nodup_iff).mpr hnodup
  have hfresh := (List.nodup_cons.mp hslots).1
  have hpropertySlots : (own.reverse ++ propertySlots' ++ []).Nodup := by
    rw [List.append_nil]
    exact (((List.reverse_perm own).append hpermProperties).nodup_iff).mpr hnodupProperties
  have hroot : r₁.ForestList none
      (.node (p.nodes.record ⟨0, 0⟩).name ⟨2, 1⟩ properties children .none) (some ⟨0, 0⟩)
      (⟨0, 0⟩ :: (slots' ++ [])) (own.reverse ++ propertySlots' ++ []) := by
    have hrecord := hkept.node ⟨0, 0⟩
    refine ⟨⟨0, 0⟩, slots', [], own.reverse, propertySlots', [], rfl, rfl, rfl, ?_,
      Records.cells_setCells r₀ _ _, ?_, ?_, ?_, ?_, rfl, rfl⟩
    · rw [hrecord]
    · rw [hrecord]
      exact hparent
    · rw [hrecord]
      exact hlist.keep hkept fun _ _ => List.not_mem_nil
    · rw [hrecord]
      refine hforest.congr (fun s hs => Records.record_setCells_of_ne r₀ _ fun heq => ?_) rfl rfl
      exact hfresh (heq ▸ List.mem_append_left _ hs)
    · rw [hrecord]
      exact hsibling
  have hweight := weight_le_of_raw hproperties hchildren
  have hlength : tree.body.tokens.length + 2 ≤ tree.tokens.length := by
    simp only [Tree.tokens, List.length_append, List.length_cons, List.length_replicate]
    omega
  obtain ⟨turns, rfl⟩ := Nat.exists_eq_add_one_of_ne_zero (Nat.ne_zero_of_lt hturns)
  rw [parseFromBlob, if_neg (not_not.mpr h.magic), readReservations,
    reservationLoop_stops h.reservations]
  simp only [ok_bind, hparse, hslot]
  rw [if_neg (by decide)]
  refine (rewriteRecords_refines hroot.nodeList hslots hpropertySlots (by omega)
    (by omega)).bind_right ?_
  rintro ⟨err, nodes', bump'⟩ ⟨err', r'⟩ hdone
  obtain rfl : err = err' := hdone.err
  obtain rfl : bump' = r'.bump := hdone.bump
  obtain ⟨forest, rfl, hleft⟩ := hdone.list.exists_forestList
  have hsame := hroot.sameNames hleft hdone.kept
  dsimp only
  by_cases herr : err.isErr = true
  · refine ⟨_, if_pos herr, (if_pos herr).symm, ?_, rfl, forest, _, _, hleft, hslots, hpropertySlots,
      rfl, ?_⟩
    · dsimp only
      rw [herr]
      rfl
    · rw [if_pos herr]
      exact hsame
  · cases forest with
    | none => exact hsame.elim
    | node name cells properties' children' next =>
      refine ⟨_, if_neg herr, (if_neg herr).symm, ?_, rfl, _, _, _, hleft.setName hslots ⟨slash, 1⟩,
        hslots, hpropertySlots, rfl, ?_⟩
      · dsimp only
        rw [Bool.eq_false_of_not_eq_true herr]
        rfl
      · rw [if_neg herr]
        exact ⟨rfl, hsame.2⟩

/-- The call on an encoded tree is the pass on that tree, with every list in reverse: it
stops as the pass stops, passes on its error, and leaves in memory what the pass has made
of the tree. -/
theorem parseFromBlob_refines (h : Blob m dtb tree) (hcount : tree.nodeCount ≤ 73)
    (hturns : tree.tokens.length < turns) :
    ∃ name properties children, Denotes m name.data name.size tree.name ∧
      RawProperties m tree.body properties ∧ RawForest m tree.body children ∧
      (∀ stop, recursivePropertyRewrite m hhdmBase answers properties children.nodes bump =
          .error stop →
        parseFromBlob m dtb hhdmBase answers slash turns { records := { bump := bump } } =
          .error stop) ∧
      ∀ result, recursivePropertyRewrite m hhdmBase answers properties children.nodes bump =
          .ok result →
        ∃ err g, parseFromBlob m dtb hhdmBase answers slash turns { records := { bump := bump } } =
            .ok (err, g) ∧
          ParseDone slash name properties children result (err, g) := by
  obtain ⟨name, properties, children, hname, hproperties, hchildren, hlockstep⟩ :=
    parseFromBlob_lockstep h hcount hturns
  refine ⟨name, properties, children, hname, hproperties, hchildren, fun stop => hlockstep.error,
    fun result hresult => ?_⟩
  obtain ⟨⟨err, g⟩, hcall, hdone⟩ := hlockstep.ok hresult
  exact ⟨err, g, hcall, hdone⟩

end Blob

/-- A header, no reservation, and a structure block with its strings right behind it. -/
def treeBlob (structures strings : List U8) : List U8 :=
  bigEndian32 0xD00DFEED ++ List.replicate 4 0 ++ bigEndian32 56 ++
    bigEndian32 (BitVec.ofNat 32 (56 + structures.length)) ++ bigEndian32 40 ++
    List.replicate 36 0 ++ structures ++ strings

/-- A nameless root with a cell count of its own and one child. -/
def cpuTree : Tree :=
  ⟨0, [], .prop 0 (literal "#address-cells") (bigEndian32 1) (.node (literal "cpu") .nil .nil), 0⟩

def cpuBlob : Mem :=
  ofBytes 0x1000 (treeBlob (encodeAll cpuTree.tokens) (literal "#address-cells" ++ [0]))

theorem blob_cpu : Blob cpuBlob 0x1000 cpuTree where
  magic := by decide +kernel
  reservations := by decide +kernel
  encoded := by
    refine ⟨by decide +kernel, by decide, ?_⟩
    have hname : (Token.prop 0 (literal "#address-cells") (bigEndian32 1)).WellFormed cpuBlob
        (stringsOf cpuBlob 0x1000) :=
      ⟨by decide, by decide, by decide, by decide +kernel⟩
    exact List.forall_mem_cons.mpr ⟨List.not_mem_nil, List.forall_mem_cons.mpr ⟨hname,
      List.forall_mem_cons.mpr ⟨(by decide : 0 ∉ literal "cpu"),
        List.forall_mem_cons.mpr ⟨trivial, List.forall_mem_cons.mpr ⟨trivial, nofun⟩⟩⟩⟩⟩

/-- The root's count of address cells, decoded. -/
def cpuEntry (nameView : StrView) (raw : ByteView) : Entry :=
  { Entry.ofRaw nameView raw with type := .addressCells, data := (Data.ofRaw raw).setLow32 1 }

theorem cpu_rewritten {nameView : StrView} {raw : ByteView} {hhdmBase : U64}
    {answers : Pmm.Answers} {bump : Bump.State}
    (hname : Denotes cpuBlob nameView.data nameView.size (literal "#address-cells"))
    (hvalue : Denotes cpuBlob raw.data raw.size (bigEndian32 1)) :
    recursivePropertyRewrite cpuBlob hhdmBase answers [.ofRaw nameView raw]
        (.node ⟨0, 0⟩ [] .none .none) bump =
      .ok (.empty, .node ⟨1, 1⟩ [cpuEntry nameView raw] (.node ⟨0, 0⟩ [] .none .none) .none,
        bump) := by
  have hkeyword : keywordOf cpuBlob nameView = some .addressCells :=
    (keywordOf_eq hname (by decide)).trans (by decide)
  have hinteger : readBigEndian32 cpuBlob raw.data = 1 := readBigEndian32_of_holds hvalue.2
  have hfirst : firstLap cpuBlob hhdmBase answers [.ofRaw nameView raw] ⟨2, 1⟩ bump =
      .ok (.empty, [cpuEntry nameView raw], ⟨1, 1⟩, bump) := by
    rw [firstLap, rewriteFirst, show (Entry.ofRaw nameView raw).name = nameView from rfl, hkeyword,
      show (Entry.ofRaw nameView raw).data.raw = raw from rfl, hinteger]
    rfl
  have hsecond : rewriteSecond cpuBlob hhdmBase answers none ⟨1, 1⟩ bump (cpuEntry nameView raw) =
      .ok (cpuEntry nameView raw, bump) := by
    rw [rewriteSecond, show (cpuEntry nameView raw).name = nameView from rfl, hkeyword]
  have hok : Error.empty.isErr = false := by decide
  rw [recursivePropertyRewrite, rewriteNodes, hfirst]
  simp only [ok_bind, pure_bind, hok, hsecond, rewriteNodes, firstLap, secondLap,
    Bool.false_eq_true, if_false]
  rfl

theorem parseFromBlob_refines_cpu :
    ∃ g, parseFromBlob cpuBlob 0x1000 0 (fun _ => .granted 0) 0x5000 6
        { records := { bump := { headers := fun _ => ⟨0, 0, 0⟩ } } } = .ok (.ofCode .success, g) ∧
      g.initialized = true ∧ ∃ forest slots propertySlots nameView raw,
        g.records.ForestList none forest g.root slots propertySlots ∧
        Denotes cpuBlob nameView.data nameView.size (literal "#address-cells") ∧
        forest.nodes =
          .node ⟨1, 1⟩ [cpuEntry nameView raw] (.node ⟨0, 0⟩ [] .none .none) .none := by
  obtain ⟨name, properties, children, -, hproperties, hchildren, -, hreturns⟩ :=
    @parseFromBlob_refines _ _ 0 0x5000 (fun _ => .granted 0) 6 _ { headers := fun _ => ⟨0, 0, 0⟩ }
      blob_cpu (by decide) (by decide)
  obtain ⟨later, nameView, raw, rfl, hlater, hname, hvalue⟩ := hproperties
  obtain rfl : later = [] := hlater
  obtain ⟨others, leaf, own, below, rfl, hothers, -, hown, hbelow⟩ := hchildren
  obtain rfl : others = .none := hothers
  obtain rfl : own = [] := hown
  obtain rfl : below = .none := hbelow
  obtain ⟨err, g, hcall, hdone⟩ := hreturns _ (cpu_rewritten hname hvalue)
  obtain ⟨forest, slots, propertySlots, hlist, -, -, hnodes, -⟩ := hdone.tree
  have hok : Error.empty.isErr = false := by decide
  obtain rfl : err = .ofCode .success :=
    hdone.err.trans (if_neg (ne_true_of_eq_false hok))
  exact ⟨g, hcall, hdone.initialized.trans (congrArg not hok), forest, slots, propertySlots, nameView, raw, hlist, hname,
    hnodes⟩

end DeviceTree

end Octiron
