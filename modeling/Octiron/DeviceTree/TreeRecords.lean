import Octiron.DeviceTree.Blocks

/-! A tree as it lies in memory: the records of its nodes and properties, linked by
pointers, and where they are. -/
namespace Octiron.DeviceTree.InMemory

open Lib.Word Lib.ByteMemory Exec Pmm

/-- Where the records of a list of siblings are, and those of their properties. -/
inductive Places where
  | none
  | node (place : U64) (properties : List U64) (children nextSibling : Places)

def propertySpans (properties : List U64) : List (U64 × Nat) := properties.map fun prop => (prop, 80)

namespace Places

def head : Places → U64
  | none => 0
  | node place _ _ _ => place

/-- The nodes, each in front of what is below it. -/
def nodes : Places → List U64
  | none => []
  | node place _ children nextSibling => place :: (children.nodes ++ nextSibling.nodes)

/-- The bytes of all these records. -/
def spans : Places → List (U64 × Nat)
  | none => []
  | node place properties children nextSibling =>
    (place, 56) :: (propertySpans properties ++ (children.spans ++ nextSibling.spans))

/-- No two records overlap. -/
def Distinct (places : Places) : Prop := places.spans.Pairwise fun a b => Apart a.1 a.2 b.1 b.2

end Places

/-- A property in memory. -/
structure PropertyAt (m : Mem) (prop next : U64) (entry : Entry) : Prop where
  notNull : prop ≠ 0
  name : viewAt m prop = entry.name
  next : nextPropertyAt m prop = next
  type : typeAt m prop = entry.type.val
  data : dataAt m prop = entry.data

/-- A list of properties, one linked to the next. -/
def PropertiesAt (m : Mem) : List U64 → List Entry → Prop
  | [], [] => True
  | prop :: properties, entry :: rest =>
    PropertyAt m prop (properties.headD 0) entry ∧ PropertiesAt m properties rest
  | _, _ => False

/-- A node in memory. -/
structure NodeAt (m : Mem) (node parent properties children nextSibling : U64) (cells : Cells) :
    Prop where
  notNull : node ≠ 0
  cells : cellsAt m node = cells
  parent : parentAt m node = parent
  properties : propertiesAt m node = properties
  children : childrenAt m node = children
  nextSibling : nextSiblingAt m node = nextSibling

/-- A list of siblings, each with its properties and its children. -/
def NodesAt (m : Mem) (parent : U64) : Places → Nodes → Prop
  | .none, .none => True
  | .node place properties children nextSibling, .node cells entries below beside =>
    NodeAt m place parent (properties.headD 0) children.head nextSibling.head cells ∧
      PropertiesAt m properties entries ∧ NodesAt m place children below ∧
      NodesAt m parent nextSibling beside
  | _, _ => False

section Decisions

instance (m : Mem) (prop next : U64) (entry : Entry) : Decidable (PropertyAt m prop next entry) :=
  decidable_of_iff (prop ≠ 0 ∧ viewAt m prop = entry.name ∧ nextPropertyAt m prop = next ∧
      typeAt m prop = entry.type.val ∧ dataAt m prop = entry.data)
    ⟨fun ⟨hnull, hname, hnext, htype, hdata⟩ => ⟨hnull, hname, hnext, htype, hdata⟩,
      fun h => ⟨h.notNull, h.name, h.next, h.type, h.data⟩⟩

instance (m : Mem) (node parent properties children nextSibling : U64) (cells : Cells) :
    Decidable (NodeAt m node parent properties children nextSibling cells) :=
  decidable_of_iff (node ≠ 0 ∧ cellsAt m node = cells ∧ parentAt m node = parent ∧
      propertiesAt m node = properties ∧ childrenAt m node = children ∧
      nextSiblingAt m node = nextSibling)
    ⟨fun ⟨hnull, hcells, hparent, hproperties, hchildren, hnext⟩ =>
      ⟨hnull, hcells, hparent, hproperties, hchildren, hnext⟩,
      fun h => ⟨h.notNull, h.cells, h.parent, h.properties, h.children, h.nextSibling⟩⟩

instance decidePropertiesAt (m : Mem) : ∀ props entries, Decidable (PropertiesAt m props entries)
  | [], [] => inferInstanceAs (Decidable True)
  | prop :: props, entry :: rest =>
    have := decidePropertiesAt m props rest
    inferInstanceAs (Decidable (PropertyAt m prop (props.headD 0) entry ∧ PropertiesAt m props rest))
  | [], _ :: _ => inferInstanceAs (Decidable False)
  | _ :: _, [] => inferInstanceAs (Decidable False)

instance decideNodesAt (m : Mem) : ∀ parent places nodes, Decidable (NodesAt m parent places nodes)
  | _, .none, .none => inferInstanceAs (Decidable True)
  | parent, .node place properties children nextSibling, .node cells entries below beside =>
    have := decideNodesAt m place children below
    have := decideNodesAt m parent nextSibling beside
    inferInstanceAs (Decidable (NodeAt m place parent (properties.headD 0) children.head
        nextSibling.head cells ∧ PropertiesAt m properties entries ∧ NodesAt m place children below ∧
      NodesAt m parent nextSibling beside))
  | _, .none, .node .. => inferInstanceAs (Decidable False)
  | _, .node .., .none => inferInstanceAs (Decidable False)

end Decisions

section Frames

variable {m m' : Mem} {prop next node parent properties children nextSibling : U64}
  {entry entry' : Entry} {cells cells' : Cells}

theorem PropertyAt.congr (h : PropertyAt m prop next entry)
    (hsame : ∀ x, Within x prop 80 → m' x = m x) : PropertyAt m' prop next entry := by
  have hrecord := sameProperty_of_bytes hsame
  exact ⟨h.notNull, hrecord.name.trans h.name, hrecord.next.trans h.next,
    hrecord.type.trans h.type, hrecord.data.trans h.data⟩

/-- A turn writes behind the name and the link. -/
theorem PropertyAt.rewritten (h : PropertyAt m prop next entry)
    (hsame : ∀ x, Within x prop 24 → m' x = m x) (hname : entry'.name = entry.name)
    (htype : typeAt m' prop = entry'.type.val) (hdata : dataAt m' prop = entry'.data) :
    PropertyAt m' prop next entry' where
  notNull := h.notNull
  name := by
    rw [viewAt_congr fun x hx => hsame x (hx.trans (by decide)), h.name, hname]
  next := by
    rw [← h.next]
    exact load64_congr fun x hx => hsame x (within_field hx (by decide) (by decide))
  type := htype
  data := hdata

theorem PropertiesAt.congr {props : List U64} {entries : List Entry} (h : PropertiesAt m props entries)
    (hsame : ∀ x, Covered (propertySpans props) x → m' x = m x) : PropertiesAt m' props entries := by
  induction props generalizing entries with
  | nil => cases entries <;> exact h
  | cons prop props ih =>
    cases entries with
    | nil => exact h
    | cons entry rest =>
      exact ⟨h.1.congr fun x hx => hsame x ⟨_, List.mem_cons_self, hx⟩,
        ih h.2 fun x ⟨r, hr, hx⟩ => hsame x ⟨r, List.mem_cons_of_mem _ hr, hx⟩⟩

theorem PropertiesAt.length_eq {props : List U64} {entries : List Entry}
    (h : PropertiesAt m props entries) : props.length = entries.length := by
  induction props generalizing entries with
  | nil =>
    cases entries with
    | nil => rfl
    | cons entry rest => exact h.elim
  | cons prop props ih =>
    cases entries with
    | nil => exact h.elim
    | cons entry rest => exact congrArg Nat.succ (ih h.2)

theorem NodeAt.congr (h : NodeAt m node parent properties children nextSibling cells)
    (hsame : ∀ x, Within x node 56 → m' x = m x) :
    NodeAt m' node parent properties children nextSibling cells := by
  have hrecord := sameNode_of_bytes hsame
  exact ⟨h.notNull, hrecord.cells.trans h.cells, hrecord.parent.trans h.parent,
    hrecord.properties.trans h.properties, hrecord.children.trans h.children,
    hrecord.nextSibling.trans h.nextSibling⟩

/-- The pass writes the cell counts of a node and nothing else. -/
theorem NodeAt.setCells (h : NodeAt m node parent properties children nextSibling cells)
    (hsame : ∀ x, Within x node 56 → ¬ Within x (node + 16) 8 → m' x = m x)
    (hcells : cellsAt m' node = cells') :
    NodeAt m' node parent properties children nextSibling cells' := by
  have hword : ∀ i : U64, 24 ≤ i.toNat ∧ i.toNat + 8 ≤ 56 →
      load64 m' (node + i) = load64 m (node + i) := fun i hi => load64_congr fun x hx =>
    hsame x (within_field hx hi.2 (by decide)) (apart_fields (hi.2.trans (by decide)) (by decide)
      (.inr (hi.1.trans' (by decide))) x hx)
  exact ⟨h.notNull, hcells, (hword 32 (by decide)).trans h.parent,
    (hword 24 (by decide)).trans h.properties, (hword 40 (by decide)).trans h.children,
    (hword 48 (by decide)).trans h.nextSibling⟩

theorem NodesAt.congr {places : Places} {nodes : Nodes} (h : NodesAt m parent places nodes)
    (hsame : ∀ x, Covered places.spans x → m' x = m x) : NodesAt m' parent places nodes := by
  induction places generalizing parent nodes with
  | none => cases nodes <;> exact h
  | node place properties children nextSibling ihChildren ihNext =>
    cases nodes with
    | none => exact h
    | node cells entries below beside =>
      obtain ⟨hnode, hproperties, hbelow, hbeside⟩ := h
      refine ⟨hnode.congr fun x hx => hsame x ⟨_, List.mem_cons_self, hx⟩, hproperties.congr ?_,
        ihChildren hbelow ?_, ihNext hbeside ?_⟩
      · rintro x ⟨r, hr, hx⟩
        exact hsame x ⟨r, List.mem_cons_of_mem _ (List.mem_append_left _ hr), hx⟩
      · rintro x ⟨r, hr, hx⟩
        exact hsame x ⟨r, List.mem_cons_of_mem _ (List.mem_append_right _
          (List.mem_append_left _ hr)), hx⟩
      · rintro x ⟨r, hr, hx⟩
        exact hsame x ⟨r, List.mem_cons_of_mem _ (List.mem_append_right _
          (List.mem_append_right _ hr)), hx⟩

end Frames

end Octiron.DeviceTree.InMemory
