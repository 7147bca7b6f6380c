import Octiron.DeviceTree.Balance

/-! Encoded trees, and what it means for the records in memory to be one: lists in
reverse order of appearance, each node under its parent, each record once. -/
namespace Octiron.DeviceTree

open Lib.ByteMemory

/-- The contents of a node in order of appearance. -/
inductive Items where
  | nil
  | nop (rest : Items)
  | prop (nameOffset : U32) (name value : List U8) (rest : Items)
  | node (name : List U8) (body rest : Items)

namespace Items

def tokens : Items → List Token
  | nil => []
  | nop rest => .nop :: rest.tokens
  | prop nameOffset name value rest => .prop nameOffset name value :: rest.tokens
  | node name body rest => .beginNode name :: (body.tokens ++ .endNode :: rest.tokens)

/-- The nodes below the one with these contents. -/
def nodeCount : Items → Nat
  | nil => 0
  | nop rest => rest.nodeCount
  | prop _ _ _ rest => rest.nodeCount
  | node _ body rest => 1 + body.nodeCount + rest.nodeCount

theorem body_filter (items : Items) :
    Body (items.tokens.filter fun token => token ≠ .nop) := by
  induction items with
  | nil => exact .nil
  | nop rest ih => simpa [tokens] using ih
  | prop nameOffset name value rest ih => simpa [tokens] using ih.prop
  | node name body rest ihbody ihrest => simpa [tokens] using @Body.node name _ _ ihbody ihrest

end Items

/-- A structure block of one root node, with NOPs before and after it too. -/
structure Tree where
  leading : Nat
  name : List U8
  body : Items
  trailing : Nat

namespace Tree

def tokens (tree : Tree) : List Token :=
  List.replicate tree.leading .nop ++
    .beginNode tree.name :: (tree.body.tokens ++ .endNode :: List.replicate tree.trailing .nop)

def nodeCount (tree : Tree) : Nat := 1 + tree.body.nodeCount

theorem singleRoot (tree : Tree) : SingleRoot tree.tokens := by
  have hnops : ∀ k, (List.replicate k Token.nop).filter (fun token => token ≠ .nop) = [] := by
    intro k
    simp
  refine ⟨tree.name, _, tree.body.body_filter, ?_⟩
  rw [tokens, List.filter_append, hnops, List.nil_append, List.filter_cons_of_pos (by simp),
    List.filter_append, List.filter_cons_of_pos (by simp), hnops]

end Tree

section Memory

variable (m : Mem) (nodes : Slot → Node) (properties : Slot → Property)

/-- The property list from `head` down to `tail` holds the properties among the items,
last one first; `slots` are its records, first property first. -/
def PropertiesFrom : Items → Ptr → Ptr → List Slot → Prop
  | .nil, head, tail, slots => head = tail ∧ slots = []
  | .nop rest, head, tail, slots => PropertiesFrom rest head tail slots
  | .node _ _ rest, head, tail, slots => PropertiesFrom rest head tail slots
  | .prop _ name value rest, head, tail, slots => ∃ slot others, slots = slot :: others ∧
      PropertiesFrom rest head (some slot) others ∧
      Denotes m (properties slot).name.data (properties slot).name.size name ∧
      (properties slot).type = .raw ∧
      Denotes m (properties slot).data.raw.data (properties slot).data.raw.size value ∧
      (properties slot).nextProperty = tail

/-- The children list from `head` down to `tail` holds the nodes among the items, last
one first, each with `parent` for its parent and with its own contents; `slots` are
the records of all nodes below, `propertySlots` those of their properties. -/
def NodesFrom (parent : Slot) : Items → Ptr → Ptr → List Slot → List Slot → Prop
  | .nil, head, tail, slots, propertySlots => head = tail ∧ slots = [] ∧ propertySlots = []
  | .nop rest, head, tail, slots, propertySlots =>
    NodesFrom parent rest head tail slots propertySlots
  | .prop _ _ _ rest, head, tail, slots, propertySlots =>
    NodesFrom parent rest head tail slots propertySlots
  | .node name body rest, head, tail, slots, propertySlots =>
    ∃ slot inner others own innerProperties otherProperties,
      slots = slot :: (inner ++ others) ∧
      propertySlots = own ++ innerProperties ++ otherProperties ∧
      NodesFrom parent rest head (some slot) others otherProperties ∧
      Denotes m (nodes slot).name.data (nodes slot).name.size name ∧
      (nodes slot).parent = some parent ∧
      (nodes slot).nextSibling = tail ∧
      PropertiesFrom m properties body (nodes slot).properties none own ∧
      NodesFrom slot body (nodes slot).children none inner innerProperties

/-- What is reachable from `root` is the tree, each record once. -/
def Represents (root : Slot) (tree : Tree) : Prop :=
  ∃ slots own propertySlots,
    Denotes m (nodes root).name.data (nodes root).name.size tree.name ∧
    PropertiesFrom m properties tree.body (nodes root).properties none own ∧
    NodesFrom m nodes properties root tree.body (nodes root).children none slots propertySlots ∧
    (root :: slots).Nodup ∧ (own ++ propertySlots).Nodup

variable {m nodes properties}

theorem PropertiesFrom.congr {properties' : Slot → Property} {items : Items} {head tail : Ptr}
    {slots : List Slot} (h : PropertiesFrom m properties items head tail slots)
    (hsame : ∀ s ∈ slots, properties' s = properties s) :
    PropertiesFrom m properties' items head tail slots := by
  induction items generalizing tail slots with
  | nil => exact h
  | nop rest ih => exact ih h hsame
  | node name body rest _ ih => exact ih h hsame
  | prop nameOffset name value rest ih =>
    obtain ⟨slot, others, rfl, hrest, hproperty⟩ := h
    obtain ⟨hslot, hothers⟩ := List.forall_mem_cons.mp hsame
    refine ⟨slot, others, rfl, ih hrest hothers, ?_⟩
    rw [hslot]
    exact hproperty

theorem NodesFrom.congr {nodes' : Slot → Node} {properties' : Slot → Property} {parent : Slot}
    {items : Items} {head tail : Ptr} {slots propertySlots : List Slot}
    (h : NodesFrom m nodes properties parent items head tail slots propertySlots)
    (hnodes : ∀ s ∈ slots, nodes' s = nodes s)
    (hproperties : ∀ s ∈ propertySlots, properties' s = properties s) :
    NodesFrom m nodes' properties' parent items head tail slots propertySlots := by
  induction items generalizing parent head tail slots propertySlots with
  | nil => exact h
  | nop rest ih => exact ih h hnodes hproperties
  | prop nameOffset name value rest ih => exact ih h hnodes hproperties
  | node name body rest ihbody ihrest =>
    obtain ⟨slot, inner, others, own, innerProperties, otherProperties, rfl, rfl, hrest, hname,
      hparent, hsibling, hown, hinner⟩ := h
    simp only [List.forall_mem_cons, List.forall_mem_append] at hnodes hproperties
    obtain ⟨hslot, hnodesInner, hnodesOthers⟩ := hnodes
    obtain ⟨⟨hpropsOwn, hpropsInner⟩, hpropsOthers⟩ := hproperties
    refine ⟨slot, inner, others, own, innerProperties, otherProperties, rfl, rfl,
      ihrest hrest hnodesOthers hpropsOthers, ?_⟩
    rw [hslot]
    exact ⟨hname, hparent, hsibling, hown.congr hpropsOwn, ihbody hinner hnodesInner hpropsInner⟩

end Memory

end Octiron.DeviceTree
