import Octiron.DeviceTree.Tokens

/-! What the events of the token loop do to the two stacks.  A step changes the
record of `current` and, when it opens a node, a new one; all other records stay. -/
namespace Octiron.DeviceTree.Parser

open Exec

/-- The stacks are in order and `current` is a node in use. -/
structure Sound (p : Parser) : Prop where
  nodes : p.nodes.WF
  properties : p.properties.WF
  current : ∀ cur, p.current = some cur → p.nodes.Allocated cur

/-- The head of the children of the current node, if there is one. -/
def childrenHead (p : Parser) : Ptr := p.current.bind fun cur => (p.nodes.record cur).children

structure Opened (p p' : Parser) (new : Slot) (name : StrView) : Prop where
  sound : p'.Sound
  size : p'.nodes.size = p.nodes.size + 1
  properties : p'.properties = p.properties
  current : p'.current = some new
  fresh : ¬ p.nodes.Allocated new
  keeps : ∀ t, p.nodes.Allocated t → p'.nodes.Allocated t
  record : p'.nodes.record new = ⟨name, 0, 0, none, p.current, none, p.childrenHead⟩
  parent : ∀ cur, p.current = some cur →
    p'.nodes.record cur = { p.nodes.record cur with children := some new }
  frame : ∀ t, p.nodes.Allocated t → p.current ≠ some t → p'.nodes.record t = p.nodes.record t

theorem Sound.openNode {p : Parser} (h : p.Sound) (name : StrView) :
    Opened p (p.openNode name)
      (p.nodes.emplaceBack sizeofNode ⟨name, 0, 0, none, p.current, none, none⟩).1 name := by
  have hnew := @Stack.WF.emplaceBack _ _ h.nodes sizeofNode (by decide) (by decide)
    ⟨name, 0, 0, none, p.current, none, none⟩
  unfold Parser.openNode
  generalize p.nodes.emplaceBack sizeofNode ⟨name, 0, 0, none, p.current, none, none⟩ =
    result at hnew ⊢
  obtain ⟨new, nodes⟩ := result
  dsimp only at hnew ⊢
  cases hcurrent : p.current with
  | none =>
    refine ⟨⟨hnew.wf, h.properties, ?_⟩, hnew.size, rfl, rfl, hnew.fresh, hnew.keeps, ?_, ?_, ?_⟩
    · rintro cur ⟨⟩
      exact hnew.allocated
    · exact hnew.value.trans (by rw [childrenHead, hcurrent]; rfl)
    · exact fun cur hcur => nomatch hcurrent.symm.trans hcur
    · exact fun t ht _ => hnew.frame t ht
  | some cur =>
    have hcur := h.current cur hcurrent
    have hne : new ≠ cur := fun heq => hnew.fresh (heq ▸ hcur)
    have hold : nodes.record cur = p.nodes.record cur := hnew.frame cur hcur
    refine ⟨⟨?_, h.properties, ?_⟩, hnew.size, rfl, rfl, hnew.fresh, hnew.keeps, ?_, ?_, ?_⟩
    · dsimp only
      exact (hnew.wf.modify new _).modify cur _
    · rintro _ ⟨⟩
      exact hnew.allocated
    · rw [Stack.record_modify_of_ne _ _ hne, Stack.record_modify_same, hnew.value, hold,
        childrenHead, hcurrent]
      rfl
    · intro other hother
      obtain rfl := Option.some.inj (hcurrent.symm.trans hother)
      rw [Stack.record_modify_same, Stack.record_modify_of_ne _ _ hne.symm, hold]
    · intro t ht hother
      have htcur : t ≠ cur := fun heq => hother (heq ▸ hcurrent)
      have htnew : t ≠ new := fun heq => hnew.fresh (heq ▸ ht)
      rw [Stack.record_modify_of_ne _ _ htcur, Stack.record_modify_of_ne _ _ htnew,
        hnew.frame t ht]

/-- The loop's own counter plays no part in it. -/
theorem Opened.withDepth {p p' : Parser} {new : Slot} {name : StrView} (h : Opened p p' new name)
    (depth : U64) : Opened p { p' with depth := depth } new name :=
  ⟨⟨h.sound.nodes, h.sound.properties, h.sound.current⟩, h.size, h.properties, h.current, h.fresh,
    h.keeps, h.record, h.parent, h.frame⟩

theorem Sound.step_openNode {p : Parser} (h : p.Sound) (name : StrView) :
    ∃ new p', p.step (.openNode name) = .ok p' ∧ Opened p p' new name :=
  ⟨_, _, rfl, (h.openNode name).withDepth _⟩

/-- No step changes the parent of a node in use. -/
theorem Opened.parent_eq {p p' : Parser} {new t : Slot} {name : StrView} (h : Opened p p' new name)
    (ht : p.nodes.Allocated t) : (p'.nodes.record t).parent = (p.nodes.record t).parent := by
  by_cases hcur : p.current = some t
  · rw [h.parent t hcur]
  · rw [h.frame t ht hcur]

structure Added (p p' : Parser) (cur new : Slot) (name : StrView) (value : ByteView) : Prop where
  sound : p'.Sound
  size : p'.nodes.size = p.nodes.size
  buffers : p'.nodes.buffers = p.nodes.buffers
  current : p'.current = p.current
  depth : p'.depth = p.depth
  fresh : ¬ p.properties.Allocated new
  allocated : p'.properties.Allocated new
  keeps : ∀ t, p.nodes.Allocated t → p'.nodes.Allocated t
  keepsProperties : ∀ t, p.properties.Allocated t → p'.properties.Allocated t
  record : p'.properties.record new =
    ⟨name, (p.nodes.record cur).properties, .raw, .ofRaw value⟩
  frameProperties : ∀ t, p.properties.Allocated t →
    p'.properties.record t = p.properties.record t
  owner : p'.nodes.record cur = { p.nodes.record cur with properties := some new }
  frame : ∀ t, t ≠ cur → p'.nodes.record t = p.nodes.record t

theorem Sound.addProperty {p : Parser} {cur : Slot} (h : p.Sound) (hcurrent : p.current = some cur)
    (name : StrView) (value : ByteView) :
    ∃ new p', p.addProperty name value = .ok p' ∧ Added p p' cur new name value := by
  have hnew := @Stack.WF.emplaceBack _ _ h.properties sizeofProperty (by decide) (by decide)
    ⟨name, (p.nodes.record cur).properties, .raw, .ofRaw value⟩
  unfold Parser.addProperty
  rw [hcurrent]
  dsimp only
  refine ⟨_, _, rfl, ⟨?_, hnew.wf, ?_⟩, rfl, rfl, hcurrent.symm, rfl, hnew.fresh,
    hnew.allocated, fun _ ht => ht, hnew.keeps, hnew.value, hnew.frame, ?_, ?_⟩
  · dsimp only
    exact h.nodes.modify cur _
  · exact fun other hother => h.current other (hcurrent.trans hother)
  · dsimp only
    exact Stack.record_modify_same p.nodes cur _
  · intro t ht
    dsimp only
    exact Stack.record_modify_of_ne p.nodes _ ht

theorem Added.parent_eq {p p' : Parser} {cur new : Slot} {name : StrView} {value : ByteView}
    (h : Added p p' cur new name value) (t : Slot) :
    (p'.nodes.record t).parent = (p.nodes.record t).parent := by
  by_cases ht : t = cur
  · rw [ht, h.owner]
  · rw [h.frame t ht]

theorem addProperty_of_none {p : Parser} (h : p.current = none) (name : StrView)
    (value : ByteView) : p.addProperty name value = .error .nullDeref := by
  rw [addProperty, h]

theorem closeNode_of_some {p : Parser} {cur : Slot} (h : p.current = some cur) :
    p.closeNode = .ok { p with
      current := (p.nodes.record cur).parent
      depth := p.depth - 1 } := by
  rw [closeNode, h]

theorem closeNode_of_none {p : Parser} (h : p.current = none) :
    p.closeNode = .error .nullDeref := by
  rw [closeNode, h]

end Octiron.DeviceTree.Parser
