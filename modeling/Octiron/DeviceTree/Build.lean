import Octiron.DeviceTree.Tree

/-! Running the tokens of a node's contents builds those contents under the node, and
changes nothing else that was in use.  This holds across relocations: records that
were copied to a new buffer are still linked where they were made. -/
namespace Octiron.DeviceTree

open Lib.ByteMemory Exec Stack

variable {m : Mem}

/-- The contents are built under `cur`, in front of what was there. -/
structure Built (m : Mem) (p p' : Parser) (cur : Slot) (items : Items) : Prop where
  sound : p'.Sound
  current : p'.current = some cur
  size : p'.nodes.size = p.nodes.size + items.nodeCount
  keeps : ∀ t, p.nodes.Allocated t → p'.nodes.Allocated t
  keepsProperties : ∀ t, p.properties.Allocated t → p'.properties.Allocated t
  frame : ∀ t, p.nodes.Allocated t → t ≠ cur → p'.nodes.record t = p.nodes.record t
  frameProperties : ∀ t, p.properties.Allocated t →
    p'.properties.record t = p.properties.record t
  owner : ∃ props children, p'.nodes.record cur =
    { p.nodes.record cur with properties := props, children := children }
  contents : ∃ slots own propertySlots,
    New p.nodes p'.nodes slots ∧
    New p.properties p'.properties (own ++ propertySlots) ∧
    PropertiesFrom m p'.properties.record items (p'.nodes.record cur).properties
      (p.nodes.record cur).properties own ∧
    NodesFrom m p'.nodes.record p'.properties.record cur items (p'.nodes.record cur).children
      (p.nodes.record cur).children slots propertySlots

theorem Built.nil {p : Parser} {cur : Slot} (h : p.Sound) (hcurrent : p.current = some cur) :
    Built m p p cur .nil :=
  ⟨h, hcurrent, rfl, fun _ => id, fun _ => id, fun _ _ _ => rfl, fun _ _ => rfl, ⟨_, _, rfl⟩,
    [], [], [], .nil, .nil, ⟨rfl, rfl⟩, rfl, rfl, rfl⟩

theorem Built.nop {p p' : Parser} {cur : Slot} {rest : Items} (h : Built m p p' cur rest) :
    Built m p p' cur (.nop rest) :=
  ⟨h.sound, h.current, h.size, h.keeps, h.keepsProperties, h.frame, h.frameProperties, h.owner,
    h.contents⟩

/-- A property, then the rest. -/
theorem Built.prop {p p₁ p' : Parser} {cur new : Slot} {nameOffset : U32} {name value : List U8}
    {nameView : StrView} {valueView : ByteView} {rest : Items}
    (hadd : p.Added p₁ cur new nameView valueView)
    (hname : Denotes m nameView.data nameView.size name)
    (hvalue : Denotes m valueView.data valueView.size value) (h : Built m p₁ p' cur rest) :
    Built m p p' cur (.prop nameOffset name value rest) := by
  obtain ⟨slots, own, propertySlots, hslots, hproperties, hown, hnodes⟩ := h.contents
  obtain ⟨props, children, howner⟩ := h.owner
  have hrecord : p'.properties.record new =
      ⟨nameView, (p.nodes.record cur).properties, .raw, .ofRaw valueView⟩ :=
    (h.frameProperties new hadd.allocated).trans hadd.record
  refine ⟨h.sound, h.current, ?_, fun t ht => h.keeps t (hadd.keeps t ht),
    fun t ht => h.keepsProperties t (hadd.keepsProperties t ht), ?_, ?_, ⟨props, children, ?_⟩,
    slots, new :: own, propertySlots, ?_, ?_, ⟨new, own, rfl, ?_, ?_⟩, ?_⟩
  · rw [h.size, hadd.size]
    rfl
  · exact fun t ht hne => (h.frame t (hadd.keeps t ht) hne).trans (hadd.frame t hne)
  · exact fun t ht => (h.frameProperties t (hadd.keepsProperties t ht)).trans
      (hadd.frameProperties t ht)
  · rw [howner, hadd.owner]
  · exact ⟨hslots.nodup, fun s hs hold => hslots.fresh s hs (hadd.keeps s hold), hslots.allocated⟩
  · exact (New.one hadd.fresh hadd.allocated).append hproperties hadd.keepsProperties
      h.keepsProperties
  · rwa [hadd.owner] at hown
  · rw [hrecord]
    exact ⟨hname, rfl, hvalue, rfl⟩
  · rwa [hadd.owner] at hnodes

/-- A child, opened and closed, then the rest. -/
theorem Built.node {p p₁ p₂ p' : Parser} {cur new : Slot} {name : List U8} {view : StrView}
    {body rest : Items} (hcurrent : p.current = some cur) (hcur : p.nodes.Allocated cur)
    (hopen : p.Opened p₁ new view) (hname : Denotes m view.data view.size name)
    (hbody : Built m p₁ p₂ new body)
    (hrest : Built m { p₂ with current := some cur, depth := p₂.depth - 1 } p' cur rest) :
    Built m p p' cur (.node name body rest) := by
  obtain ⟨inner, own, innerProperties, hinner, hinnerProperties, hownProps, hinnerNodes⟩ :=
    hbody.contents
  obtain ⟨others, ownRest, otherProperties, hothers, hotherProperties, hrestProps, hrestNodes⟩ :=
    hrest.contents
  obtain ⟨props, children, howner⟩ := hrest.owner
  obtain ⟨newProps, newChildren, hnewOwner⟩ := hbody.owner
  have hnew : p₁.nodes.Allocated new := hopen.sound.current new hopen.current
  have hne : cur ≠ new := fun heq => hopen.fresh (heq ▸ hcur)
  have hcur₂ : p₂.nodes.record cur = { p.nodes.record cur with children := some new } :=
    (hbody.frame cur (hopen.keeps cur hcur) hne).trans (hopen.parent cur hcurrent)
  have hkeeps₂ : ∀ t, p.nodes.Allocated t → p₂.nodes.Allocated t :=
    fun t ht => hbody.keeps t (hopen.keeps t ht)
  have hnewRecord : p'.nodes.record new = p₂.nodes.record new :=
    hrest.frame new (hbody.keeps new hnew) hne.symm
  have hinnerFrame : ∀ s ∈ inner, p'.nodes.record s = p₂.nodes.record s := by
    intro s hs
    refine hrest.frame s (hinner.allocated s hs) ?_
    rintro rfl
    exact hinner.fresh s hs (hopen.keeps s hcur)
  have hpropsFrame : ∀ s ∈ own ++ innerProperties,
      p'.properties.record s = p₂.properties.record s :=
    fun s hs => hrest.frameProperties s (hinnerProperties.allocated s hs)
  obtain ⟨hownFrame, hinnerPropsFrame⟩ := List.forall_mem_append.mp hpropsFrame
  rw [hopen.properties] at hinnerProperties
  refine ⟨hrest.sound, hrest.current, ?_, fun t ht => hrest.keeps t (hkeeps₂ t ht), ?_, ?_, ?_,
    ⟨props, children, ?_⟩, new :: (inner ++ others), ownRest,
    own ++ innerProperties ++ otherProperties, ?_, ?_, ?_, new, inner, others, own,
    innerProperties, otherProperties, rfl, rfl, ?_, ?_⟩
  · rw [hrest.size]
    change p₂.nodes.size + _ = _
    rw [hbody.size, hopen.size, Items.nodeCount]
    omega
  · intro t ht
    rw [← hopen.properties] at ht
    exact hrest.keepsProperties t (hbody.keepsProperties t ht)
  · intro t ht htcur
    have htnew : t ≠ new := fun heq => hopen.fresh (heq ▸ ht)
    exact (hrest.frame t (hkeeps₂ t ht) htcur).trans ((hbody.frame t (hopen.keeps t ht) htnew).trans
      (hopen.frame t ht fun heq => htcur (Option.some.inj (heq.symm.trans hcurrent))))
  · intro t ht
    rw [← hopen.properties] at ht ⊢
    exact (hrest.frameProperties t (hbody.keepsProperties t ht)).trans (hbody.frameProperties t ht)
  · rw [howner]
    change { p₂.nodes.record cur with properties := props, children := children } = _
    rw [hcur₂]
  · exact (New.one hopen.fresh hnew).append (hinner.append hothers hbody.keeps hrest.keeps)
      hopen.keeps fun t ht => hrest.keeps t (hbody.keeps t ht)
  · refine (hinnerProperties.append hotherProperties ?_ hrest.keepsProperties).perm ?_
    · intro t ht
      rw [← hopen.properties] at ht
      exact hbody.keepsProperties t ht
    · exact List.perm_append_comm_assoc ..
  · change PropertiesFrom m _ rest _ (p₂.nodes.record cur).properties ownRest at hrestProps
    rw [hcur₂] at hrestProps
    exact hrestProps
  · change NodesFrom m _ _ cur rest _ (p₂.nodes.record cur).children others _ at hrestNodes
    rw [hcur₂] at hrestNodes
    exact hrestNodes
  · rw [hnewRecord]
    have hopened : p₂.nodes.record new = { p₁.nodes.record new with
        properties := newProps, children := newChildren } := hnewOwner
    rw [hopen.record] at hopened hownProps hinnerNodes
    refine ⟨?_, ?_, ?_, hownProps.congr hownFrame, hinnerNodes.congr hinnerFrame hinnerPropsFrame⟩
    · rw [hopened]
      exact hname
    · rw [hopened]
      exact hcurrent
    · rw [hopened, Parser.childrenHead, hcurrent]
      rfl

theorem forall₂_append_left {α β : Type} {R : α → β → Prop} {l₁ l₂ : List α} {l : List β}
    (h : List.Forall₂ R (l₁ ++ l₂) l) :
    ∃ l₁' l₂', l = l₁' ++ l₂' ∧ List.Forall₂ R l₁ l₁' ∧ List.Forall₂ R l₂ l₂' := by
  induction l₁ generalizing l with
  | nil => exact ⟨[], l, rfl, .nil, h⟩
  | cons a rest ih =>
    cases h with
    | cons hfirst hrest =>
      obtain ⟨l₁', l₂', rfl, h₁, h₂⟩ := ih hrest
      exact ⟨_ :: l₁', l₂', rfl, .cons hfirst h₁, h₂⟩

/-- Running the contents of the current node builds them. -/
theorem run_items (items : Items) {p : Parser} {cur : Slot} {events : List Event} (h : p.Sound)
    (hcurrent : p.current = some cur) (hevents : List.Forall₂ (Reads m) items.tokens events) :
    ∃ p', p.run events = .ok p' ∧ Built m p p' cur items := by
  induction items generalizing p cur events with
  | nil =>
    cases hevents
    exact ⟨p, rfl, .nil h hcurrent⟩
  | nop rest ih =>
    cases hevents with
    | cons hread hrest =>
      cases hread
      obtain ⟨p', hrun, hbuilt⟩ := ih h hcurrent hrest
      exact ⟨p', hrun, hbuilt.nop⟩
  | prop nameOffset name value rest ih =>
    cases hevents with
    | cons hread hrest =>
      cases hread with
      | addProperty hname hvalue =>
        obtain ⟨new, p₁, hstep, hadd⟩ := h.addProperty hcurrent _ _
        obtain ⟨p', hrun, hbuilt⟩ := ih hadd.sound (hadd.current.trans hcurrent) hrest
        refine ⟨p', ?_, hbuilt.prop hadd hname hvalue⟩
        rw [Parser.run, Parser.step, hstep]
        exact hrun
  | node name body rest ihbody ihrest =>
    cases hevents with
    | cons hread htail =>
      obtain ⟨bodyEvents, restEvents, rfl, hbodyEvents, hrestEvents⟩ := forall₂_append_left htail
      cases hread with
      | openNode hname =>
        obtain ⟨new, p₁, hstep, hopen⟩ := h.step_openNode _
        obtain ⟨p₂, hrun₂, hbuilt₂⟩ := ihbody hopen.sound hopen.current hbodyEvents
        cases hrestEvents with
        | cons hclose hrest =>
          cases hclose
          have hparent : (p₂.nodes.record new).parent = some cur := by
            obtain ⟨_, _, howner⟩ := hbuilt₂.owner
            rw [howner, hopen.record]
            exact hcurrent
          have hcur : p.nodes.Allocated cur := h.current cur hcurrent
          have hsound₃ : Parser.Sound { p₂ with current := some cur, depth := p₂.depth - 1 } := by
            refine ⟨hbuilt₂.sound.nodes, hbuilt₂.sound.properties, ?_⟩
            rintro _ ⟨⟩
            exact hbuilt₂.keeps cur (hopen.keeps cur hcur)
          obtain ⟨p', hrun, hbuilt⟩ := ihrest hsound₃ rfl hrest
          refine ⟨p', ?_, hbuilt₂.node hcurrent hcur hopen hname hbuilt⟩
          rw [Parser.run, hstep, ok_bind, Parser.run_append, hrun₂, ok_bind, Parser.run,
            Parser.step, Parser.closeNode_of_some hbuilt₂.current, hparent]
          exact hrun

end Octiron.DeviceTree
