import Octiron.DeviceTree.Build

/-! The tree the rewrite pass starts from.  What is linked from the first record ever
made is the encoded tree; `root` is the first record of the newest buffer, and once
the nodes were copied that is another record, which no node has for its parent. -/
namespace Octiron.DeviceTree

open Lib.ByteMemory Exec Stack

variable {m : Mem}

/-- The pointer is not to the first record of a later buffer. -/
def NotCopiedRoot (ptr : Ptr) : Prop := ∀ s, ptr = some s → s.index = 0 → s.buffer = 0

/-- The node stack is empty, or has its first buffer of 73 records, or has relocated. -/
def BuffersFor (st : Stack Node) : Prop :=
  st.size = 0 ∧ st.capacity = 0 ∧ st.buffers = 0 ∨
  1 ≤ st.size ∧ st.size ≤ 73 ∧ st.capacity = 73 ∧ st.buffers = 1 ∨
  73 < st.size ∧ 2 ≤ st.buffers

structure Rooted (p : Parser) : Prop where
  buffers : BuffersFor p.nodes
  parents : ∀ s, NotCopiedRoot (p.nodes.record s).parent
  current : NotCopiedRoot p.current

theorem BuffersFor.emplaceBack {st : Stack Node} (h : BuffersFor st) (node : Node) :
    BuffersFor (st.emplaceBack sizeofNode node).2 ∧
      NotCopiedRoot (some (st.emplaceBack sizeofNode node).1) := by
  unfold Stack.emplaceBack Stack.grow
  rcases h with ⟨hsize, hcapacity, hbuffers⟩ | ⟨hlow, hhigh, hcapacity, hbuffers⟩ | ⟨hmany, hbuffers⟩
  · rw [if_pos (hsize.trans hcapacity.symm)]
    refine ⟨.inr (.inl ⟨?_, ?_, ?_, ?_⟩), ?_⟩
    · exact Nat.le_add_left 1 _
    · change st.size + 1 ≤ 73
      omega
    · change newCapacity st.capacity sizeofNode = 73
      rw [hcapacity]
      rfl
    · change st.buffers + 1 = 1
      omega
    · rintro _ ⟨⟩ -
      change st.buffers + 1 - 1 = 0
      omega
  · have hnew : ∀ st' : Stack Node, st'.size = st.size → NotCopiedRoot (some (st'.slot st'.size)) := by
      rintro st' hst' _ ⟨⟩ hzero
      change st'.size = 0 at hzero
      omega
    split
    · next hfull =>
      refine ⟨.inr (.inr ⟨?_, ?_⟩), hnew _ rfl⟩
      · change 73 < st.size + 1
        omega
      · change 2 ≤ st.buffers + 1
        omega
    · next hroom =>
      refine ⟨.inr (.inl ⟨Nat.le_add_left 1 _, ?_, hcapacity, hbuffers⟩), hnew st rfl⟩
      change st.size + 1 ≤ 73
      omega
  · have hnew : ∀ st' : Stack Node, st'.size = st.size → NotCopiedRoot (some (st'.slot st'.size)) := by
      rintro st' hst' _ ⟨⟩ hzero
      change st'.size = 0 at hzero
      omega
    have hmore : 73 < st.size + 1 := by omega
    split
    · exact ⟨.inr (.inr ⟨hmore, by change 2 ≤ st.buffers + 1; omega⟩), hnew _ rfl⟩
    · exact ⟨.inr (.inr ⟨hmore, hbuffers⟩), hnew st rfl⟩

/-- Relocation copies records, so every field in the new memory comes from a record of
the old one or is the new record's. -/
theorem record_emplaceBack (st : Stack Node) (node : Node) (s : Slot) :
    (st.emplaceBack sizeofNode node).2.record s = node ∨
      ∃ t, (st.emplaceBack sizeofNode node).2.record s = st.record t := by
  by_cases hnew : s = (st.emplaceBack sizeofNode node).1
  · exact .inl (by rw [hnew]; exact Function.update_self ..)
  · right
    have hold : (st.emplaceBack sizeofNode node).2.record s = (st.grow sizeofNode).record s :=
      Function.update_of_ne hnew ..
    rw [hold]
    unfold Stack.grow
    split
    · change ∃ t, st.relocated s = _
      unfold Stack.relocated
      split
      · exact ⟨_, rfl⟩
      · exact ⟨_, rfl⟩
    · exact ⟨s, rfl⟩

theorem Rooted.openNode {p : Parser} (h : Rooted p) (name : StrView) : Rooted (p.openNode name) := by
  obtain ⟨hbuffers, hnew⟩ := h.buffers.emplaceBack ⟨name, 0, 0, none, p.current, none, none⟩
  have hparents : ∀ s, NotCopiedRoot ((p.nodes.emplaceBack sizeofNode
      ⟨name, 0, 0, none, p.current, none, none⟩).2.record s).parent := by
    intro s
    rcases record_emplaceBack p.nodes ⟨name, 0, 0, none, p.current, none, none⟩ s with
      hnode | ⟨t, hold⟩
    · rw [hnode]
      exact h.current
    · rw [hold]
      exact h.parents t
  unfold Parser.openNode
  generalize p.nodes.emplaceBack sizeofNode ⟨name, 0, 0, none, p.current, none, none⟩ =
    result at hbuffers hnew hparents ⊢
  obtain ⟨new, nodes⟩ := result
  cases p.current with
  | none => exact ⟨hbuffers, hparents, hnew⟩
  | some cur =>
    refine ⟨hbuffers, fun s => ?_, hnew⟩
    dsimp only
    rw [Stack.field_modify _ cur _ Node.parent ?_, Stack.field_modify _ new _ Node.parent ?_]
    · exact hparents s
    · exact fun _ => rfl
    · exact fun _ => rfl

theorem Rooted.step {p p' : Parser} {event : Event} (h : Rooted p) (hstep : p.step event = .ok p') :
    Rooted p' := by
  cases event with
  | openNode name =>
    obtain rfl := Except.ok.inj hstep
    have hopen := h.openNode name
    exact ⟨hopen.buffers, hopen.parents, hopen.current⟩
  | closeNode =>
    cases hcurrent : p.current with
    | none => cases (Parser.closeNode_of_none hcurrent).symm.trans hstep
    | some cur =>
      obtain rfl := Except.ok.inj ((Parser.closeNode_of_some hcurrent).symm.trans hstep)
      exact ⟨h.buffers, h.parents, h.parents cur⟩
  | addProperty name value =>
    rw [Parser.step, Parser.addProperty] at hstep
    cases hcurrent : p.current with
    | none => cases (Parser.addProperty_of_none hcurrent name value).symm.trans hstep
    | some cur =>
      rw [hcurrent] at hstep
      obtain rfl := Except.ok.inj hstep
      refine ⟨h.buffers, fun s => ?_, hcurrent ▸ h.current⟩
      dsimp only
      rw [Stack.field_modify _ cur _ Node.parent ?_]
      · exact h.parents s
      · exact fun _ => rfl
  | skip =>
    obtain rfl := Except.ok.inj hstep
    exact h
  | refuse => cases hstep

theorem Rooted.run {p p' : Parser} {events : List Event} (h : Rooted p)
    (hrun : p.run events = .ok p') : Rooted p' := by
  induction events generalizing p with
  | nil =>
    obtain rfl := Except.ok.inj hrun
    exact h
  | cons event rest ih =>
    obtain ⟨p₁, hstep, hrest⟩ := bind_eq_ok.mp hrun
    exact ih (h.step hstep) hrest

theorem rooted_empty : Rooted {} := ⟨.inl ⟨rfl, rfl, rfl⟩, nofun, nofun⟩

theorem run_nops {k : Nat} {events : List Event} (p : Parser)
    (h : List.Forall₂ (Reads m) (List.replicate k .nop) events) : p.run events = .ok p := by
  induction k generalizing events with
  | zero =>
    cases h
    rfl
  | succ k ih =>
    cases h with
    | cons hread hrest =>
      cases hread
      have hrun := ih hrest
      exact hrun

/-- The events of a tree make its nodes, linked from the first record of the first
buffer. -/
theorem run_tree {tree : Tree} {events : List Event}
    (hevents : List.Forall₂ (Reads m) tree.tokens events) :
    ∃ p, Parser.run {} events = .ok p ∧ p.current = none ∧ p.nodes.size = tree.nodeCount ∧
      Represents m p.nodes.record p.properties.record ⟨0, 0⟩ tree := by
  obtain ⟨leading, events, rfl, hleading, hevents⟩ := forall₂_append_left hevents
  cases hevents with
  | cons hread htail =>
    obtain ⟨bodyEvents, events, rfl, hbody, htail⟩ := forall₂_append_left htail
    cases hread with
    | @openNode _ view hname =>
      cases htail with
      | cons hclose htrailing =>
        cases hclose
        have hopen := (tracks_empty.sound.openNode view).withDepth
          ((Parser.openNode {} view).depth + 1)
        obtain ⟨p, hrun, hbuilt⟩ := run_items tree.body hopen.sound hopen.current hbody
        obtain ⟨slots, own, propertySlots, hslots, hproperties, hown, hnodes⟩ := hbuilt.contents
        obtain ⟨props, children, howner⟩ := hbuilt.owner
        rw [hopen.record] at howner hown hnodes
        have hroot : ¬ (⟨0, 0⟩ : Slot) ∈ slots :=
          fun hmem => hslots.fresh _ hmem (hopen.sound.current _ hopen.current)
        refine ⟨{ p with current := none, depth := p.depth - 1 }, ?_, rfl, ?_, slots, own,
          propertySlots, ?_, hown, hnodes, List.nodup_cons.mpr ⟨hroot, hslots.nodup⟩,
          hproperties.nodup⟩
        · rw [Parser.run_append, run_nops {} hleading, ok_bind, Parser.run, Parser.step, ok_bind,
            Parser.run_append, hrun, ok_bind, Parser.run, Parser.step,
            Parser.closeNode_of_some hbuilt.current, ok_bind, howner]
          exact run_nops _ htrailing
        · exact hbuilt.size.trans (by rw [hopen.size]; rfl)
        · rw [show p.nodes.record ⟨0, 0⟩ = _ from howner]
          exact hname

/-- A list of children with a node in it has a record with that parent. -/
theorem NodesFrom.exists_parent {nodes : Slot → Node} {properties : Slot → Property}
    {parent : Slot} {items : Items} {head tail : Ptr} {slots propertySlots : List Slot}
    (h : NodesFrom m nodes properties parent items head tail slots propertySlots)
    (hcount : 0 < items.nodeCount) : ∃ s, (nodes s).parent = some parent := by
  induction items generalizing head tail slots propertySlots with
  | nil => exact absurd hcount (Nat.lt_irrefl _)
  | nop rest ih => exact ih h hcount
  | prop nameOffset name value rest ih => exact ih h hcount
  | node name body rest _ _ =>
    obtain ⟨slot, _, _, _, _, _, _, _, _, _, hparent, _⟩ := h
    exact ⟨slot, hparent⟩

/-- The loop gets through an encoded tree, and builds it from the first record on. -/
theorem parseStructures_tree {structures strings : U64} {tree : Tree} {turns : Nat}
    (h : Encoded m structures strings tree.tokens) (hturns : tree.tokens.length < turns) :
    ∃ p, parseStructures m structures strings turns {} = .ok (.ofCode .success, p) ∧
      Rooted p ∧ p.nodes.size = tree.nodeCount ∧
      Represents m p.nodes.record p.properties.record ⟨0, 0⟩ tree := by
  obtain ⟨events, hevents, hloop⟩ := h.tokenLoop_eq hturns
  obtain ⟨p, hrun, hcurrent, hsize, hrepresents⟩ := run_tree hevents
  have hcount : tree.nodeCount = 1 + tree.body.nodeCount := rfl
  refine ⟨p, ?_, rooted_empty.run hrun, hsize, hrepresents⟩
  rw [parseStructures, hloop, hrun, ok_bind, finish, hcurrent]
  exact if_neg (by omega)

/-- No node has the first record of a later buffer for its parent, so nothing below
it is linked back to it. -/
theorem Rooted.not_represents {p : Parser} {tree : Tree} (h : Rooted p)
    (hbuffers : 2 ≤ p.nodes.buffers) (hcount : 0 < tree.body.nodeCount) :
    ¬ Represents m p.nodes.record p.properties.record (p.nodes.slot 0) tree := by
  rintro ⟨slots, own, propertySlots, -, -, hnodes, -, -⟩
  obtain ⟨s, hs⟩ := hnodes.exists_parent hcount
  have hzero := h.parents s _ hs rfl
  change p.nodes.buffers - 1 = 0 at hzero
  omega

theorem BuffersFor.one_or_more {st : Stack Node} (h : BuffersFor st) (hsize : 0 < st.size) :
    st.size ≤ 73 ∧ st.buffers = 1 ∨ 73 < st.size ∧ 2 ≤ st.buffers := by
  rcases h with ⟨hnone, -, -⟩ | ⟨-, hfew, -, hbuffers⟩ | hmany
  · omega
  · exact .inl ⟨hfew, hbuffers⟩
  · exact .inr hmany

/-- The rewrite pass starts from the encoded tree exactly when its nodes fit in the
first buffer. -/
theorem represents_iff {structures strings : U64} {tree : Tree} {turns : Nat}
    (h : Encoded m structures strings tree.tokens) (hturns : tree.tokens.length < turns) :
    ∃ p, parseStructures m structures strings turns {} = .ok (.ofCode .success, p) ∧
      (Represents m p.nodes.record p.properties.record (p.nodes.slot 0) tree ↔
        tree.nodeCount ≤ 73) := by
  obtain ⟨p, hparse, hrooted, hsize, hrepresents⟩ := parseStructures_tree h hturns
  have hcount : tree.nodeCount = 1 + tree.body.nodeCount := rfl
  refine ⟨p, hparse, ?_⟩
  rcases hrooted.buffers.one_or_more (by omega) with ⟨hfew, hbuffers⟩ | ⟨hmany, hbuffers⟩
  · refine iff_of_true ?_ (by omega)
    rw [Stack.slot, hbuffers]
    exact hrepresents
  · exact iff_of_false (hrooted.not_represents hbuffers (by omega)) (by omega)

/-- So many leaves, all named `a`. -/
def leaves : Nat → Items
  | 0 => .nil
  | k + 1 => .node [0x61] .nil (leaves k)

/-- A nameless root with so many leaves. -/
def star (k : Nat) : Tree := ⟨0, [], leaves k, 0⟩

theorem wellFormed_leaves (strings : U64) (k : Nat) :
    ∀ token ∈ (leaves k).tokens, token.WellFormed m strings := by
  induction k with
  | zero => nofun
  | succ k ih =>
    refine List.forall_mem_cons.mpr ⟨by simp [Token.WellFormed], List.forall_mem_cons.mpr ⟨trivial, ?_⟩⟩
    exact ih

theorem wellFormed_star (strings : U64) (k : Nat) :
    ∀ token ∈ (star k).tokens, token.WellFormed m strings := by
  refine List.forall_mem_cons.mpr ⟨by simp [Token.WellFormed, star], ?_⟩
  refine List.forall_mem_append.mpr ⟨wellFormed_leaves strings k, ?_⟩
  exact List.forall_mem_singleton.mpr trivial

/-- A root with two leaves. -/
theorem represents_iff_twoLeaves :
    ∃ p, parseStructures (ofBytes 0x1000 (encodeAll (star 2).tokens)) 0x1000 0x2000 7 {} =
        .ok (.ofCode .success, p) ∧
      Represents (ofBytes 0x1000 (encodeAll (star 2).tokens)) p.nodes.record p.properties.record
        (p.nodes.slot 0) (star 2) := by
  obtain ⟨p, hparse, hiff⟩ := @represents_iff _ _ _ _ 7
    (@encoded_ofBytes 0x1000 0x2000 (star 2).tokens
      (by decide) (wellFormed_star _ 2)) (by decide)
  exact ⟨p, hparse, hiff.mpr (by decide)⟩

/-- With one node more than the first buffer holds, the children of `root` have the
record it was copied from for their parent. -/
theorem not_represents_manyLeaves :
    ∃ p, parseStructures (ofBytes 0x1000 (encodeAll (star 73).tokens)) 0x1000 0x2000 149 {} =
        .ok (.ofCode .success, p) ∧
      ¬ Represents (ofBytes 0x1000 (encodeAll (star 73).tokens)) p.nodes.record
        p.properties.record (p.nodes.slot 0) (star 73) := by
  obtain ⟨p, hparse, hrooted, hsize, -⟩ := @parseStructures_tree _ _ _ _ 149
    (@encoded_ofBytes 0x1000 0x2000 (star 73).tokens
      (by decide +kernel) (wellFormed_star _ 73)) (by decide +kernel)
  have hcount : (star 73).nodeCount = 74 := by decide +kernel
  refine ⟨p, hparse, ?_⟩
  rcases hrooted.buffers.one_or_more (by omega) with ⟨hfew, -⟩ | ⟨-, hbuffers⟩
  · omega
  · exact hrooted.not_represents hbuffers (by decide +kernel)

end Octiron.DeviceTree
