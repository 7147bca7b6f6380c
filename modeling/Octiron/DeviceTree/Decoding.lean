import Octiron.DeviceTree.Relocation

/-! The steps that the token loop performs, read off the records that they leave,
against the steps that an encoded tree stands for. -/
namespace Octiron.DeviceTree

open Lib.Word Lib.ByteMemory Exec

/-- A step of reading a tree, by the bytes it is about. -/
inductive TreeStep where
  | openNode (name : List U8)
  | addProperty (name value : List U8)
  | closeNode
  deriving DecidableEq

def Items.steps : Items → List TreeStep
  | nil => []
  | nop rest => rest.steps
  | prop _ name value rest => .addProperty name value :: rest.steps
  | node name body rest => .openNode name :: (body.steps ++ .closeNode :: rest.steps)

def Tree.steps (tree : Tree) : List TreeStep := .openNode tree.name :: (tree.body.steps ++ [.closeNode])

def Token.treeStep? : Token → Option TreeStep
  | beginNode name => some (.openNode name)
  | endNode => some .closeNode
  | prop _ name value => some (.addProperty name value)
  | _ => none

/-- What was done, by the bytes that the views show. -/
def Event.treeStep? (m : Mem) : Event → Option TreeStep
  | openNode name => some (.openNode (name.bytes m))
  | closeNode => some .closeNode
  | addProperty name value =>
    some (.addProperty (name.bytes m) ((StrView.ofByteView value).bytes m))
  | _ => none

namespace Parser

/-- The name in the record of the current node. -/
def currentName (p : Parser) : StrView :=
  match p.current with
  | none => ⟨0, 0⟩
  | some cur => (p.nodes.record cur).name

/-- The record of the current node's first property. -/
def firstProperty (p : Parser) : Property :=
  match p.current.bind fun cur => (p.nodes.record cur).properties with
  | none => .zero
  | some first => p.properties.record first

end Parser

/-- One step, and then what is performed after it. -/
def performed (event : Event) (x : Exec (List Event × U64 × Parser)) :
    Exec (List Event × U64 × Parser) := do
  let (events, result) ← x
  return (event :: events, result)

section Traced

variable (m : Mem) (structures strings : U64)

/-- The token loop once more, with the steps it performs: a node that was opened and a
property that was added are those the records now show. -/
def tracedLoop : Nat → U64 → Parser → Exec (List Event × U64 × Parser)
  | 0, _, _ => .error .endless
  | turns + 1, offset, p => do
    kassert (offset % 4 == 0)
    let token := readBigEndian32 m (structures + offset)
    let offset := offset + 4
    if token = structureBeginNode then
      let (offset, p) ← parseNode m structures p offset
      performed (.openNode p.currentName) (tracedLoop turns offset { p with depth := p.depth + 1 })
    else if token = structureEndNode then
      let p ← p.closeNode
      performed .closeNode (tracedLoop turns offset p)
    else if token = structureProp then
      let (offset, p) ← preParseProperty m structures strings p offset
      performed (.addProperty p.firstProperty.name p.firstProperty.data.raw)
        (tracedLoop turns offset p)
    else if token = structureNop then tracedLoop turns offset p
    else if token = structureEnd then
      if p.current.isSome then .error .panic else .ok ([], offset, p)
    else .error .panic

variable {m structures strings}

theorem map_performed (event : Event) (x : Exec (List Event × U64 × Parser)) :
    (performed event x).map Prod.snd = x.map Prod.snd := by
  cases x <;> rfl

/-- Without its steps it is the loop. -/
theorem map_tracedLoop (turns : Nat) (offset : U64) (p : Parser) :
    (tracedLoop m structures strings turns offset p).map Prod.snd =
      tokenLoop m structures strings turns offset p := by
  induction turns generalizing offset p with
  | zero => rfl
  | succ turns ih =>
    rw [tracedLoop, tokenLoop]
    cases kassert (offset % 4 == 0) with
    | error stop => rfl
    | ok u =>
      rw [ok_bind, ok_bind]
      dsimp only
      generalize readBigEndian32 m (structures + offset) = token
      by_cases hbegin : token = structureBeginNode
      · rw [if_pos hbegin, if_pos hbegin]
        cases parseNode m structures p (offset + 4) with
        | error stop => rfl
        | ok parsed => exact (map_performed _ _).trans (ih _ _)
      rw [if_neg hbegin, if_neg hbegin]
      by_cases hend : token = structureEndNode
      · rw [if_pos hend, if_pos hend]
        cases p.closeNode with
        | error stop => rfl
        | ok closed => exact (map_performed _ _).trans (ih _ _)
      rw [if_neg hend, if_neg hend]
      by_cases hprop : token = structureProp
      · rw [if_pos hprop, if_pos hprop]
        cases preParseProperty m structures strings p (offset + 4) with
        | error stop => rfl
        | ok parsed => exact (map_performed _ _).trans (ih _ _)
      rw [if_neg hprop, if_neg hprop]
      by_cases hnop : token = structureNop
      · rw [if_pos hnop, if_pos hnop]
        exact ih _ _
      rw [if_neg hnop, if_neg hnop]
      by_cases hlast : token = structureEnd
      · rw [if_pos hlast, if_pos hlast]
        split <;> rfl
      · rw [if_neg hlast, if_neg hlast]
        rfl

end Traced

section Turn

variable {m : Mem} {structures strings : U64} {k turns : Nat}

/-- What a turn adds to the steps, once it has left the parser so. -/
def Event.record (p : Parser) (event : Event) (x : Exec (List Event × U64 × Parser)) :
    Exec (List Event × U64 × Parser) :=
  match event with
  | .openNode _ => performed (.openNode p.currentName) x
  | .closeNode => performed .closeNode x
  | .addProperty _ _ =>
    performed (.addProperty p.firstProperty.name p.firstProperty.data.raw) x
  | _ => x

/-- One turn takes one token, does what its event says, and performs that step. -/
theorem tracedLoop_turn {token : Token} (hk : 4 ∣ k)
    (h : Holds m (structures + BitVec.ofNat 64 k) token.encode)
    (hwf : token.WellFormed m strings) (hfit : k + token.encode.length + 4 ≤ 2 ^ 64) :
    ∃ event, Reads m token event ∧ ∀ p,
      tracedLoop m structures strings (turns + 1) (BitVec.ofNat 64 k) p =
        (p.step event >>= fun p => event.record p
          (tracedLoop m structures strings turns (BitVec.ofNat 64 (k + token.encode.length)) p)) := by
  have hbody := (holds_append_at.mp h).2
  rw [bigEndian32_length] at hbody
  rw [encode_length] at hfit ⊢
  have hread : ∀ p, tracedLoop m structures strings (turns + 1) (BitVec.ofNat 64 k) p =
      (if token.word = structureBeginNode then
        parseNode m structures p (BitVec.ofNat 64 (k + 4)) >>= fun parsed =>
          performed (.openNode parsed.2.currentName) (tracedLoop m structures strings turns parsed.1
            { parsed.2 with depth := parsed.2.depth + 1 })
      else if token.word = structureEndNode then do
        let p ← p.closeNode
        performed .closeNode (tracedLoop m structures strings turns (BitVec.ofNat 64 (k + 4)) p)
      else if token.word = structureProp then
        preParseProperty m structures strings p (BitVec.ofNat 64 (k + 4)) >>= fun parsed =>
          performed (.addProperty parsed.2.firstProperty.name parsed.2.firstProperty.data.raw)
            (tracedLoop m structures strings turns parsed.1 parsed.2)
      else if token.word = structureNop then
        tracedLoop m structures strings turns (BitVec.ofNat 64 (k + 4)) p
      else if token.word = structureEnd then
        if p.current.isSome then .error .panic else .ok ([], BitVec.ofNat 64 (k + 4), p)
      else .error .panic) := by
    intro p
    rw [tracedLoop, kassert_aligned hk, ok_bind, read_word h, BitVec.ofNat_add]
    rfl
  rw [← Nat.add_assoc]
  cases token with
  | beginNode name =>
    obtain ⟨view, hview, hparse⟩ := parseNode_of_holds hbody hwf (by
      rw [Token.body] at hfit
      omega)
    refine ⟨_, .openNode hview, fun p => ?_⟩
    refine (hread p).trans ((if_pos rfl).trans ?_)
    rw [hparse]
    rfl
  | endNode => exact ⟨_, .closeNode, fun p => hread p⟩
  | prop nameOffset name value =>
    obtain ⟨nameView, valueView, hname, hvalue, hparse⟩ :=
      preParseProperty_of_holds hbody hwf
    refine ⟨_, .addProperty hname hvalue, fun p => ?_⟩
    have hbegin : structureProp ≠ structureBeginNode := by decide
    have hend : structureProp ≠ structureEndNode := by decide
    refine (hread p).trans ((if_neg hbegin).trans ((if_neg hend).trans ((if_pos rfl).trans ?_)))
    rw [hparse, Parser.step]
    cases p.addProperty nameView valueView with
    | error stop => rfl
    | ok p' => rfl
  | nop => exact ⟨_, .skip, fun p => hread p⟩
  | unknown word =>
    obtain ⟨hbegin, hend, hprop, hnop, hlast⟩ := hwf
    refine ⟨_, .refuse, fun p => ?_⟩
    rw [hread, Token.word, if_neg hbegin, if_neg hend, if_neg hprop, if_neg hnop, if_neg hlast]
    rfl

end Turn

section Records

variable {p p' : Parser} {cur new : Slot} {name : StrView} {value : ByteView}

theorem Parser.Opened.currentName (h : p.Opened p' new name) : p'.currentName = name := by
  rw [Parser.currentName, h.current]
  exact congrArg Node.name h.record

theorem Parser.Added.firstProperty (h : p.Added p' cur new name value)
    (hcurrent : p.current = some cur) :
    p'.firstProperty = ⟨name, (p.nodes.record cur).properties, .raw, .ofRaw value⟩ := by
  rw [Parser.firstProperty, h.current, hcurrent, Option.bind_some, h.owner]
  exact h.record

end Records

section Tokens

variable {m : Mem} {strings : U64} {token : Token} {tokens : List Token} {event : Event}

theorem length_encode_le (h : token ∈ tokens) : token.encode.length + 4 ≤ (encodeAll tokens).length := by
  induction tokens with
  | nil => cases h
  | cons first rest ih =>
    have hlast := encodeAll_length_pos rest
    rw [encodeAll, List.length_append]
    rcases List.mem_cons.mp h with rfl | hrest
    · omega
    · have := ih hrest
      omega

/-- The views of an event show what its token says. -/
theorem treeStep?_of_reads (h : Reads m token event) (hwf : token.WellFormed m strings)
    (hfit : token.encode.length ≤ 2 ^ 64) : event.treeStep? m = token.treeStep? := by
  cases h with
  | closeNode | skip | refuse => rfl
  | @openNode name view hname =>
    have hlength : name.length < 2 ^ 64 := by
      rw [encode_length, Token.body, padded_length, List.length_append] at hfit
      omega
    rw [Event.treeStep?, hname.bytes hlength]
    rfl
  | @addProperty nameOffset name value nameView valueView hname hvalue =>
    obtain ⟨hvalueLength, -, hnameLength, -⟩ := hwf
    have hbytes : (StrView.ofByteView valueView).bytes m = value :=
      Denotes.bytes (s := StrView.ofByteView valueView) hvalue (by omega)
    rw [Event.treeStep?, hname.bytes hnameLength, hbytes]
    rfl

end Tokens

/-- From anywhere in a stream that closes what is open, the loop performs the steps of
the remaining tokens and ends behind the last. -/
theorem tracedLoop_from {m : Mem} {structures strings : U64} {tokens : List Token}
    {k turns opened roots n : Nat} {p : Parser} (hk : 4 ∣ k)
    (h : Holds m (structures + BitVec.ofNat 64 k) (encodeAll tokens))
    (hwf : ∀ token ∈ tokens, token.WellFormed m strings)
    (hfit : k + (encodeAll tokens).length ≤ 2 ^ 64) (hturns : tokens.length < turns)
    (htracks : Tracks p opened roots) (hscan : scan opened roots tokens = .reaches n) :
    ∃ events p', tracedLoop m structures strings turns (BitVec.ofNat 64 k) p =
        .ok (events, BitVec.ofNat 64 (k + (encodeAll tokens).length), p') ∧
      p'.current = none ∧
      events.map (Event.treeStep? m) = (tokens.filterMap Token.treeStep?).map some := by
  induction tokens generalizing k turns opened roots p with
  | nil =>
    obtain ⟨turns, rfl⟩ := Nat.exists_eq_succ_of_ne_zero (Nat.ne_zero_of_lt hturns)
    have hclosed : opened = 0 := by
      by_contra hopen
      rw [scan, if_neg hopen] at hscan
      cases hscan
    subst hclosed
    have hcurrent : p.current = none := htracks.chain
    refine ⟨[], p, ?_, hcurrent, rfl⟩
    rw [tracedLoop, kassert_aligned hk, ok_bind, readBigEndian32_of_holds h, hcurrent,
      BitVec.ofNat_add]
    rfl
  | cons token rest ih =>
    obtain ⟨turns, rfl⟩ := Nat.exists_eq_succ_of_ne_zero (Nat.ne_zero_of_lt hturns)
    obtain ⟨hfirst, hrest⟩ := holds_append_at.mp h
    have hlast := encodeAll_length_pos rest
    have htoken := length_encode_le (List.mem_cons_self (a := token) (l := rest))
    have hfirstWf := hwf token List.mem_cons_self
    rw [encodeAll, List.length_append] at hfit ⊢
    obtain ⟨event, hevent, hturn⟩ := @tracedLoop_turn _ _ _ _ turns _ hk hfirst hfirstWf (by omega)
    have hstep := treeStep?_of_reads hevent hfirstWf (by omega)
    have hnext := fun (opened roots : Nat) (p : Parser) =>
      @ih (k + token.encode.length) turns opened roots p
        (Nat.dvd_add hk (four_dvd_encode_length token)) hrest
        (fun t ht => hwf t (List.mem_cons_of_mem _ ht)) (by omega) (Nat.lt_of_succ_lt_succ hturns)
    rw [hturn, ← Nat.add_assoc]
    cases hevent with
    | @openNode name view hname =>
      obtain ⟨p₁, hparse, htracks₁⟩ := htracks.openNode view
      obtain ⟨new, p₂, hparse₂, hopen⟩ := htracks.sound.step_openNode view
      obtain rfl := Except.ok.inj (hparse.symm.trans hparse₂)
      obtain ⟨events, p', hloop, hcurrent, hsteps⟩ := hnext _ _ _ htracks₁ hscan
      refine ⟨.openNode view :: events, p', ?_, hcurrent, ?_⟩
      · rw [hparse, ok_bind, Event.record, hopen.currentName, hloop]
        rfl
      · rw [List.map_cons, hstep, hsteps]
        rfl
    | closeNode =>
      cases opened with
      | zero => cases hscan
      | succ opened =>
        obtain ⟨p₁, hclose, htracks₁⟩ := htracks.closeNode
        obtain ⟨events, p', hloop, hcurrent, hsteps⟩ := hnext _ _ _ htracks₁ hscan
        refine ⟨.closeNode :: events, p', ?_, hcurrent, ?_⟩
        · rw [Parser.step, hclose, ok_bind, Event.record, hloop]
          rfl
        · rw [List.map_cons, hsteps]
          rfl
    | @addProperty nameOffset name value nameView valueView hname hvalue =>
      cases opened with
      | zero => cases hscan
      | succ opened =>
        obtain ⟨p₁, hadded, htracks₁⟩ := htracks.addProperty nameView valueView
        obtain ⟨cur, hcur, -, -⟩ := htracks.chain
        obtain ⟨new, p₂, hadded₂, hadd⟩ := htracks.sound.addProperty hcur nameView valueView
        obtain rfl := Except.ok.inj (hadded.symm.trans hadded₂)
        obtain ⟨events, p', hloop, hcurrent, hsteps⟩ := hnext _ _ _ htracks₁ hscan
        refine ⟨.addProperty nameView valueView :: events, p', ?_, hcurrent, ?_⟩
        · rw [Parser.step, hadded, ok_bind, Event.record, hadd.firstProperty hcur, hloop]
          rfl
        · rw [List.map_cons, hstep, hsteps]
          rfl
    | skip => exact hnext _ _ _ htracks hscan
    | refuse => cases hscan

section Tree

theorem Items.filterMap_tokens (items : Items) :
    items.tokens.filterMap Token.treeStep? = items.steps := by
  induction items with
  | nil => rfl
  | nop rest ih => exact ih
  | prop nameOffset name value rest ih =>
    rw [Items.tokens, Items.steps, ← ih]
    rfl
  | node name body rest ihbody ihrest =>
    rw [Items.tokens, Items.steps, ← ihbody, ← ihrest]
    simp only [List.filterMap_cons, List.filterMap_append, Token.treeStep?]

theorem Tree.filterMap_tokens (tree : Tree) :
    tree.tokens.filterMap Token.treeStep? = tree.steps := by
  have hnops : ∀ k, (List.replicate k Token.nop).filterMap Token.treeStep? = [] := by
    intro k
    induction k with
    | zero => rfl
    | succ k ih => rw [List.replicate_succ, List.filterMap_cons_none rfl, ih]
  rw [Tree.tokens, Tree.steps, List.filterMap_append, hnops, List.nil_append,
    ← Items.filterMap_tokens]
  simp only [List.filterMap_cons, List.filterMap_append, Token.treeStep?, hnops]

end Tree

/-- On an encoded tree the loop performs the steps of the tree, one by one, and ends
behind `END` with no node open. -/
theorem tokenLoop_decodes {m : Mem} {structures strings : U64} {tree : Tree} {turns : Nat}
    (h : Encoded m structures strings tree.tokens) (hturns : tree.tokens.length < turns) :
    ∃ events p,
      tracedLoop m structures strings turns 0 {} =
        .ok (events, BitVec.ofNat 64 (encodeAll tree.tokens).length, p) ∧
      tokenLoop m structures strings turns 0 {} =
        .ok (BitVec.ofNat 64 (encodeAll tree.tokens).length, p) ∧
      p.current = none ∧ events.map (Event.treeStep? m) = tree.steps.map some := by
  obtain ⟨events, p, hloop, hcurrent, hsteps⟩ := @tracedLoop_from m structures strings tree.tokens 0
    turns 0 0 1 {} (Nat.dvd_zero 4) (by rw [BitVec.add_zero]; exact h.holds) h.wellFormed
    (by rw [Nat.zero_add]; exact h.fits) hturns tracks_empty (scan_eq_one_iff.mpr tree.singleRoot)
  rw [Nat.zero_add] at hloop
  refine ⟨events, p, hloop, ?_, hcurrent, ?_⟩
  · rw [← map_tracedLoop, show tracedLoop m structures strings turns 0 {} = _ from hloop]
    rfl
  · rw [hsteps, tree.filterMap_tokens]

/-- A root named `a` with a NOP, a property that takes its name from the root's and has
three bytes, and an unnamed child. -/
def smallTree : Tree := ⟨1, [0x61], .nop (.prop 0 [0x61] [1, 2, 3] (.node [] .nil .nil)), 0⟩

theorem tokenLoop_decodes_smallTree :
    ∃ events p, tracedLoop (ofBytes 0x1000 (encodeAll smallTree.tokens)) 0x1000 0x1008 8 0 {} =
        .ok (events, 52, p) ∧ p.current = none ∧
      events.map (Event.treeStep? (ofBytes 0x1000 (encodeAll smallTree.tokens))) =
        [some (.openNode [0x61]), some (.addProperty [0x61] [1, 2, 3]), some (.openNode []),
          some .closeNode, some .closeNode] := by
  have h : Encoded (ofBytes 0x1000 (encodeAll smallTree.tokens)) 0x1000 0x1008
      smallTree.tokens := by
    apply encoded_ofBytes (by decide)
    simp only [smallTree, Tree.tokens, Items.tokens, List.replicate, List.cons_append,
      List.nil_append, List.forall_mem_cons, List.not_mem_nil, false_imp_iff, implies_true, and_true,
      Token.WellFormed]
    decide
  obtain ⟨events, p, hloop, -, hcurrent, hsteps⟩ := @tokenLoop_decodes _ _ _ _ 8 h (by decide)
  exact ⟨events, p, hloop, hcurrent, hsteps⟩

end Octiron.DeviceTree
