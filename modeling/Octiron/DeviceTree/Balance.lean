import Octiron.DeviceTree.Steps

/-! Which token streams the loop accepts.  The null test at `END` is the only check
of balance, so a stream with several roots passes it, and an `END_NODE` or a property
outside every node goes through the null `current`. -/
namespace Octiron.DeviceTree

open Lib.ByteMemory Exec

/-- The contents of a node, without NOPs. -/
inductive Body : List Token → Prop where
  | nil : Body []
  | prop {nameOffset : U32} {name value : List U8} {rest : List Token} (hrest : Body rest) :
      Body (.prop nameOffset name value :: rest)
  | node {name : List U8} {body rest : List Token} (hbody : Body body) (hrest : Body rest) :
      Body (.beginNode name :: (body ++ .endNode :: rest))

/-- The stream, with NOPs removed, is one balanced root node. -/
def SingleRoot (tokens : List Token) : Prop :=
  ∃ name body, Body body ∧
    tokens.filter (fun token => token ≠ .nop) = .beginNode name :: (body ++ [.endNode])

/-- The stream leads to the rewrite pass, with a node, exactly when it is a single
root; any other stream ends in a panic or an error. -/
structure AcceptsExactly (result : Exec (Error × Parser)) (tokens : List Token) : Prop where
  accepts : SingleRoot tokens →
    ∃ p, result = .ok (.ofCode .success, p) ∧ p.nodes.size ≠ 0
  rejects : ¬ SingleRoot tokens →
    result = .error .panic ∨ ∃ err p, result = .ok (err, p) ∧ err.isErr = true

/-- Read with so many nodes open and so many roots opened: up to the first unknown
word, nodes are closed and properties met inside open nodes only, and when the stream
ends with no node open it has not opened two roots. -/
def WellNested : Nat → Nat → List Token → Prop
  | opened, roots, [] => opened = 0 → roots ≤ 1
  | opened, roots, .beginNode _ :: rest =>
    WellNested (opened + 1) (if opened = 0 then roots + 1 else roots) rest
  | opened, roots, .endNode :: rest => 0 < opened ∧ WellNested (opened - 1) roots rest
  | opened, roots, .prop _ _ _ :: rest => 0 < opened ∧ WellNested opened roots rest
  | opened, roots, .nop :: rest => WellNested opened roots rest
  | _, _, .unknown _ :: _ => True

instance decidableWellNested : ∀ opened roots tokens, Decidable (WellNested opened roots tokens)
  | opened, roots, [] => inferInstanceAs (Decidable (opened = 0 → roots ≤ 1))
  | opened, roots, .beginNode _ :: rest =>
    decidableWellNested (opened + 1) (if opened = 0 then roots + 1 else roots) rest
  | opened, roots, .endNode :: rest =>
    have := decidableWellNested (opened - 1) roots rest
    inferInstanceAs (Decidable (0 < opened ∧ WellNested (opened - 1) roots rest))
  | opened, roots, .prop _ _ _ :: rest =>
    have := decidableWellNested opened roots rest
    inferInstanceAs (Decidable (0 < opened ∧ WellNested opened roots rest))
  | opened, roots, .nop :: rest => decidableWellNested opened roots rest
  | _, _, .unknown _ :: _ => .isTrue trivial

/-- How a stream ends: at the rewrite pass with so many roots, in a panic, or in a
null dereference. -/
inductive Outcome where
  | reaches (roots : Nat)
  | panics
  | traps
  deriving DecidableEq

def scan : Nat → Nat → List Token → Outcome
  | opened, roots, [] => if opened = 0 then .reaches roots else .panics
  | opened, roots, .beginNode _ :: rest =>
    scan (opened + 1) (if opened = 0 then roots + 1 else roots) rest
  | opened, roots, .endNode :: rest => if opened = 0 then .traps else scan (opened - 1) roots rest
  | opened, roots, .prop _ _ _ :: rest => if opened = 0 then .traps else scan opened roots rest
  | opened, roots, .nop :: rest => scan opened roots rest
  | _, _, .unknown _ :: _ => .panics

section Scan

variable {opened roots n : Nat} {tokens : List Token}

theorem wellNested_iff_scan : WellNested opened roots tokens ↔
    scan opened roots tokens ≠ .traps ∧ ∀ n, scan opened roots tokens = .reaches n → n ≤ 1 := by
  induction tokens generalizing opened roots with
  | nil =>
    by_cases h : opened = 0
    · simp [WellNested, scan, h]
    · simp [WellNested, scan, h]
  | cons token rest ih =>
    cases token with
    | beginNode name => exact ih
    | endNode =>
      by_cases h : opened = 0
      · simp [WellNested, scan, h]
      · rw [WellNested, scan, if_neg h, ← ih, and_iff_right (Nat.pos_of_ne_zero h)]
    | prop nameOffset name value =>
      by_cases h : opened = 0
      · simp [WellNested, scan, h]
      · rw [WellNested, scan, if_neg h, ← ih, and_iff_right (Nat.pos_of_ne_zero h)]
    | nop => exact ih
    | unknown word => simp [WellNested, scan]

theorem scan_filter : scan opened roots (tokens.filter fun token => token ≠ .nop) =
    scan opened roots tokens := by
  induction tokens generalizing opened roots with
  | nil => rfl
  | cons token rest ih =>
    simp only [ne_eq, decide_not] at ih ⊢
    cases token <;> simp [scan, ih]

theorem le_of_scan_eq (h : scan opened roots tokens = .reaches n) : roots ≤ n := by
  induction tokens generalizing opened roots with
  | nil =>
    rw [scan] at h
    split at h
    · cases h
      exact Nat.le_refl _
    · cases h
  | cons token rest ih =>
    cases token with
    | beginNode name =>
      have hle := ih h
      split at hle <;> omega
    | endNode =>
      rw [scan] at h
      split at h
      · cases h
      · exact ih h
    | prop nameOffset name value =>
      rw [scan] at h
      split at h
      · cases h
      · exact ih h
    | nop => exact ih h
    | unknown word => cases h

theorem Body.scan_append {body rest : List Token} (h : Body body) :
    scan (opened + 1) roots (body ++ rest) = scan (opened + 1) roots rest := by
  induction h generalizing opened roots rest with
  | nil => rfl
  | prop hrest ih => exact ih
  | node hbody hrest ihbody ihrest =>
    rw [List.cons_append, scan, List.append_assoc, ihbody]
    exact ihrest

/-- A scan that closes the innermost open node, and opens no other root, reads the
contents of that node first. -/
theorem exists_body_of_scan {tokens : List Token} (hnop : Token.nop ∉ tokens)
    (h : scan (opened + 1) roots tokens = .reaches roots) :
    ∃ body rest, tokens = body ++ .endNode :: rest ∧ Body body ∧
      scan opened roots rest = .reaches roots := by
  induction hlength : tokens.length using Nat.strong_induction_on generalizing tokens opened with
  | _ length ih =>
    subst hlength
    cases tokens with
    | nil => exact nomatch h
    | cons token tail =>
      obtain ⟨htoken, htail⟩ := not_or.mp (mt List.mem_cons.mpr hnop)
      cases token with
      | beginNode name =>
        obtain ⟨body, rest, rfl, hbody, hrest⟩ := ih _ (Nat.lt_succ_self _) htail h rfl
        have hnopRest : Token.nop ∉ rest := fun hmem => htail (by simp [hmem])
        obtain ⟨body', rest', rfl, hbody', hrest'⟩ := ih _ (by simp; omega) hnopRest hrest rfl
        exact ⟨_, rest', by simp, @Body.node name _ _ hbody hbody', hrest'⟩
      | endNode => exact ⟨[], tail, rfl, .nil, h⟩
      | prop nameOffset name value =>
        obtain ⟨body, rest, rfl, hbody, hrest⟩ := ih _ (Nat.lt_succ_self _) htail h rfl
        exact ⟨_, rest, rfl, .prop hbody, hrest⟩
      | nop => exact absurd rfl htoken
      | unknown word => exact nomatch h

/-- Past the root nothing may follow. -/
theorem eq_nil_of_scan_zero {tokens : List Token} (hnop : Token.nop ∉ tokens)
    (h : scan 0 roots tokens = .reaches roots) : tokens = [] := by
  cases tokens with
  | nil => rfl
  | cons token tail =>
    cases token with
    | beginNode name =>
      have hle := le_of_scan_eq (show scan 1 (roots + 1) tail = .reaches roots from h)
      omega
    | endNode => exact nomatch h
    | prop nameOffset name value => exact nomatch h
    | nop => exact absurd List.mem_cons_self hnop
    | unknown word => exact nomatch h

/-- The scan finds one root exactly in the streams that are one. -/
theorem scan_eq_one_iff : scan 0 0 tokens = .reaches 1 ↔ SingleRoot tokens := by
  rw [← scan_filter, SingleRoot]
  have hnop : Token.nop ∉ tokens.filter fun token => token ≠ .nop := by simp
  generalize tokens.filter (fun token => token ≠ .nop) = stream at hnop
  constructor
  · intro h
    cases stream with
    | nil => exact nomatch h
    | cons token tail =>
      obtain ⟨htoken, htail⟩ := not_or.mp (mt List.mem_cons.mpr hnop)
      cases token with
      | beginNode name =>
        obtain ⟨body, rest, rfl, hbody, hrest⟩ := @exists_body_of_scan 0 _ _ htail h
        obtain rfl := eq_nil_of_scan_zero (fun hmem => htail (by simp [hmem])) hrest
        exact ⟨name, body, hbody, rfl⟩
      | endNode => exact nomatch h
      | prop nameOffset name value => exact nomatch h
      | nop => exact absurd rfl htoken
      | unknown word => exact nomatch h
  · rintro ⟨name, body, hbody, rfl⟩
    exact @Body.scan_append 0 _ _ _ hbody

end Scan

section Run

/-- Following parents from `ptr` passes so many nodes in use before the null pointer. -/
def OpenChain (st : Stack Node) : Nat → Ptr → Prop
  | 0, ptr => ptr = none
  | opened + 1, ptr =>
    ∃ s, ptr = some s ∧ st.Allocated s ∧ OpenChain st opened (st.record s).parent

theorem OpenChain.congr {st st' : Stack Node} {opened : Nat} {ptr : Ptr}
    (h : OpenChain st opened ptr) (hkeeps : ∀ t, st.Allocated t → st'.Allocated t)
    (hparent : ∀ t, st.Allocated t → (st'.record t).parent = (st.record t).parent) :
    OpenChain st' opened ptr := by
  induction opened generalizing ptr with
  | zero => exact h
  | succ opened ih =>
    obtain ⟨s, hptr, hs, hchain⟩ := h
    refine ⟨s, hptr, hkeeps s hs, ?_⟩
    rw [hparent s hs]
    exact ih hchain

/-- The parser after a prefix of a stream that left so many nodes open and opened so
many roots. -/
structure Tracks (p : Parser) (opened roots : Nat) : Prop where
  sound : p.Sound
  chain : OpenChain p.nodes opened p.current
  empty : roots = 0 ↔ p.nodes.size = 0
  inRoot : 0 < opened → 0 < roots

variable {p : Parser} {opened roots : Nat}

theorem Tracks.openNode (h : Tracks p opened roots) (name : StrView) :
    ∃ p', p.step (.openNode name) = .ok p' ∧
      Tracks p' (opened + 1) (if opened = 0 then roots + 1 else roots) := by
  obtain ⟨new, p', hstep, hopen⟩ := h.sound.step_openNode name
  have hroot := h.inRoot
  have hempty := h.empty
  refine ⟨p', hstep, hopen.sound, ⟨new, hopen.current, hopen.sound.current new hopen.current, ?_⟩,
    ?_, ?_⟩
  · rw [hopen.record]
    exact h.chain.congr hopen.keeps fun t ht => hopen.parent_eq ht
  · rw [hopen.size]
    split <;> omega
  · intro
    split <;> omega

theorem Tracks.closeNode (h : Tracks p (opened + 1) roots) :
    ∃ p', p.closeNode = .ok p' ∧ Tracks p' opened roots := by
  obtain ⟨cur, hcurrent, hcur, hchain⟩ := h.chain
  refine ⟨_, Parser.closeNode_of_some hcurrent, ⟨h.sound.nodes, h.sound.properties, ?_⟩, hchain,
    h.empty, fun _ => h.inRoot (Nat.succ_pos _)⟩
  intro other hother
  cases opened with
  | zero => exact nomatch hother.symm.trans hchain
  | succ opened =>
    obtain ⟨s, hs, hslot, -⟩ := hchain
    obtain rfl := Option.some.inj (hother.symm.trans hs)
    exact hslot

theorem Tracks.addProperty (h : Tracks p (opened + 1) roots) (name : StrView) (value : ByteView) :
    ∃ p', p.addProperty name value = .ok p' ∧ Tracks p' (opened + 1) roots := by
  obtain ⟨cur, hcurrent, -, -⟩ := h.chain
  obtain ⟨new, p', hstep, hadd⟩ := h.sound.addProperty hcurrent name value
  refine ⟨p', hstep, hadd.sound, ?_, ?_, h.inRoot⟩
  · rw [hadd.current]
    exact h.chain.congr hadd.keeps fun t _ => hadd.parent_eq t
  · rw [hadd.size]
    exact h.empty

/-- The result of the loop is the one the scan says, at the offset behind `END`. -/
def Outcome.Ends (offset : U64) (result : Exec (U64 × Parser)) : Outcome → Prop
  | .reaches roots => ∃ p, result = .ok (offset, p) ∧ (roots = 0 ↔ p.nodes.size = 0)
  | .panics => result = .error .panic
  | .traps => result = .error .nullDeref

theorem Tracks.run {m : Mem} {tokens : List Token} {events : List Event}
    {offset : U64} (h : Tracks p opened roots) (hevents : List.Forall₂ (Reads m) tokens events) :
    (scan opened roots tokens).Ends offset (p.run events >>= finish offset) := by
  induction hevents generalizing p opened roots with
  | nil =>
    rw [Parser.run, ok_bind, finish]
    cases opened with
    | zero =>
      rw [show p.current = none from h.chain]
      exact ⟨p, rfl, h.empty⟩
    | succ opened =>
      obtain ⟨cur, hcurrent, -⟩ := h.chain
      rw [hcurrent]
      rfl
  | cons hread hrest ih =>
    cases hread with
    | openNode hname =>
      obtain ⟨p', hstep, htracks⟩ := h.openNode _
      rw [Parser.run, hstep]
      exact ih htracks
    | closeNode =>
      cases opened with
      | zero =>
        rw [Parser.run, Parser.step, Parser.closeNode_of_none h.chain]
        rfl
      | succ opened =>
        obtain ⟨p', hstep, htracks⟩ := h.closeNode
        rw [Parser.run, Parser.step, hstep]
        exact ih htracks
    | addProperty hname hvalue =>
      cases opened with
      | zero =>
        rw [Parser.run, Parser.step, Parser.addProperty_of_none h.chain]
        rfl
      | succ opened =>
        obtain ⟨p', hstep, htracks⟩ := h.addProperty _ _
        rw [Parser.run, Parser.step, hstep]
        exact ih htracks
    | skip => exact ih h
    | refuse => rfl

theorem tracks_empty : Tracks {} 0 0 := by
  refine ⟨⟨⟨Nat.le_refl _, fun _ => rfl⟩, ⟨Nat.le_refl _, fun _ => rfl⟩, ?_⟩, rfl, Iff.rfl, id⟩
  rintro cur ⟨⟩

end Run

section Main

variable {m : Mem} {structures strings : U64} {tokens : List Token} {turns : Nat}

theorem Encoded.ends (h : Encoded m structures strings tokens) (hturns : tokens.length < turns) :
    (scan 0 0 tokens).Ends (BitVec.ofNat 64 (encodeAll tokens).length)
      (tokenLoop m structures strings turns 0 {}) := by
  obtain ⟨events, hevents, hloop⟩ := h.tokenLoop_eq hturns
  rw [hloop]
  exact tracks_empty.run hevents

/-- The loop accepts what it should on exactly the streams that never leave the null
test the only guard. -/
theorem acceptsExactly_iff (h : Encoded m structures strings tokens)
    (hturns : tokens.length < turns) :
    AcceptsExactly (parseStructures m structures strings turns {}) tokens ↔
      WellNested 0 0 tokens := by
  have hends := h.ends hturns
  rw [wellNested_iff_scan]
  rw [parseStructures]
  cases hscan : scan 0 0 tokens with
  | panics =>
    rw [hscan] at hends
    have hnot : ¬ SingleRoot tokens := fun hsingle =>
      nomatch hscan.symm.trans (scan_eq_one_iff.mpr hsingle)
    rw [show tokenLoop m structures strings turns 0 {} = _ from hends]
    exact iff_of_true ⟨fun hsingle => absurd hsingle hnot, fun _ => .inl rfl⟩
      ⟨nofun, fun n hn => nomatch hn⟩
  | traps =>
    rw [hscan] at hends
    have hnot : ¬ SingleRoot tokens := fun hsingle =>
      nomatch hscan.symm.trans (scan_eq_one_iff.mpr hsingle)
    rw [show tokenLoop m structures strings turns 0 {} = _ from hends]
    refine iff_of_false (fun haccepts => ?_) fun hclean => hclean.1 rfl
    rcases haccepts.rejects hnot with hpanic | ⟨err, p, hok, -⟩
    · exact nomatch hpanic
    · exact nomatch hok
  | reaches roots =>
    rw [hscan] at hends
    obtain ⟨p, hloop, hroots⟩ := hends
    rw [hloop, ok_bind]
    dsimp only
    have hsingle : SingleRoot tokens ↔ roots = 1 := by
      rw [← scan_eq_one_iff, hscan, Outcome.reaches.injEq]
    by_cases hzero : roots = 0
    · rw [if_pos (hroots.mp hzero)]
      refine iff_of_true ⟨fun hone => absurd (hsingle.mp hone) (by omega), fun _ => ?_⟩
        ⟨nofun, fun n hn => ?_⟩
      · exact .inr ⟨_, p, rfl, rfl⟩
      · cases hn
        omega
    · rw [if_neg (mt hroots.mpr hzero)]
      constructor
      · intro haccepts
        refine ⟨nofun, fun n hn => ?_⟩
        cases hn
        by_contra hmany
        rcases haccepts.rejects (mt hsingle.mp (by omega)) with hpanic | ⟨err, q, hok, herr⟩
        · exact nomatch hpanic
        · cases hok
          exact nomatch herr
      · intro hclean
        have hone := hclean.2 roots rfl
        refine ⟨fun _ => ⟨p, rfl, mt hroots.mpr hzero⟩, fun hnot => ?_⟩
        exact absurd (hsingle.mpr (by omega)) hnot

/-- A root with a property, whose name is behind the block, and a child. -/
def rootTokens : List Token :=
  [.beginNode [], .nop, .prop 0 [0x72, 0x65, 0x67] [1, 2, 3], .beginNode [0x63, 0x70, 0x75],
    .endNode, .endNode]

def rootMemory : Mem := ofBytes 0x1000 (encodeAll rootTokens ++ [0x72, 0x65, 0x67, 0])

theorem acceptsExactly_root :
    AcceptsExactly (parseStructures rootMemory 0x1000 0x1030 7 {}) rootTokens := by
  have hencoded : Encoded rootMemory 0x1000 0x1030 rootTokens := by
    refine ⟨by decide +kernel, by decide, ?_⟩
    simp only [rootTokens, List.forall_mem_cons, Token.WellFormed]
    exact ⟨by decide, trivial, ⟨by decide, by decide, by decide, by decide +kernel⟩, by decide,
      trivial, trivial, nofun⟩
  exact (acceptsExactly_iff hencoded (by decide)).mpr (by decide)

/-- An `END_NODE` with no node open goes through the null pointer. -/
theorem not_acceptsExactly_strayEnd :
    Encoded (ofBytes 0x1000 (encodeAll [.endNode])) 0x1000 0x2000 [.endNode] ∧
      ¬ AcceptsExactly (parseStructures (ofBytes 0x1000 (encodeAll [.endNode])) 0x1000 0x2000 2 {})
        [.endNode] := by
  have hencoded : Encoded (ofBytes 0x1000 (encodeAll [.endNode])) 0x1000 0x2000 [.endNode] :=
    encoded_ofBytes (by decide) (by simp [Token.WellFormed])
  have htraps : tokenLoop (ofBytes 0x1000 (encodeAll [.endNode])) 0x1000 0x2000 2 0 {} =
      .error .nullDeref :=
    hencoded.ends (by decide)
  have hnot : ¬ SingleRoot [.endNode] := by
    rw [← scan_eq_one_iff]
    decide
  refine ⟨hencoded, fun haccepts => ?_⟩
  have hrejects := haccepts.rejects hnot
  rw [parseStructures, htraps] at hrejects
  rcases hrejects with hpanic | ⟨err, p, hok, -⟩
  · exact nomatch hpanic
  · exact nomatch hok

end Main

end Octiron.DeviceTree
