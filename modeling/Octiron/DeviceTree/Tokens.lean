import Octiron.DeviceTree.Model

/-! The tokens of a structure block, their encoding, and what the loop makes of an
encoded stream: one event per token, in order. -/
namespace Octiron.DeviceTree

open Lib.Word Lib.ByteMemory Exec

/-- The stated name of a property is the string at its offset in the strings block. -/
inductive Token where
  | beginNode (name : List U8)
  | endNode
  | prop (nameOffset : U32) (name value : List U8)
  | nop
  | unknown (word : U32)
  deriving DecidableEq

namespace Token

/-- Zeros up to a multiple of four bytes. -/
def padded (bytes : List U8) : List U8 :=
  bytes ++ List.replicate ((4 - bytes.length % 4) % 4) 0

/-- The word a token starts with. -/
def word : Token → U32
  | beginNode _ => structureBeginNode
  | endNode => structureEndNode
  | prop _ _ _ => structureProp
  | nop => structureNop
  | unknown word => word

/-- What follows that word. -/
def body : Token → List U8
  | beginNode name => padded (name ++ [0])
  | prop nameOffset _ value =>
      bigEndian32 (BitVec.ofNat 32 value.length) ++ (bigEndian32 nameOffset ++ padded value)
  | _ => []

def encode (token : Token) : List U8 := bigEndian32 token.word ++ token.body

/-- Names are NUL-free, lengths fit their field, unknown words are none of the
others, and property names are where their offsets say. -/
def WellFormed (m : Mem) (strings : U64) : Token → Prop
  | beginNode name => 0 ∉ name
  | prop nameOffset name value => value.length < 2 ^ 32 ∧ 0 ∉ name ∧ name.length < 2 ^ 64 ∧
      Holds m (strings + nameOffset.setWidth 64) (name ++ [0])
  | unknown word => word ≠ structureBeginNode ∧ word ≠ structureEndNode ∧
      word ≠ structureProp ∧ word ≠ structureNop ∧ word ≠ structureEnd
  | _ => True

end Token

/-- A structure block: the tokens, then `END`. -/
def encodeAll : List Token → List U8
  | [] => bigEndian32 structureEnd
  | token :: rest => token.encode ++ encodeAll rest

/-- The blob in memory. -/
structure Encoded (m : Mem) (structures strings : U64) (tokens : List Token) : Prop where
  holds : Holds m structures (encodeAll tokens)
  fits : (encodeAll tokens).length ≤ 2 ^ 64
  wellFormed : ∀ token ∈ tokens, token.WellFormed m strings

inductive Event where
  | openNode (name : StrView)
  | closeNode
  | addProperty (name : StrView) (value : ByteView)
  | skip
  | refuse

/-- The event that a token at its place in the blob stands for. -/
inductive Reads (m : Mem) : Token → Event → Prop where
  | openNode {name : List U8} {view : StrView} (hname : Denotes m view.data view.size name) :
      Reads m (.beginNode name) (.openNode view)
  | closeNode : Reads m .endNode .closeNode
  | addProperty {nameOffset : U32} {name value : List U8} {nameView : StrView}
      {valueView : ByteView} (hname : Denotes m nameView.data nameView.size name)
      (hvalue : Denotes m valueView.data valueView.size value) :
      Reads m (.prop nameOffset name value) (.addProperty nameView valueView)
  | skip : Reads m .nop .skip
  | refuse {word : U32} : Reads m (.unknown word) .refuse

namespace Parser

def step (p : Parser) : Event → Exec Parser
  | .openNode name => .ok { p.openNode name with depth := (p.openNode name).depth + 1 }
  | .closeNode => p.closeNode
  | .addProperty name value => p.addProperty name value
  | .skip => .ok p
  | .refuse => .error .panic

def run : Parser → List Event → Exec Parser
  | p, [] => .ok p
  | p, event :: rest => do
    let p ← p.step event
    run p rest

theorem run_append (p : Parser) (events events' : List Event) :
    p.run (events ++ events') = (p.run events >>= fun p => p.run events') := by
  induction events generalizing p with
  | nil => rfl
  | cons event rest ih =>
    simp only [List.cons_append, run]
    cases p.step event with
    | error stop => rfl
    | ok p' => exact ih p'

end Parser

theorem bigEndian32_length (w : U32) : (bigEndian32 w).length = 4 := rfl

theorem padded_length (bytes : List U8) :
    (Token.padded bytes).length = (bytes.length + 3) / 4 * 4 := by
  rw [Token.padded, List.length_append, List.length_replicate]
  omega

theorem encode_length (token : Token) : token.encode.length = 4 + token.body.length := by
  rw [Token.encode, List.length_append, bigEndian32_length]

theorem four_dvd_encode_length (token : Token) : 4 ∣ token.encode.length := by
  rw [encode_length]
  cases token <;> simp [Token.body, bigEndian32_length, padded_length]

section Turn

variable {m : Mem} {structures strings : U64} {k turns : Nat}

theorem alignUp_four {n : Nat} (hfit : n + 4 ≤ 2 ^ 64) :
    alignUp (BitVec.ofNat 64 n) 4 = BitVec.ofNat 64 ((n + 3) / 4 * 4) := by
  have hn : (BitVec.ofNat 64 n).toNat = n := toNat_ofNat_of_lt (by omega)
  apply BitVec.eq_of_toNat_eq
  rw [alignUp_toNat (k := 2) rfl (by rw [hn]; exact hfit), hn, toNat_ofNat_of_lt (by omega)]
  rfl

theorem kassert_aligned (hk : 4 ∣ k) :
    kassert (BitVec.ofNat 64 k % 4 == 0) = .ok () := by
  rw [kassert_eq_ok, beq_iff_eq]
  apply BitVec.eq_of_toNat_eq
  rw [BitVec.toNat_umod, BitVec.toNat_ofNat]
  change k % 2 ^ 64 % 4 = 0
  omega

theorem read_word {token : Token} (h : Holds m (structures + BitVec.ofNat 64 k) token.encode) :
    readBigEndian32 m (structures + BitVec.ofNat 64 k) = token.word :=
  readBigEndian32_of_holds (holds_append.mp h).1

theorem setWidth_length {n : Nat} (h : n < 2 ^ 32) :
    (BitVec.ofNat 32 n).setWidth 64 = BitVec.ofNat 64 n := by
  apply BitVec.eq_of_toNat_eq
  rw [BitVec.toNat_setWidth, toNat_ofNat_of_lt h, BitVec.toNat_ofNat]

/-- A name right behind its token. -/
theorem parseNode_of_holds {name : List U8}
    (h : Holds m (structures + BitVec.ofNat 64 k) (Token.padded (name ++ [0])))
    (hname : 0 ∉ name) (hfit : k + (Token.padded (name ++ [0])).length + 4 ≤ 2 ^ 64) :
    ∃ view : StrView, Denotes m view.data view.size name ∧ ∀ p,
      parseNode m structures p (BitVec.ofNat 64 k) =
        .ok (BitVec.ofNat 64 (k + (Token.padded (name ++ [0])).length), p.openNode view) := by
  have hlength : (Token.padded (name ++ [0])).length = (name.length + 1 + 3) / 4 * 4 := by
    rw [padded_length, List.length_append, List.length_singleton]
  have hstring := (holds_append.mp h).1
  refine ⟨⟨structures + BitVec.ofNat 64 k, BitVec.ofNat 64 name.length⟩,
    ⟨rfl, (holds_append.mp hstring).1⟩, fun p => ?_⟩
  rw [parseNode, StrView.fromNullTerm_of_holds hstring hname (by omega), ok_bind]
  have hsize : BitVec.ofNat 64 name.length + 1 = BitVec.ofNat 64 (name.length + 1) :=
    (BitVec.ofNat_add ..).symm
  dsimp only
  rw [hsize, alignUp_four (by omega), ← BitVec.ofNat_add, hlength]
  rfl

theorem preParseProperty_of_holds {nameOffset : U32} {name value : List U8}
    (h : Holds m (structures + BitVec.ofNat 64 k) (Token.prop nameOffset name value).body)
    (hwf : (Token.prop nameOffset name value).WellFormed m strings) :
    ∃ (nameView : StrView) (valueView : ByteView),
      Denotes m nameView.data nameView.size name ∧
      Denotes m valueView.data valueView.size value ∧ ∀ p,
      preParseProperty m structures strings p (BitVec.ofNat 64 k) =
        (p.addProperty nameView valueView >>= fun p => .ok
          (BitVec.ofNat 64 (k + (Token.prop nameOffset name value).body.length), p)) := by
  obtain ⟨hvalue, hname, hnameLength, hstring⟩ := hwf
  have hbody : (Token.prop nameOffset name value).body.length = 4 + (4 + (value.length + 3) / 4 * 4) := by
    simp only [Token.body, List.length_append, bigEndian32_length, padded_length]
  obtain ⟨hlen, h⟩ := holds_append_at.mp h
  obtain ⟨hoff, h⟩ := holds_append_at.mp h
  rw [bigEndian32_length] at hoff h
  rw [bigEndian32_length] at h
  refine ⟨⟨strings + nameOffset.setWidth 64, BitVec.ofNat 64 name.length⟩,
    ⟨structures + BitVec.ofNat 64 (k + 4 + 4), BitVec.ofNat 64 value.length⟩,
    ⟨rfl, (holds_append.mp hstring).1⟩, ⟨rfl, (holds_append.mp h).1⟩, fun p => ?_⟩
  have hfour : BitVec.ofNat 64 k + 4 = BitVec.ofNat 64 (k + 4) := (BitVec.ofNat_add ..).symm
  have height : BitVec.ofNat 64 (k + 4) + 4 = BitVec.ofNat 64 (k + 4 + 4) :=
    (BitVec.ofNat_add ..).symm
  rw [preParseProperty, readBigEndian32_of_holds hlen, hfour, readBigEndian32_of_holds hoff,
    height, StrView.fromNullTerm_of_holds hstring hname hnameLength, ok_bind,
    setWidth_length hvalue, alignUp_four (by omega), ← BitVec.ofNat_add, hbody,
    ← Nat.add_assoc, ← Nat.add_assoc]
  rfl

/-- What the loop does at `END`. -/
def finish (offset : U64) (p : Parser) : Exec (U64 × Parser) :=
  if p.current.isSome then .error .panic else .ok (offset, p)

/-- One turn of the loop takes one token and does what its event says. -/
theorem tokenLoop_turn {token : Token} (hk : 4 ∣ k)
    (h : Holds m (structures + BitVec.ofNat 64 k) token.encode)
    (hwf : token.WellFormed m strings) (hfit : k + token.encode.length + 4 ≤ 2 ^ 64) :
    ∃ event, Reads m token event ∧ ∀ p,
      tokenLoop m structures strings (turns + 1) (BitVec.ofNat 64 k) p =
        (p.step event >>= tokenLoop m structures strings turns
          (BitVec.ofNat 64 (k + token.encode.length))) := by
  have hbody := (holds_append_at.mp h).2
  rw [bigEndian32_length] at hbody
  rw [encode_length] at hfit ⊢
  have hread : ∀ p, tokenLoop m structures strings (turns + 1) (BitVec.ofNat 64 k) p =
      (if token.word = structureBeginNode then
        parseNode m structures p (BitVec.ofNat 64 (k + 4)) >>= fun parsed =>
          tokenLoop m structures strings turns parsed.1
            { parsed.2 with depth := parsed.2.depth + 1 }
      else if token.word = structureEndNode then do
        let p ← p.closeNode
        tokenLoop m structures strings turns (BitVec.ofNat 64 (k + 4)) p
      else if token.word = structureProp then
        preParseProperty m structures strings p (BitVec.ofNat 64 (k + 4)) >>= fun parsed =>
          tokenLoop m structures strings turns parsed.1 parsed.2
      else if token.word = structureNop then
        tokenLoop m structures strings turns (BitVec.ofNat 64 (k + 4)) p
      else if token.word = structureEnd then finish (BitVec.ofNat 64 (k + 4)) p
      else .error .panic) := by
    intro p
    rw [tokenLoop, kassert_aligned hk, ok_bind, read_word h, BitVec.ofNat_add]
    rfl
  rw [← Nat.add_assoc]
  cases token with
  | beginNode name =>
    obtain ⟨view, hview, hparse⟩ := parseNode_of_holds hbody hwf (by
      rw [Token.body] at hfit
      omega)
    refine ⟨_, .openNode hview, fun p => ?_⟩
    refine (hread p).trans ((if_pos rfl).trans ?_)
    rw [hparse]
    rfl
  | endNode => exact ⟨_, .closeNode, fun p => hread p⟩
  | prop nameOffset name value =>
    obtain ⟨nameView, valueView, hname, hvalue, hparse⟩ :=
      preParseProperty_of_holds hbody hwf
    refine ⟨_, .addProperty hname hvalue, fun p => ?_⟩
    have hbegin : structureProp ≠ structureBeginNode := by decide
    have hend : structureProp ≠ structureEndNode := by decide
    refine (hread p).trans ((if_neg hbegin).trans ((if_neg hend).trans ((if_pos rfl).trans ?_)))
    rw [hparse, Parser.step]
    cases p.addProperty nameView valueView with
    | error stop => rfl
    | ok p' => rfl
  | nop => exact ⟨_, .skip, fun p => hread p⟩
  | unknown word =>
    obtain ⟨hbegin, hend, hprop, hnop, hlast⟩ := hwf
    refine ⟨_, .refuse, fun p => ?_⟩
    rw [hread, Token.word, if_neg hbegin, if_neg hend, if_neg hprop, if_neg hnop, if_neg hlast]
    rfl

theorem tokenLoop_end {p : Parser} (hk : 4 ∣ k)
    (h : Holds m (structures + BitVec.ofNat 64 k) (bigEndian32 structureEnd)) :
    tokenLoop m structures strings (turns + 1) (BitVec.ofNat 64 k) p =
      finish (BitVec.ofNat 64 (k + 4)) p := by
  rw [tokenLoop, kassert_aligned hk, ok_bind, readBigEndian32_of_holds h, BitVec.ofNat_add]
  rfl

end Turn

theorem encodeAll_length_pos (tokens : List Token) : 4 ≤ (encodeAll tokens).length := by
  induction tokens with
  | nil => exact Nat.le_refl 4
  | cons token rest ih =>
    rw [encodeAll, List.length_append]
    omega

/-- From anywhere in a stream, the loop runs the events of the remaining tokens. -/
theorem tokenLoop_from {m : Mem} {structures strings : U64} {tokens : List Token} {k turns : Nat}
    (hk : 4 ∣ k) (h : Holds m (structures + BitVec.ofNat 64 k) (encodeAll tokens))
    (hwf : ∀ token ∈ tokens, token.WellFormed m strings)
    (hfit : k + (encodeAll tokens).length ≤ 2 ^ 64) (hturns : tokens.length < turns) :
    ∃ events, List.Forall₂ (Reads m) tokens events ∧
      ∀ p, tokenLoop m structures strings turns (BitVec.ofNat 64 k) p =
        (p.run events >>= finish (BitVec.ofNat 64 (k + (encodeAll tokens).length))) := by
  induction tokens generalizing k turns with
  | nil =>
    obtain ⟨turns, rfl⟩ := Nat.exists_eq_succ_of_ne_zero (Nat.ne_zero_of_lt hturns)
    exact ⟨[], .nil, fun p => tokenLoop_end hk h⟩
  | cons token rest ih =>
    obtain ⟨turns, rfl⟩ := Nat.exists_eq_succ_of_ne_zero (Nat.ne_zero_of_lt hturns)
    obtain ⟨hfirst, hrest⟩ := holds_append_at.mp h
    have hlast := encodeAll_length_pos rest
    rw [encodeAll, List.length_append] at hfit ⊢
    obtain ⟨event, hevent, hturn⟩ := @tokenLoop_turn _ _ _ _ turns _ hk hfirst
      (hwf token List.mem_cons_self) (by omega)
    obtain ⟨events, hevents, hloop⟩ := ih (Nat.dvd_add hk (four_dvd_encode_length token)) hrest
      (fun t ht => hwf t (List.mem_cons_of_mem _ ht)) (by omega) (Nat.lt_of_succ_lt_succ hturns)
    refine ⟨event :: events, .cons hevent hevents, fun p => ?_⟩
    rw [hturn, Parser.run, ← Nat.add_assoc]
    cases p.step event with
    | error stop => rfl
    | ok p' => exact hloop p'

/-- The loop on an encoded stream runs the stream's events and then meets `END`. -/
theorem Encoded.tokenLoop_eq {m : Mem} {structures strings : U64} {tokens : List Token}
    {turns : Nat} (h : Encoded m structures strings tokens) (hturns : tokens.length < turns) :
    ∃ events, List.Forall₂ (Reads m) tokens events ∧
      ∀ p, tokenLoop m structures strings turns 0 p =
        (p.run events >>= finish (BitVec.ofNat 64 (encodeAll tokens).length)) := by
  obtain ⟨events, hevents, hloop⟩ := tokenLoop_from (k := 0) (Nat.dvd_zero 4)
    (by rw [BitVec.add_zero]; exact h.holds) h.wellFormed
    (by rw [Nat.zero_add]; exact h.fits) hturns
  rw [Nat.zero_add] at hloop
  exact ⟨events, hevents, hloop⟩

/-- A block of tokens that name no strings, alone in memory. -/
theorem encoded_ofBytes {structures strings : U64} {tokens : List Token}
    (hfits : (encodeAll tokens).length ≤ 2 ^ 64)
    (hwf : ∀ token ∈ tokens, token.WellFormed (ofBytes structures (encodeAll tokens)) strings) :
    Encoded (ofBytes structures (encodeAll tokens)) structures strings tokens :=
  ⟨holds_ofBytes structures hfits, hfits, hwf⟩

end Octiron.DeviceTree
