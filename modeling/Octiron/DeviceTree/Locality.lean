import Octiron.DeviceTree.Decoded

/-! Two properties with the same name and value, in two trees: when the pass decodes
them alike.  Integers are read as four bytes however short the value is, an address of
three cells as sixteen, and the comparison with `fail-` starts behind the fifth byte. -/
namespace Octiron.DeviceTree

open Lib.Word Lib.ByteMemory Exec Pmm

/-- A property of a tree that the pass gets through without error, with the cell counts
around it, the bytes of its name and those of its value. -/
structure Occurrence (parent : Option Cells) (own : Cells) (name value : List U8) where
  memory : Mem
  hhdmBase : U64
  answers : Answers
  bump : Bump.State
  properties : List Entry
  children : Nodes
  err : Error
  nodes' : Nodes
  bump' : Bump.State
  nameView : StrView
  raw : ByteView
  decoded : Entry
  completed : recursivePropertyRewrite memory hhdmBase answers properties children bump =
    .ok (err, nodes', bump')
  noError : err.isErr = false
  occurs : Occurs none (.node ⟨2, 1⟩ properties children .none) nodes' parent own
    (Entry.ofRaw nameView raw) decoded
  name_denotes : Denotes memory nameView.data nameView.size name
  name_length : name.length < 2 ^ 64
  value_denotes : Denotes memory raw.data raw.size value
  value_length : value.length < 2 ^ 64

/-- How far past a value of `n` bytes the result of its decoder depends on. -/
def overread (keyword : Option Keyword) (parent : Option Cells) (own : Cells) (n : Nat) : Nat :=
  match keyword with
  | some .phandle | some .addressCells | some .sizeCells | some .virtualReg
  | some .interruptParent | some .interruptCells => 4 - n
  | some .reg => parent.elim 0 fun p => overreach p.address p.size
  | some .ranges | some .busRanges =>
    if n = 0 then 0 else parent.elim 0 fun p => overreach p.address own.size
  | _ => 0

/-- Nothing that the two decoders use besides the value makes a difference. -/
def DecodesLocally (parent : Option Cells) (own : Cells) (name value : List U8) (m : Mem)
    (raw : ByteView) (m' : Mem) (raw' : ByteView) : Prop :=
  if keywordOfBytes name = some .status then
    (plainStatus value).isSome ∨ (FailsWithReason m raw ∧ FailsWithReason m' raw') ∨
      (¬ FailsWithReason m raw ∧ ¬ FailsWithReason m' raw' ∧
        raw.data.setWidth 32 = raw'.data.setWidth 32)
  else SameBytes m (raw.data + BitVec.ofNat 64 value.length) m'
    (raw'.data + BitVec.ofNat 64 value.length)
    (overread (keywordOfBytes name) parent own value.length)

namespace Occurrence

variable {parent : Option Cells} {own : Cells} {name value : List U8}

def content (x : Occurrence parent own name value) : Content := x.decoded.content x.memory

/-- The address behind the value. -/
def behind (x : Occurrence parent own name value) : U64 :=
  x.raw.data + BitVec.ofNat 64 value.length

variable (x y : Occurrence parent own name value)

theorem rewritten : Rewritten x.memory x.hhdmBase x.answers parent own
    (Entry.ofRaw x.nameView x.raw) x.decoded :=
  rewriteNodes_rewritten x.completed x.noError x.occurs

theorem keyword_eq : keywordOf x.memory x.nameView = keywordOfBytes name :=
  keywordOf_eq x.name_denotes x.name_length

theorem value_bytes : (StrView.ofByteView x.raw).bytes x.memory = value :=
  Denotes.bytes (s := StrView.ofByteView x.raw) x.value_denotes x.value_length

theorem sameBytes : SameBytes x.memory x.raw.data y.memory y.raw.data value.length :=
  x.value_denotes.2.sameBytes y.value_denotes.2

theorem size_toNat : x.raw.size.toNat = value.length := by
  rw [x.value_denotes.1, toNat_ofNat_of_lt x.value_length]

/-- Whatever only the first lap decodes. -/
theorem content_eq (hcompatible : keywordOfBytes name ≠ some .compatible)
    (hrows : ∀ keyword, keywordOfBytes name = some keyword → ¬ keyword.IsRows) :
    x.content = firstContent x.memory x.raw (keywordOfBytes name) := by
  obtain ⟨first, hfirst, hsecond⟩ := x.rewritten
  obtain ⟨hname, hcontent⟩ := firstTurn_content hfirst (x.keyword_eq ▸ hcompatible)
  have hdecoded := secondTurn_other hsecond (by rwa [hname, x.keyword_eq])
  rw [content, hdecoded, hcontent, x.keyword_eq]

theorem compatible_rewrite (h : keywordOfBytes name = some .compatible) :
    ∃ bump bump', rewriteCompatible x.memory x.hhdmBase x.answers bump
      (Entry.ofRaw x.nameView x.raw) = .ok (x.decoded, bump') := by
  obtain ⟨first, hfirst, hsecond⟩ := x.rewritten
  obtain ⟨bump, bump', hrewrite⟩ := firstTurn_compatible hfirst (x.keyword_eq.trans h)
  obtain ⟨hname, -, -⟩ := rewriteCompatible_strings x.value_denotes x.value_length hrewrite
  have hdecoded : x.decoded = first := by
    refine secondTurn_other hsecond fun keyword hkeyword hrows => ?_
    rw [hname] at hkeyword
    obtain rfl := Option.some.inj ((x.keyword_eq.trans h).symm.trans hkeyword)
    exact absurd hrows (by rintro (hreg | hranges | hbus) <;> contradiction)
  exact ⟨bump, bump', hdecoded ▸ hrewrite⟩

theorem compatible_content (h : keywordOfBytes name = some .compatible) :
    x.content = .strings (segments value ++ [[]]) := by
  obtain ⟨bump, bump', hrewrite⟩ := x.compatible_rewrite h
  obtain ⟨-, htype, hstrings⟩ :=
    rewriteCompatible_strings x.value_denotes x.value_length hrewrite
  rw [content, Entry.content, htype, ← hstrings]

theorem reg_rewrite (h : keywordOfBytes name = some .reg) :
    ∃ bump bump', propertyRewriteReg x.memory x.hhdmBase x.answers parent bump
      (Entry.ofRaw x.nameView x.raw) = .ok (x.decoded, bump') := by
  obtain ⟨first, hfirst, bump, bump', hsecond⟩ := x.rewritten
  have hkeyword := x.keyword_eq.trans h
  obtain rfl := firstTurn_rows hfirst hkeyword (.inl rfl)
  unfold rewriteSecond at hsecond
  rw [show (Entry.ofRaw x.nameView x.raw).name = x.nameView by rfl, hkeyword] at hsecond
  exact ⟨bump, bump', hsecond⟩

theorem ranges_rewrite
    (h : keywordOfBytes name = some .ranges ∨ keywordOfBytes name = some .busRanges) :
    ∃ bump bump', propertyRewriteRanges x.memory x.hhdmBase x.answers parent own bump
      (Entry.ofRaw x.nameView x.raw) = .ok (x.decoded, bump') := by
  obtain ⟨first, hfirst, bump, bump', hsecond⟩ := x.rewritten
  obtain h | h := h
  all_goals
    have hkeyword := x.keyword_eq.trans h
    obtain rfl := firstTurn_rows hfirst hkeyword (by simp [Keyword.IsRows])
    unfold rewriteSecond at hsecond
    rw [show (Entry.ofRaw x.nameView x.raw).name = x.nameView by rfl, hkeyword] at hsecond
    exact ⟨bump, bump', hsecond⟩

theorem reg_content_eq_iff (h : keywordOfBytes name = some .reg) :
    x.content = y.content ↔ SameBytes x.memory x.behind y.memory y.behind
      (overread (some .reg) parent own value.length) := by
  obtain ⟨_, _, hx⟩ := x.reg_rewrite h
  obtain ⟨_, _, hy⟩ := y.reg_rewrite h
  obtain ⟨p, _, _, n, rfl, haddress, hsize, hn, hpos, hlength, hrows, hcontent⟩ :=
    propertyRewriteReg_eq_ok hx
  obtain ⟨p', _, _, n', hp, -, -, -, -, hlength', hrows', hcontent'⟩ :=
    propertyRewriteReg_eq_ok hy
  obtain rfl := Option.some.inj hp
  change _ = x.raw.size.toNat at hlength
  change _ = y.raw.size.toNat at hlength'
  rw [size_toNat] at hlength hlength'
  obtain rfl := Nat.eq_of_mul_eq_mul_left hpos (hlength.trans hlength'.symm)
  have hsame := x.sameBytes y
  rw [← hlength] at hsame
  rw [content, content, hcontent, hcontent', Content.pairs.injEq, and_iff_right rfl,
    pairs_eq_iff haddress hsize hn hrows hrows' hsame, hlength]
  rfl

theorem ranges_content_eq_iff
    (h : keywordOfBytes name = some .ranges ∨ keywordOfBytes name = some .busRanges) :
    x.content = y.content ↔ SameBytes x.memory x.behind y.memory y.behind
      (overread (some .ranges) parent own value.length) := by
  obtain ⟨_, _, hx⟩ := x.ranges_rewrite h
  obtain ⟨_, _, hy⟩ := y.ranges_rewrite h
  have hxsize := x.size_toNat
  have hysize := y.size_toNat
  obtain ⟨hempty, hcontent⟩ | ⟨p, _, _, _, n, w, rfl, hsize, hn, hpos, hw, hlength, hrows, hcontent⟩ :=
    propertyRewriteRanges_eq_ok hx
  · have hzero : value.length = 0 := by
      rw [← hxsize]
      exact congrArg BitVec.toNat hempty
    obtain ⟨-, hcontent'⟩ | ⟨p, _, _, _, n, w, -, -, hn, hpos, -, hlength, -⟩ :=
      propertyRewriteRanges_eq_ok hy
    · rw [content, content, hcontent, hcontent', overread, if_pos hzero]
      exact iff_of_true rfl nofun
    · have hmul := Nat.mul_pos hpos hn
      rw [hlength] at hmul
      exact absurd (hysize.trans hzero) hmul.ne'
  · have hne : value.length ≠ 0 := by
      rw [← hxsize]
      exact hlength ▸ (Nat.mul_pos hpos hn).ne'
    obtain ⟨hempty, -⟩ | ⟨p', _, _, _, n', w', hp, -, -, -, hw', hlength', hrows', hcontent'⟩ :=
      propertyRewriteRanges_eq_ok hy
    · exact absurd (hysize.symm.trans (congrArg BitVec.toNat hempty)) hne
    · obtain rfl := Option.some.inj hp
      obtain rfl := hw.trans hw'.symm
      replace hlength := hlength.trans hxsize
      replace hlength' := hlength'.trans hysize
      obtain rfl := Nat.eq_of_mul_eq_mul_left hpos (hlength.trans hlength'.symm)
      have hsame := x.sameBytes y
      rw [← hlength] at hsame
      rw [content, content, hcontent, hcontent', Content.triples.injEq, and_iff_right rfl,
        triples_eq_iff hsize hn hw hrows hrows' hsame, hlength, overread, if_neg hne]
      rfl

theorem status_content_eq_iff (h : keywordOfBytes name = some .status) :
    x.content = y.content ↔ (plainStatus value).isSome ∨
      (FailsWithReason x.memory x.raw ∧ FailsWithReason y.memory y.raw) ∨
      (¬ FailsWithReason x.memory x.raw ∧ ¬ FailsWithReason y.memory y.raw ∧
        x.raw.data.setWidth 32 = y.raw.data.setWidth 32) := by
  have hother : ∀ keyword, keywordOfBytes name = some keyword → ¬ keyword.IsRows := by
    intro keyword hkeyword
    obtain rfl := Option.some.inj (h.symm.trans hkeyword)
    rintro (hreg | hranges | hbus) <;> contradiction
  rw [x.content_eq (by rw [h]; decide) hother, y.content_eq (by rw [h]; decide) hother, h]
  change statusContent x.memory x.raw = statusContent y.memory y.raw ↔ _
  rw [statusContent, statusContent, x.value_bytes, y.value_bytes]
  cases plainStatus value with
  | some status => simp
  | none =>
    have hreason : literal "fail-" ≠ [] := by decide
    by_cases hx : FailsWithReason x.memory x.raw <;> by_cases hy : FailsWithReason y.memory y.raw <;>
      simp [hx, hy, hreason, hreason.symm]

theorem integer_content_eq_iff :
    Content.integer (readBigEndian32 x.memory x.raw.data) =
        .integer (readBigEndian32 y.memory y.raw.data) ↔
      SameBytes x.memory x.behind y.memory y.behind (4 - value.length) := by
  rw [Content.integer.injEq, readBigEndian32_eq_iff, (x.sameBytes y).iff_rest]
  rfl

/-- Two properties of one name and one value say the same exactly when what the decoder
uses besides the value is the same. -/
theorem content_eq_iff : x.content = y.content ↔
    DecodesLocally parent own name value x.memory x.raw y.memory y.raw := by
  unfold DecodesLocally
  by_cases hstatus : keywordOfBytes name = some .status
  · rw [if_pos hstatus]
    exact x.status_content_eq_iff y hstatus
  rw [if_neg hstatus]
  by_cases hreg : keywordOfBytes name = some .reg
  · rw [hreg]
    exact x.reg_content_eq_iff y hreg
  by_cases hranges : keywordOfBytes name = some .ranges ∨ keywordOfBytes name = some .busRanges
  · have hsame := x.ranges_content_eq_iff y hranges
    obtain h | h := hranges <;> rwa [h]
  by_cases hcompatible : keywordOfBytes name = some .compatible
  · rw [x.compatible_content hcompatible, y.compatible_content hcompatible, hcompatible]
    exact iff_of_true rfl nofun
  have hother : ∀ keyword, keywordOfBytes name = some keyword → ¬ keyword.IsRows := by
    rintro keyword hkeyword (rfl | rfl | rfl)
    · exact hreg hkeyword
    · exact hranges (.inl hkeyword)
    · exact hranges (.inr hkeyword)
  rw [x.content_eq hcompatible hother, y.content_eq hcompatible hother]
  have hinteger := x.integer_content_eq_iff y
  have hbytes := x.value_bytes.trans y.value_bytes.symm
  generalize keywordOfBytes name = keyword at *
  cases keyword with
  | none => exact iff_of_true (congrArg Content.raw hbytes) nofun
  | some keyword =>
    cases keyword
    case status | reg | ranges | busRanges | compatible => simp_all
    case phandle | addressCells | sizeCells | virtualReg | interruptParent | interruptCells =>
      exact hinteger
    case model | deviceType => exact iff_of_true (congrArg Content.string hbytes) nofun
    case dmaCoherent | dmaNoncoherent | interruptController => exact iff_of_true rfl nofun
    all_goals exact iff_of_true (congrArg Content.raw hbytes) nofun

/-- The pass over a root with one property and no children is its two turns. -/
theorem rewrite_of_turns {m : Mem} {hhdmBase : U64} {answers : Answers} {cells : Cells}
    {bump bump₁ bump₂ : Bump.State} {prop first second : Entry}
    (hfirst : rewriteFirst m hhdmBase answers ⟨2, 1⟩ bump prop = .ok (.empty, first, cells, bump₁))
    (hsecond : rewriteSecond m hhdmBase answers none cells bump₁ first = .ok (second, bump₂)) :
    recursivePropertyRewrite m hhdmBase answers [prop] .none bump =
      .ok (.empty, .node cells [second] .none .none, bump₂) := by
  have hfirstLap : firstLap m hhdmBase answers [prop] ⟨2, 1⟩ bump =
      .ok (.empty, [first], cells, bump₁) := by
    rw [firstLap, hfirst]
    rfl
  have hsecondLap : secondLap m hhdmBase answers none cells [first] bump₁ =
      .ok ([second], bump₂) := by
    rw [secondLap, hsecond]
    rfl
  rw [recursivePropertyRewrite, rewriteNodes, hfirstLap, ok_bind]
  dsimp only
  rw [if_neg (by decide), hsecondLap, ok_bind, rewriteNodes, ok_bind]
  dsimp only
  rw [if_neg (by decide), rewriteNodes]
  rfl

end Occurrence

end Octiron.DeviceTree
