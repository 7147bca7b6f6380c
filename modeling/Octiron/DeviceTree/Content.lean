import Octiron.DeviceTree.Rewrite
import Mathlib.Data.List.Forall2

/-! What a rewritten property says, and where it stands in the tree.  A pass that
returns without error has taken every property through both laps, with its node's
final cell counts and those of the parent in the second. -/
namespace Octiron.DeviceTree

open Lib.ByteMemory Exec Pmm

inductive Content where
  | raw (value : List U8)
  | strings (list : List (List U8))
  | string (text : List U8)
  | integer (value : U32)
  | status (value : U32) (reason : List U8)
  | flag (value : Bool)
  | pairs (nPairs : U64) (list : List (Option U128 × Option U64))
  | triples (nTrips : U64) (list : List (U64 × U64 × Option U64))
  | present
  deriving DecidableEq

/-- Read through the member of the union that the type selects; a reason belongs to
`FAIL_WITH_REASON` only. -/
def Entry.content (m : Mem) (prop : Entry) : Content :=
  match prop.type with
  | .raw => .raw ((StrView.ofByteView prop.data.raw).bytes m)
  | .compatible => .strings (prop.strings.map (StrView.bytes m))
  | .model | .deviceType => .string ((StrView.ofByteView prop.data.raw).bytes m)
  | .phandle | .addressCells | .sizeCells | .virtualReg | .interruptParent | .interruptCells =>
    .integer prop.data.low32
  | .status => .status prop.data.low32
    (if prop.data.low32 = DeviceStatus.failWithReason.val then prop.data.reason.bytes m else [])
  | .dmaCoherence => .flag prop.data.flag
  | .reg => .pairs prop.data.word0 prop.pairs
  | .ranges => .triples prop.data.word0 prop.triples
  | .interruptController | .interruptMap => .present

/-- A property of a list of siblings, or of a node below them, before and after the
pass; `p` are the final cell counts of its node's parent, `own` those of its node. -/
inductive Occurs : Option Cells → Nodes → Nodes → Option Cells → Cells → Entry → Entry → Prop where
  | here {parent : Option Cells} {cells own : Cells} {properties properties' : List Entry}
      {children children' next next' : Nodes} {prop prop' : Entry}
      (hmem : (prop, prop') ∈ properties.zip properties') :
      Occurs parent (.node cells properties children next) (.node own properties' children' next')
        parent own prop prop'
  | child {parent p : Option Cells} {cells cells' own : Cells} {properties properties' : List Entry}
      {children children' next next' : Nodes} {prop prop' : Entry}
      (h : Occurs (some cells') children children' p own prop prop') :
      Occurs parent (.node cells properties children next)
        (.node cells' properties' children' next') p own prop prop'
  | sibling {parent p : Option Cells} {cells cells' own : Cells}
      {properties properties' : List Entry} {children children' next next' : Nodes}
      {prop prop' : Entry} (h : Occurs parent next next' p own prop prop') :
      Occurs parent (.node cells properties children next)
        (.node cells' properties' children' next') p own prop prop'

section Laps

variable {m : Mem} {hhdmBase : U64} {answers : Answers}

variable (m hhdmBase answers)

def FirstTurn (prop prop' : Entry) : Prop :=
  ∃ cells cells' bump bump' err, rewriteFirst m hhdmBase answers cells bump prop =
    .ok (err, prop', cells', bump') ∧ err.isErr = false

def SecondTurn (parent : Option Cells) (own : Cells) (prop prop' : Entry) : Prop :=
  ∃ bump bump', rewriteSecond m hhdmBase answers parent own bump prop = .ok (prop', bump')

/-- A property that went through both laps. -/
def Rewritten (parent : Option Cells) (own : Cells) (prop prop' : Entry) : Prop :=
  ∃ first, FirstTurn m hhdmBase answers prop first ∧
    SecondTurn m hhdmBase answers parent own first prop'

variable {m hhdmBase answers}

theorem firstLap_turns {properties properties' : List Entry} {cells cells' : Cells}
    {bump bump' : Bump.State} {err : Error}
    (h : firstLap m hhdmBase answers properties cells bump = .ok (err, properties', cells', bump'))
    (hok : err.isErr = false) :
    List.Forall₂ (FirstTurn m hhdmBase answers) properties properties' := by
  induction properties generalizing properties' cells cells' bump bump' with
  | nil =>
    obtain ⟨-, rfl, -⟩ := ok_triple_inj h
    exact .nil
  | cons prop rest ih =>
    obtain ⟨⟨turnErr, prop', turnCells, turnBump⟩, hturn, h⟩ := bind_eq_ok.mp h
    dsimp only at h
    split at h
    · next herr =>
      obtain ⟨rfl, -⟩ := Prod.mk.inj (pure_eq_ok.mp h)
      exact absurd (hok.symm.trans herr) (by decide)
    · next herr =>
      obtain ⟨⟨lapErr, rest', lapCells, lapBump⟩, hlap, h⟩ := bind_eq_ok.mp h
      obtain ⟨rfl, hresult⟩ := Prod.mk.inj (pure_eq_ok.mp h)
      obtain ⟨rfl, -⟩ := Prod.mk.inj hresult
      exact .cons ⟨_, _, _, _, _, hturn, by simpa using herr⟩ (ih hlap)

theorem secondLap_turns {parent : Option Cells} {own : Cells} {properties properties' : List Entry}
    {bump bump' : Bump.State}
    (h : secondLap m hhdmBase answers parent own properties bump = .ok (properties', bump')) :
    List.Forall₂ (SecondTurn m hhdmBase answers parent own) properties properties' := by
  induction properties generalizing properties' bump bump' with
  | nil =>
    obtain ⟨rfl, -⟩ := ok_pair_inj h
    exact .nil
  | cons prop rest ih =>
    obtain ⟨⟨prop', turnBump⟩, hturn, h⟩ := bind_eq_ok.mp h
    obtain ⟨⟨rest', lapBump⟩, hlap, h⟩ := bind_eq_ok.mp h
    obtain ⟨rfl, -⟩ := Prod.mk.inj (pure_eq_ok.mp h)
    exact .cons ⟨_, _, hturn⟩ (ih hlap)

theorem forall₂_comp {α β γ : Type} {R : α → β → Prop} {S : β → γ → Prop} {l : List α}
    {l' : List β} {l'' : List γ} (h : List.Forall₂ R l l') (h' : List.Forall₂ S l' l'') :
    List.Forall₂ (fun a c => ∃ b, R a b ∧ S b c) l l'' := by
  induction h generalizing l'' with
  | nil =>
    cases h'
    exact .nil
  | cons hfirst hrest ih =>
    cases h' with
    | cons hfirst' hrest' => exact .cons ⟨_, hfirst, hfirst'⟩ (ih hrest')

/-- Every property of a tree that the pass got through without error was rewritten,
with the final cell counts around it. -/
theorem rewriteNodes_rewritten {nodes nodes' : Nodes} {parent p : Option Cells} {own : Cells}
    {prop prop' : Entry} {bump bump' : Bump.State} {err : Error}
    (h : rewriteNodes m hhdmBase answers parent nodes bump = .ok (err, nodes', bump'))
    (hok : err.isErr = false) (hoccurs : Occurs parent nodes nodes' p own prop prop') :
    Rewritten m hhdmBase answers p own prop prop' := by
  induction nodes generalizing nodes' parent bump bump' err with
  | none => cases hoccurs
  | node cells properties children next ihchildren ihnext =>
    obtain ⟨⟨firstErr, firstProps, firstCells, firstBump⟩, hfirst, h⟩ := bind_eq_ok.mp h
    dsimp only at h
    split at h
    · next herr =>
      obtain ⟨rfl, -⟩ := Prod.mk.inj (pure_eq_ok.mp h)
      exact absurd (hok.symm.trans herr) (by decide)
    next hfirstErr =>
    obtain ⟨⟨secondProps, secondBump⟩, hsecond, h⟩ := bind_eq_ok.mp h
    obtain ⟨⟨childErr, children', childBump⟩, hchildren, h⟩ := bind_eq_ok.mp h
    dsimp only at h
    split at h
    · next herr =>
      obtain ⟨rfl, -⟩ := Prod.mk.inj (pure_eq_ok.mp h)
      exact absurd (hok.symm.trans herr) (by decide)
    next hchildErr =>
    obtain ⟨⟨nextErr, next', nextBump⟩, hnext, h⟩ := bind_eq_ok.mp h
    obtain ⟨rfl, hresult⟩ := Prod.mk.inj (pure_eq_ok.mp h)
    obtain ⟨rfl, -⟩ := Prod.mk.inj hresult
    cases hoccurs with
    | here hmem =>
      have hturns := forall₂_comp (firstLap_turns hfirst (by simpa using hfirstErr))
        (secondLap_turns hsecond)
      exact (List.forall₂_iff_zip.mp hturns).2 hmem
    | child hbelow => exact ihchildren hchildren (by simpa using hchildErr) hbelow
    | sibling hbeside => exact ihnext hnext hok hbeside

end Laps

end Octiron.DeviceTree
