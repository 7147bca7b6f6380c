import Octiron.DeviceTree.Reordering

/-! The cell counts of a tree: the pass returns an error exactly when one of them is
too large, however deep its node lies, and otherwise leaves every node within bounds. -/
namespace Octiron.DeviceTree

open Lib.ByteMemory Exec Pmm

namespace Nodes

/-- What holds of a node, by its cell counts and properties, holds somewhere. -/
def Any (p : Cells → List Entry → Prop) : Nodes → Prop
  | none => False
  | node cells properties children nextSibling =>
    p cells properties ∨ children.Any p ∨ nextSibling.Any p

/-- It holds everywhere. -/
def All (p : Cells → List Entry → Prop) : Nodes → Prop
  | none => True
  | node cells properties children nextSibling =>
    p cells properties ∧ children.All p ∧ nextSibling.All p

theorem All.mono {p q : Cells → List Entry → Prop} {nodes : Nodes} (h : nodes.All p)
    (himp : ∀ cells properties, p cells properties → q cells properties) : nodes.All q := by
  induction nodes with
  | none => trivial
  | node cells properties children next ihchildren ihnext =>
    obtain ⟨hhere, hchildren, hnext⟩ := h
    exact ⟨himp _ _ hhere, ihchildren hchildren, ihnext hnext⟩

end Nodes

/-- The counts that the decoders can handle. -/
def Cells.Bounded (cells : Cells) : Prop := cells.address ≤ 3 ∧ cells.size ≤ 2

section Turns

variable (m : Mem)

/-- A count that the pass refuses. -/
def TooLarge (prop : Entry) : Prop :=
  (prop.name.bytes m = literal "#address-cells" ∧ 3 < readBigEndian32 m prop.data.raw.data) ∨
    (prop.name.bytes m = literal "#size-cells" ∧ 2 < readBigEndian32 m prop.data.raw.data)

def HasTooLarge (properties : List Entry) : Prop := ∃ prop ∈ properties, TooLarge m prop

variable {m} {hhdmBase : U64} {answers : Answers} {cells cells' : Cells}
  {bump bump' : Bump.State} {prop prop' : Entry} {properties properties' : List Entry}
  {err : Error}

theorem tooLarge_iff : TooLarge m prop ↔
    (keywordOf m prop.name = some .addressCells ∧ 3 < readBigEndian32 m prop.data.raw.data) ∨
      (keywordOf m prop.name = some .sizeCells ∧ 2 < readBigEndian32 m prop.data.raw.data) := by
  rw [keywordOf_eq_some_iff, keywordOf_eq_some_iff]
  rfl

/-- A turn of the first lap refuses, or keeps the counts within bounds. -/
theorem rewriteFirst_cases
    (h : rewriteFirst m hhdmBase answers cells bump prop = .ok (err, prop', cells', bump')) :
    (err.isErr = true ∧ TooLarge m prop) ∨
      (err.isErr = false ∧ ¬ TooLarge m prop ∧ (cells.Bounded → cells'.Bounded)) := by
  rw [tooLarge_iff]
  unfold rewriteFirst at h
  cases hkeyword : keywordOf m prop.name with
  | none =>
    rw [hkeyword] at h
    cases h
    exact .inr ⟨rfl, by simp, id⟩
  | some keyword =>
    rw [hkeyword] at h
    cases keyword
    case compatible =>
      obtain ⟨⟨rewritten, bump₁⟩, -, h⟩ := bind_eq_ok.mp h
      cases h
      exact .inr ⟨rfl, by simp, id⟩
    case addressCells =>
      dsimp only at h
      split at h
      · next hlarge =>
        cases h
        exact .inl ⟨rfl, .inl ⟨rfl, hlarge⟩⟩
      · next hsmall =>
        cases h
        exact .inr ⟨rfl, by simpa using hsmall, fun hbounded =>
          ⟨BitVec.not_lt.mp hsmall, hbounded.2⟩⟩
    case sizeCells =>
      dsimp only at h
      split at h
      · next hlarge =>
        cases h
        exact .inl ⟨rfl, .inr ⟨rfl, hlarge⟩⟩
      · next hsmall =>
        cases h
        exact .inr ⟨rfl, by simpa using hsmall, fun hbounded =>
          ⟨hbounded.1, BitVec.not_lt.mp hsmall⟩⟩
    all_goals
      cases h
      exact .inr ⟨rfl, by simp, id⟩

/-- The first error ends the lap, and a lap without one has met no large count. -/
theorem firstLap_cases
    (h : firstLap m hhdmBase answers properties cells bump = .ok (err, properties', cells', bump')) :
    (err.isErr = true ∧ HasTooLarge m properties) ∨
      (err.isErr = false ∧ ¬ HasTooLarge m properties ∧ (cells.Bounded → cells'.Bounded)) := by
  induction properties generalizing properties' cells cells' bump bump' err with
  | nil =>
    cases h
    exact .inr ⟨rfl, by simp [HasTooLarge], id⟩
  | cons prop rest ih =>
    obtain ⟨⟨turnErr, prop', turnCells, turnBump⟩, hturn, h⟩ := bind_eq_ok.mp h
    dsimp only at h
    obtain ⟨hturnErr, hlarge⟩ | ⟨hturnErr, hsmall, hturnBounded⟩ := rewriteFirst_cases hturn
    · rw [if_pos hturnErr] at h
      cases h
      exact .inl ⟨hturnErr, prop, List.mem_cons_self, hlarge⟩
    rw [if_neg (by rw [hturnErr]; decide)] at h
    obtain ⟨⟨lapErr, rest', lapCells, lapBump⟩, hlap, h⟩ := bind_eq_ok.mp h
    cases h
    obtain ⟨hlapErr, before, hmem, hlarge⟩ | ⟨hlapErr, hrest, hlapBounded⟩ := ih hlap
    · exact .inl ⟨hlapErr, before, List.mem_cons_of_mem _ hmem, hlarge⟩
    · refine .inr ⟨hlapErr, ?_, hlapBounded ∘ hturnBounded⟩
      rintro ⟨large, hmem, hlarge⟩
      cases hmem with
      | head => exact hsmall hlarge
      | tail _ hmem => exact hrest ⟨large, hmem, hlarge⟩

end Turns

section Tree

variable {m : Mem} {hhdmBase : U64} {answers : Answers} {parent : Option Cells}
  {nodes nodes' children : Nodes} {properties : List Entry} {bump bump' : Bump.State} {err : Error}

/-- No error is lost on the way up, and none is made there. -/
theorem rewriteNodes_cases
    (h : rewriteNodes m hhdmBase answers parent nodes bump = .ok (err, nodes', bump')) :
    (err.isErr = true ∧ nodes.Any fun _ properties => HasTooLarge m properties) ∨
      (err.isErr = false ∧ ¬ nodes.Any (fun _ properties => HasTooLarge m properties) ∧
        (nodes.All (fun cells _ => cells.Bounded) → nodes'.All fun cells _ => cells.Bounded)) := by
  induction nodes generalizing nodes' parent bump bump' err with
  | none =>
    cases h
    exact .inr ⟨rfl, id, id⟩
  | node cells properties children next ihchildren ihnext =>
    obtain ⟨⟨firstErr, firstProps, firstCells, firstBump⟩, hfirst, h⟩ := bind_eq_ok.mp h
    dsimp only at h
    obtain ⟨hfirstErr, hlarge⟩ | ⟨hfirstErr, hsmall, hfirstBounded⟩ := firstLap_cases hfirst
    · rw [if_pos hfirstErr] at h
      cases h
      exact .inl ⟨hfirstErr, .inl hlarge⟩
    rw [if_neg (by rw [hfirstErr]; decide)] at h
    obtain ⟨⟨secondProps, secondBump⟩, hsecond, h⟩ := bind_eq_ok.mp h
    obtain ⟨⟨childErr, children', childBump⟩, hchildren, h⟩ := bind_eq_ok.mp h
    dsimp only at h
    obtain ⟨hchildErr, hlarge⟩ | ⟨hchildErr, hbelow, hchildBounded⟩ := ihchildren hchildren
    · rw [if_pos hchildErr] at h
      cases h
      exact .inl ⟨hchildErr, .inr (.inl hlarge)⟩
    rw [if_neg (by rw [hchildErr]; decide)] at h
    obtain ⟨⟨nextErr, next', nextBump⟩, hnext, h⟩ := bind_eq_ok.mp h
    cases h
    obtain ⟨hnextErr, hlarge⟩ | ⟨hnextErr, hbeside, hnextBounded⟩ := ihnext hnext
    · exact .inl ⟨hnextErr, .inr (.inr hlarge)⟩
    · refine .inr ⟨hnextErr, ?_, ?_⟩
      · rintro (hlarge | hlarge | hlarge)
        · exact hsmall hlarge
        · exact hbelow hlarge
        · exact hbeside hlarge
      · rintro ⟨hhere, hchildrenAll, hnextAll⟩
        exact ⟨hfirstBounded hhere, hchildBounded hchildrenAll, hnextBounded hnextAll⟩

/-- Below the root the token loop leaves every count at zero. -/
theorem recursivePropertyRewrite_isErr_iff
    (h : recursivePropertyRewrite m hhdmBase answers properties children bump =
      .ok (err, nodes', bump'))
    (hzero : children.All fun cells _ => cells = ⟨0, 0⟩) :
    (err.isErr = true ↔
      (Nodes.node ⟨2, 1⟩ properties children .none).Any fun _ properties =>
        HasTooLarge m properties) ∧
      (err.isErr = false → nodes'.All fun cells _ => cells.Bounded) := by
  have hbounded : (Nodes.node ⟨2, 1⟩ properties children .none).All fun cells _ => cells.Bounded := by
    refine ⟨⟨by decide, by decide⟩, hzero.mono fun cells _ hcells => ?_, trivial⟩
    rw [hcells]
    exact ⟨by decide, by decide⟩
  obtain ⟨herr, hlarge⟩ | ⟨herr, hsmall, hall⟩ := rewriteNodes_cases h
  · refine ⟨⟨fun _ => hlarge, fun _ => herr⟩, fun hok => ?_⟩
    exact absurd (hok.symm.trans herr) (by decide)
  · refine ⟨⟨fun hbad => ?_, fun hlarge => absurd hlarge hsmall⟩, fun _ => hall hbounded⟩
    exact absurd (herr.symm.trans hbad) (by decide)

end Tree

end Octiron.DeviceTree
