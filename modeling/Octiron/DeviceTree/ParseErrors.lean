import Octiron.DeviceTree.CellCounts
import Octiron.DeviceTree.Parse

/-! Which blobs `parse_from_blob` refuses: those whose tree counts too many cells, told
by the bytes of the tree alone. -/
namespace Octiron.DeviceTree

open Lib.Word Lib.ByteMemory Lib.Lockstep Exec

section Bytes

variable {m : Mem} {items : Items} {properties : List Entry} {forest : Forest}

end Bytes

/-- The errors of the pass. -/
def Error.IsCount (err : Error) : Prop :=
  err = .ofCode .dtAddressCellsTooLarge ∨ err = .ofCode .dtSizeCellsTooLarge

section Codes

variable {m : Mem} {hhdmBase : U64} {answers : Pmm.Answers} {cells cells' : Cells}
  {parent : Option Cells} {bump bump' : Bump.State} {err : Error}

theorem rewriteFirst_code {prop prop' : Entry}
    (h : rewriteFirst m hhdmBase answers cells bump prop = .ok (err, prop', cells', bump'))
    (herr : err.isErr = true) : Error.IsCount err := by
  unfold rewriteFirst at h
  generalize keywordOf m prop.name = keyword at h
  cases keyword with
  | none =>
    cases h
    exact absurd herr (by decide)
  | some keyword =>
    cases keyword
    case compatible =>
      obtain ⟨⟨rewritten, bump₁⟩, -, h⟩ := bind_eq_ok.mp h
      cases h
      exact absurd herr (by decide)
    case addressCells =>
      dsimp only at h
      split at h <;> cases h
      · exact .inl rfl
      · exact absurd herr (by decide)
    case sizeCells =>
      dsimp only at h
      split at h <;> cases h
      · exact .inr rfl
      · exact absurd herr (by decide)
    all_goals
      cases h
      exact absurd herr (by decide)

theorem firstLap_code {properties properties' : List Entry}
    (h : firstLap m hhdmBase answers properties cells bump = .ok (err, properties', cells', bump'))
    (herr : err.isErr = true) : Error.IsCount err := by
  induction properties generalizing properties' cells bump err with
  | nil =>
    cases h
    exact absurd herr (by decide)
  | cons prop rest ih =>
    obtain ⟨⟨turnErr, prop', turnCells, turnBump⟩, hturn, h⟩ := bind_eq_ok.mp h
    dsimp only at h
    split at h
    · cases h
      exact rewriteFirst_code hturn herr
    · obtain ⟨⟨lapErr, rest', lapCells, lapBump⟩, hlap, h⟩ := bind_eq_ok.mp h
      cases h
      exact ih hlap herr

theorem rewriteNodes_code {nodes nodes' : Nodes}
    (h : rewriteNodes m hhdmBase answers parent nodes bump = .ok (err, nodes', bump'))
    (herr : err.isErr = true) : Error.IsCount err := by
  induction nodes generalizing parent nodes' bump bump' err with
  | none =>
    cases h
    exact absurd herr (by decide)
  | node cells properties children next ihChildren ihNext =>
    obtain ⟨⟨lapErr, properties₁, own, bump₁⟩, hlap, h⟩ := bind_eq_ok.mp h
    dsimp only at h
    split at h
    · cases h
      exact firstLap_code hlap herr
    obtain ⟨⟨properties₂, bump₂⟩, -, h⟩ := bind_eq_ok.mp h
    obtain ⟨⟨childErr, children', bump₃⟩, hchildren, h⟩ := bind_eq_ok.mp h
    dsimp only at h
    split at h
    · next hchildErr =>
      cases h
      exact ihChildren hchildren hchildErr
    obtain ⟨⟨nextErr, next', bump₄⟩, hnext, h⟩ := bind_eq_ok.mp h
    cases h
    exact ihNext hnext herr

end Codes

section Main

variable {m : Mem} {dtb hhdmBase slash : U64} {answers : Pmm.Answers} {turns : Nat}
  {tree : Tree} {bump : Bump.State} {err : Error} {g : Globals}

end Main

section FourCells

end FourCells

end Octiron.DeviceTree
