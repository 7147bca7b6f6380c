import Mathlib.Tactic.Common
import Mathlib.Logic.Relation

/-! Runs of a system whose steps are labelled with calls, and runs all of whose
calls meet a condition on the state they are made in. -/
namespace Octiron.Lib.Runs

section

variable {W C : Type} (init : W → Prop) (step : W → C → W → Prop)

def StepWhere (P : W → C → Prop) (w w' : W) : Prop := ∃ c, P w c ∧ step w c w'

def RunWhere (P : W → C → Prop) (w : W) : Prop :=
  ∃ w₀, init w₀ ∧ Relation.ReflTransGen (StepWhere step P) w₀ w

def Run (w : W) : Prop := RunWhere init step (fun _ _ => True) w

end

variable {W C : Type} {init : W → Prop} {step : W → C → W → Prop} {P : W → C → Prop}

theorem RunWhere.start {w : W} (h : init w) : RunWhere init step P w := ⟨w, h, .refl⟩

theorem RunWhere.next {w w' : W} {c : C} (h : RunWhere init step P w) (hcall : P w c)
    (hstep : step w c w') : RunWhere init step P w' := by
  obtain ⟨w₀, hw₀, hrun⟩ := h
  exact ⟨w₀, hw₀, hrun.tail ⟨c, hcall, hstep⟩⟩

/-- A property of the initial states that every step of a run preserves holds in
every state of the run. -/
theorem RunWhere.induction {Q : W → Prop} (hinit : ∀ w, init w → Q w)
    (hstep : ∀ w c w', RunWhere init step P w → Q w → P w c → step w c w' → Q w') {w : W}
    (h : RunWhere init step P w) : Q w := by
  obtain ⟨w₀, hw₀, hrun⟩ := h
  induction hrun with
  | refl => exact hinit _ hw₀
  | tail hbefore hlast ih =>
    obtain ⟨c, hcall, hlast⟩ := hlast
    exact hstep _ c _ ⟨w₀, hw₀, hbefore⟩ ih hcall hlast

theorem RunWhere.imp {Q : W → C → Prop} (himp : ∀ w c, P w c → Q w c) {w : W}
    (h : RunWhere init step P w) : RunWhere init step Q w := by
  refine h.induction (Q := RunWhere init step Q) (fun _ hw => .start hw) ?_
  intro w c w' _ hrun hcall hstep
  exact hrun.next (himp w c hcall) hstep

theorem RunWhere.run {w : W} (h : RunWhere init step P w) : Run init step w :=
  h.imp fun _ _ _ => trivial

/-- When a step leads to a good state exactly from a good state and by a call that
meets the condition, the good states of runs are the ones such calls lead to. -/
theorem Run.good_iff {Good : W → Prop} (hinit : ∀ w, init w → Good w)
    (hstep : ∀ w c w', Run init step w → step w c w' → (Good w' ↔ Good w ∧ P w c)) {w : W}
    (h : Run init step w) : Good w ↔ RunWhere init step P w := by
  constructor
  · refine RunWhere.induction (Q := fun w => Good w → RunWhere init step P w) ?_ ?_ h
    · exact fun _ hw _ => .start hw
    · intro w c w' hrun ih _ hlast hgood
      obtain ⟨hbefore, hcall⟩ := (hstep w c w' hrun hlast).mp hgood
      exact (ih hbefore).next hcall hlast
  · intro hwhere
    refine RunWhere.induction (Q := Good) hinit ?_ hwhere
    intro w c w' hrun hgood hcall hlast
    exact (hstep w c w' hrun.run hlast).mpr ⟨hgood, hcall⟩

end Octiron.Lib.Runs
