import Mathlib.Tactic.Common
import Mathlib.Data.List.Basic

/-! Offering the items of a list, in order, to a party that may refuse one; the
first refusal ends it. -/
namespace Octiron.Lib.Offers

variable {σ α : Type} (accept : σ → α → Option σ)

/-- The items that get offered. -/
def offered : σ → List α → List α
  | _, [] => []
  | st, a :: rest => a :: match accept st a with
    | none => []
    | some st' => offered st' rest

/-- All the items but the last are accepted, and the last is refused. -/
def RefusedAtLast : σ → List α → Prop
  | _, [] => False
  | st, a :: rest => match accept st a with
    | none => rest = []
    | some st' => RefusedAtLast st' rest

variable {accept} {st st' : σ} {a : α} {rest items items' : List α}

theorem offered_cons_of_refused (h : accept st a = none) :
    offered accept st (a :: rest) = [a] := by
  rw [offered, h]

theorem offered_cons_of_accepted (h : accept st a = some st') :
    offered accept st (a :: rest) = a :: offered accept st' rest := by
  rw [offered, h]

theorem refusedAtLast_cons_of_refused (h : accept st a = none) :
    RefusedAtLast accept st (a :: rest) ↔ rest = [] := by
  rw [RefusedAtLast, h]

theorem refusedAtLast_cons_of_accepted (h : accept st a = some st') :
    RefusedAtLast accept st (a :: rest) ↔ RefusedAtLast accept st' rest := by
  rw [RefusedAtLast, h]

theorem offered_is_start (st : σ) (items : List α) : offered accept st items <+: items := by
  induction items generalizing st with
  | nil => exact List.prefix_refl _
  | cons a rest ih =>
    rw [offered]
    cases accept st a with
    | none => exact List.cons_prefix_cons.mpr ⟨rfl, List.nil_prefix⟩
    | some st' => exact List.cons_prefix_cons.mpr ⟨rfl, ih st'⟩

/-- Items behind a refused one do not matter. -/
theorem offered_of_refusedAtLast (h : RefusedAtLast accept st items) (hextends : items <+: items') :
    offered accept st items' = items := by
  induction items generalizing st items' with
  | nil => exact h.elim
  | cons a rest ih =>
    obtain ⟨tail, rfl⟩ := hextends
    cases haccept : accept st a with
    | none =>
      rw [refusedAtLast_cons_of_refused haccept] at h
      rw [List.cons_append, offered_cons_of_refused haccept, h]
    | some st' =>
      rw [refusedAtLast_cons_of_accepted haccept] at h
      rw [List.cons_append, offered_cons_of_accepted haccept, ih h (List.prefix_append ..)]

/-- Two lists look the same to that party exactly when they are the same, or agree
up to an item it refuses. -/
theorem offered_eq_iff :
    offered accept st items = offered accept st items' ↔
      items = items' ∨ ∃ common, RefusedAtLast accept st common ∧ common <+: items ∧
        common <+: items' := by
  constructor
  · intro heq
    induction items generalizing st items' with
    | nil =>
      cases items' with
      | nil => exact .inl rfl
      | cons b rest' => simp [offered] at heq
    | cons a rest ih =>
      cases items' with
      | nil => simp [offered] at heq
      | cons b rest' =>
        cases haccept : accept st a with
        | none =>
          have hab : a = b := by
            rw [offered, offered] at heq
            exact (List.cons.inj heq).1
          subst hab
          exact .inr ⟨[a], (refusedAtLast_cons_of_refused haccept).mpr rfl, by simp, by simp⟩
        | some st' =>
          have hab : a = b := by
            rw [offered, offered] at heq
            exact (List.cons.inj heq).1
          subst hab
          rw [offered_cons_of_accepted haccept, offered_cons_of_accepted haccept] at heq
          rcases ih (List.cons.inj heq).2 with rfl | ⟨common, hrefused, hextends, hextends'⟩
          · exact .inl rfl
          · exact .inr ⟨a :: common, (refusedAtLast_cons_of_accepted haccept).mpr hrefused,
              List.cons_prefix_cons.mpr ⟨rfl, hextends⟩, List.cons_prefix_cons.mpr ⟨rfl, hextends'⟩⟩
  · rintro (rfl | ⟨common, hrefused, hextends, hextends'⟩)
    · rfl
    · rw [offered_of_refusedAtLast hrefused hextends, offered_of_refusedAtLast hrefused hextends']

end Octiron.Lib.Offers
