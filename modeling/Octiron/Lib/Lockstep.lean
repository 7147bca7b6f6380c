import Mathlib.Tactic.Common

/-! Two computations that run in lockstep: they fail alike, or return related values. -/
namespace Octiron.Lib.Lockstep

section

variable {ε α β : Type}

def Related (R : α → β → Prop) : Except ε α → Except ε β → Prop
  | .ok a, .ok b => R a b
  | .error e, .error e' => e = e'
  | _, _ => False

variable {R : α → β → Prop} {x : Except ε α} {y : Except ε β}

/-- A computation with itself. -/
theorem related_self (x : Except ε α) : Related (fun a b => a = b ∧ x = .ok a) x x := by
  cases x with
  | error e => rfl
  | ok a => exact ⟨rfl, rfl⟩

/-- The first value is what the first computation returns. -/
theorem Related.left_eq (h : Related R x y) : Related (fun a b => R a b ∧ x = .ok a) x y := by
  cases x <;> cases y
  · exact h
  · exact h
  · exact h
  · exact ⟨h, rfl⟩

theorem Related.mono {S : α → β → Prop} (h : Related R x y) (himp : ∀ a b, R a b → S a b) :
    Related S x y := by
  cases x <;> cases y
  · exact h
  · exact h
  · exact h
  · exact himp _ _ h

/-- What the two have returned may be used. -/
theorem Related.imp {S : α → β → Prop} (h : Related R x y)
    (himp : ∀ a b, x = .ok a → y = .ok b → R a b → S a b) : Related S x y := by
  cases x <;> cases y
  · exact h
  · exact h
  · exact h
  · exact himp _ _ rfl rfl h

theorem Related.bind {γ δ : Type} {S : γ → δ → Prop} {f : α → Except ε γ} {g : β → Except ε δ}
    (h : Related R x y) (hnext : ∀ a b, R a b → Related S (f a) (g b)) :
    Related S (x >>= f) (y >>= g) := by
  cases x <;> cases y
  · exact h
  · exact h.elim
  · exact h.elim
  · exact hnext _ _ h

/-- What the one computation still does at its end. -/
theorem Related.bind_left {γ : Type} {S : γ → β → Prop} {f : α → Except ε γ} (h : Related R x y)
    (hnext : ∀ a b, R a b → ∃ c, f a = .ok c ∧ S c b) : Related S (x >>= f) y := by
  cases x with
  | error e =>
    cases y with
    | error e' => exact h
    | ok b => exact h.elim
  | ok a =>
    cases y with
    | error e => exact h.elim
    | ok b =>
      obtain ⟨c, hc, hS⟩ := hnext a b h
      change Related S (f a) (.ok b)
      rw [hc]
      exact hS

theorem Related.bind_right {γ : Type} {S : α → γ → Prop} {g : β → Except ε γ} (h : Related R x y)
    (hnext : ∀ a b, R a b → ∃ c, g b = .ok c ∧ S a c) : Related S x (y >>= g) := by
  cases x with
  | error e =>
    cases y with
    | error e' => exact h
    | ok b => exact h.elim
  | ok a =>
    cases y with
    | error e => exact h.elim
    | ok b =>
      obtain ⟨c, hc, hS⟩ := hnext a b h
      change Related S (.ok a) (g b)
      rw [hc]
      exact hS

theorem Related.error {e : ε} (h : Related R x y) (hx : x = .error e) : y = .error e := by
  subst hx
  cases y with
  | error e' => exact congrArg Except.error (Eq.symm h)
  | ok b => exact h.elim

theorem Related.ok {a : α} (h : Related R x y) (hx : x = .ok a) : ∃ b, y = .ok b ∧ R a b := by
  subst hx
  cases y with
  | error e => exact h.elim
  | ok b => exact ⟨b, rfl, h⟩

theorem Related.ok_right {b : β} (h : Related R x y) (hy : y = .ok b) : ∃ a, x = .ok a ∧ R a b := by
  subst hy
  cases x with
  | error e => exact h.elim
  | ok a => exact ⟨a, rfl, h⟩

end

end Octiron.Lib.Lockstep
