import Mathlib.Data.Nat.Digits.Lemmas

/-! Numerals in any base, digit by digit and the most significant one first.  A number has
exactly one without a leading zero. -/
namespace Octiron.Lib.Positional

/-- The digits of `n` in base `b`, as one writes them. -/
structure IsPositional (b : Nat) (ds : List Nat) (n : Nat) : Prop where
  nonempty : ds ≠ []
  digits : ∀ d ∈ ds, d < b
  noLeadingZero : ds.head? = some 0 → ds = [0]
  value : Nat.ofDigits b ds.reverse = n

def positional (b n : Nat) : List Nat := if n = 0 then [0] else (Nat.digits b n).reverse

section Positional

variable {b n : Nat} {ds : List Nat}

theorem positional_of_ne_zero (hn : n ≠ 0) : positional b n = (Nat.digits b n).reverse := if_neg hn

theorem isPositional_positional (hb : 1 < b) (n : Nat) : IsPositional b (positional b n) n := by
  by_cases hn : n = 0
  · subst hn
    have hzero : ∀ d ∈ positional b 0, d = 0 := fun d hd => List.mem_singleton.mp hd
    exact ⟨List.cons_ne_nil 0 [], fun d hd => by rw [hzero d hd]; omega, fun _ => rfl,
      Nat.ofDigits_singleton⟩
  rw [positional_of_ne_zero hn]
  have hne : Nat.digits b n ≠ [] := Nat.digits_ne_nil_iff_ne_zero.mpr hn
  refine ⟨List.reverse_ne_nil_iff.mpr hne, ?_, ?_, ?_⟩
  · intro d hd
    exact Nat.digits_lt_base hb (List.mem_reverse.mp hd)
  · intro hhead
    rw [List.head?_reverse, List.getLast?_eq_some_getLast hne] at hhead
    exact absurd (Option.some.inj hhead) (Nat.getLast_digit_ne_zero b hn)
  · rw [List.reverse_reverse, Nat.ofDigits_digits]

/-- There is no other. -/
theorem isPositional_iff (hb : 1 < b) : IsPositional b ds n ↔ ds = positional b n := by
  constructor
  · intro h
    by_cases hhead : ds.head? = some 0
    · obtain rfl := h.noLeadingZero hhead
      obtain rfl : 0 = n := h.value
      rfl
    have hne : ds.reverse ≠ [] := List.reverse_ne_nil_iff.mpr h.nonempty
    have hdigits : Nat.digits b n = ds.reverse := by
      rw [← h.value]
      refine Nat.digits_ofDigits b hb _ (fun d hd => h.digits d (List.mem_reverse.mp hd)) ?_
      intro hne' hlast
      apply hhead
      rw [← List.getLast?_reverse, List.getLast?_eq_some_getLast hne', hlast]
    have hn : n ≠ 0 := by
      rintro rfl
      rw [Nat.digits_zero] at hdigits
      exact hne hdigits.symm
    rw [positional_of_ne_zero hn, hdigits, List.reverse_reverse]
  · rintro rfl
    exact isPositional_positional hb n

end Positional

end Octiron.Lib.Positional
