import Mathlib.Tactic.Common

/-! Comparing two lists by their first difference, and by their lengths where there is
none.  The sign of the result is the lexicographic order. -/
namespace Octiron.Lib.ThreeWay

section ThreeWay

variable {α : Type} [DecidableEq α] (rank : α → Nat)

def threeWay : List α → List α → Int
  | a :: s, b :: t => if a ≠ b then (rank a : Int) - rank b else threeWay s t
  | s, t => (s.length : Int) - t.length

variable {rank} {s t : List α}

theorem threeWay_swap : threeWay rank t s = -threeWay rank s t := by
  induction s generalizing t with
  | nil => cases t <;> simp [threeWay]
  | cons a s ih =>
    cases t with
    | nil => simp [threeWay]
    | cons b t =>
      by_cases hab : a = b
      · simp [threeWay, hab, ih]
      · have hba : b ≠ a := Ne.symm hab
        simp only [threeWay, ne_eq, hab, hba, not_false_eq_true, if_true]
        omega

end ThreeWay

/-- The rank of an element says where it is in the order. -/
structure Ranks {α : Type} [LT α] (rank : α → Nat) : Prop where
  lt_iff : ∀ a b, rank a < rank b ↔ a < b
  inj : ∀ a b, rank a = rank b → a = b

section Order

variable {α : Type} [DecidableEq α] [LT α] {rank : α → Nat} {s t u : List α}

theorem threeWay_neg_iff (hrank : Ranks rank) : threeWay rank s t < 0 ↔ s < t := by
  induction s generalizing t with
  | nil =>
    cases t with
    | nil => simp [threeWay]
    | cons b t =>
      apply iff_of_true
      · simp only [threeWay, List.length_nil, List.length_cons]
        omega
      · exact List.nil_lt_cons b t
  | cons a s ih =>
    cases t with
    | nil =>
      apply iff_of_false
      · simp only [threeWay, List.length_nil, List.length_cons]
        omega
      · exact List.not_lt_nil _
    | cons b t =>
      have hirrefl : ¬ b < b := by
        rw [← hrank.lt_iff]
        exact Nat.lt_irrefl _
      rw [List.cons_lt_cons_iff]
      by_cases hab : a = b
      · simp [threeWay, hab, hirrefl, ih]
      · simp only [threeWay, ne_eq, hab, not_false_eq_true, if_true, false_and, or_false,
          ← hrank.lt_iff]
        omega

theorem threeWay_eq_zero_iff (hrank : Ranks rank) : threeWay rank s t = 0 ↔ s = t := by
  induction s generalizing t with
  | nil =>
    cases t with
    | nil => simp [threeWay]
    | cons b t =>
      apply iff_of_false
      · simp only [threeWay, List.length_nil, List.length_cons]
        omega
      · exact (List.cons_ne_nil b t).symm
  | cons a s ih =>
    cases t with
    | nil =>
      apply iff_of_false
      · simp only [threeWay, List.length_nil, List.length_cons]
        omega
      · exact List.cons_ne_nil a s
    | cons b t =>
      by_cases hab : a = b
      · simp [threeWay, hab, ih]
      · have hne : rank a ≠ rank b := fun heq => hab (hrank.inj a b heq)
        simp only [threeWay, ne_eq, hab, not_false_eq_true, if_true, List.cons.injEq, false_and,
          iff_false]
        omega

theorem threeWay_pos_iff (hrank : Ranks rank) : 0 < threeWay rank s t ↔ t < s := by
  rw [← threeWay_neg_iff hrank, threeWay_swap]
  omega

theorem threeWay_nonpos_iff (hrank : Ranks rank) : threeWay rank s t ≤ 0 ↔ s < t ∨ s = t := by
  rw [← threeWay_neg_iff hrank, ← threeWay_eq_zero_iff hrank]
  omega

theorem threeWay_trans (hrank : Ranks rank) (hst : threeWay rank s t ≤ 0)
    (htu : threeWay rank t u ≤ 0) : threeWay rank s u ≤ 0 := by
  rw [threeWay_nonpos_iff hrank] at hst htu ⊢
  have hlt : ∀ {a b c : α}, a < b → b < c → a < c := by
    intro a b c hab hbc
    rw [← hrank.lt_iff] at hab hbc ⊢
    exact Nat.lt_trans hab hbc
  rcases hst with hst | rfl
  · rcases htu with htu | rfl
    · exact .inl (List.lex_trans hlt hst htu)
    · exact .inl hst
  · exact htu

end Order

end Octiron.Lib.ThreeWay
