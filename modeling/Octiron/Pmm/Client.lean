import Octiron.Types.Error

/-! `pmm::alloc` as its callers see it: a sequence of answers, the `k`-th call
getting the `k`-th one. -/
namespace Octiron.Pmm

inductive Answer where
  | failed (err : Error) (herr : err.isErr = true)
  | granted (page : U64)

abbrev Answers := Nat → Answer

def Answer.isGranted : Answer → Bool
  | .failed _ _ => false
  | .granted _ => true

/-- Every call from the `m`-th on and before the `n`-th was answered with memory. -/
def AllGranted (answers : Answers) (m n : Nat) : Prop :=
  ∀ k, m ≤ k → k < n → (answers k).isGranted = true

theorem AllGranted.refl (answers : Answers) (n : Nat) : AllGranted answers n n :=
  fun _ hlow hhigh => absurd (hlow.trans_lt hhigh) (Nat.lt_irrefl n)

theorem AllGranted.trans {answers : Answers} {l m n : Nat} (h : AllGranted answers l m)
    (h' : AllGranted answers m n) : AllGranted answers l n := by
  intro k hlow hhigh
  by_cases hmid : k < m
  · exact h k hlow hmid
  · exact h' k (Nat.le_of_not_lt hmid) hhigh

theorem AllGranted.succ {answers : Answers} {n : Nat} {page : U64}
    (h : answers n = .granted page) : AllGranted answers n (n + 1) := by
  intro k hlow hhigh
  rw [Nat.le_antisymm (Nat.le_of_lt_succ hhigh) hlow, h]
  rfl

end Octiron.Pmm
