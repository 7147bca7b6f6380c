import Mathlib.Tactic.Common

/-! Singly linked lists: a head, a successor function and a null value. -/
namespace Octiron.Lib.LinkedList

section

variable {α : Type} (next : α → α)

/-- Following `next` from `p` passes `xs` and comes to `q`. -/
def Segment : α → List α → α → Prop
  | p, [], q => p = q
  | p, x :: xs, q => p = x ∧ Segment (next x) xs q

/-- The list from `p` to null. -/
structure Linked (null p : α) (xs : List α) : Prop where
  segment : Segment next p xs null
  ne_null : null ∉ xs

/-- The walk along a list, with `fuel` turns. -/
def walk [DecidableEq α] (null : α) : Nat → α → Option (List α)
  | 0, _ => none
  | fuel + 1, p => if p = null then some [] else (walk null fuel (next p)).map (p :: ·)

end

variable {α : Type} {next next' : α → α} {null p q x : α} {xs ys : List α}

theorem segment_append : Segment next p (xs ++ ys) q ↔
    ∃ r, Segment next p xs r ∧ Segment next r ys q := by
  induction xs generalizing p with
  | nil => simp [Segment]
  | cons x xs ih =>
    rw [List.cons_append, Segment, ih]
    constructor
    · rintro ⟨hp, r, hxs, hys⟩
      exact ⟨r, ⟨hp, hxs⟩, hys⟩
    · rintro ⟨r, ⟨hp, hxs⟩, hys⟩
      exact ⟨hp, r, hxs, hys⟩

theorem segment_concat : Segment next p (xs ++ [x]) q ↔ Segment next p xs x ∧ next x = q := by
  rw [segment_append]
  constructor
  · rintro ⟨r, hxs, rfl, hq⟩
    exact ⟨hxs, hq⟩
  · rintro ⟨hxs, hq⟩
    exact ⟨x, hxs, rfl, hq⟩

/-- Only the successors of the elements matter. -/
theorem Segment.congr (h : Segment next p xs q) (hsame : ∀ x ∈ xs, next' x = next x) :
    Segment next' p xs q := by
  induction xs generalizing p with
  | nil => exact h
  | cons x xs ih =>
    refine ⟨h.1, ?_⟩
    rw [hsame x List.mem_cons_self]
    exact ih h.2 fun y hy => hsame y (List.mem_cons_of_mem _ hy)

theorem Linked.congr (h : Linked next null p xs) (hsame : ∀ x ∈ xs, next' x = next x) :
    Linked next' null p xs :=
  ⟨h.segment.congr hsame, h.ne_null⟩

theorem linked_nil : Linked next null p [] ↔ p = null := by
  constructor
  · exact fun h => h.segment
  · exact fun h => ⟨h, List.not_mem_nil⟩

theorem linked_cons : Linked next null p (x :: xs) ↔ p = x ∧ x ≠ null ∧ Linked next null (next x) xs := by
  constructor
  · rintro ⟨⟨hp, hxs⟩, hnull⟩
    rw [List.mem_cons, not_or] at hnull
    exact ⟨hp, Ne.symm hnull.1, hxs, hnull.2⟩
  · rintro ⟨hp, hne, hxs, hnull⟩
    refine ⟨⟨hp, hxs⟩, ?_⟩
    rw [List.mem_cons, not_or]
    exact ⟨hne.symm, hnull⟩

/-- A head has one list. -/
theorem Linked.unique (h : Linked next null p xs) (h' : Linked next null p ys) : xs = ys := by
  induction xs generalizing p ys with
  | nil =>
    cases ys with
    | nil => rfl
    | cons y ys =>
      obtain ⟨hp, hne, -⟩ := linked_cons.mp h'
      exact absurd (hp.symm.trans (linked_nil.mp h)) hne
  | cons x xs ih =>
    obtain ⟨hp, hne, hxs⟩ := linked_cons.mp h
    cases ys with
    | nil => exact absurd (hp.symm.trans (linked_nil.mp h')) hne
    | cons y ys =>
      obtain ⟨hp', -, hys⟩ := linked_cons.mp h'
      obtain rfl : x = y := hp.symm.trans hp'
      rw [ih hxs hys]

/-- A new last element. -/
theorem Linked.concat (h : Linked next null p (xs ++ [x])) (hq : q ≠ null)
    (hsame : ∀ y ∈ xs, next' y = next y) (hx : next' x = q) (hend : next' q = null) :
    Linked next' null p (xs ++ [x] ++ [q]) := by
  constructor
  · rw [segment_concat, segment_concat]
    exact ⟨⟨(segment_concat.mp h.segment).1.congr hsame, hx⟩, hend⟩
  · rw [List.mem_append, List.mem_singleton, not_or]
    exact ⟨h.ne_null, hq.symm⟩

/-- A walk ends at null, having passed the list. -/
theorem walk_eq_some [DecidableEq α] {fuel : Nat} :
    walk next null fuel p = some xs ↔ Linked next null p xs ∧ xs.length < fuel := by
  induction fuel generalizing p xs with
  | zero => simp [walk]
  | succ fuel ih =>
    rw [walk]
    split
    · next hp =>
      constructor
      · rintro ⟨⟩
        exact ⟨linked_nil.mpr hp, Nat.succ_pos fuel⟩
      · rintro ⟨h, -⟩
        rw [h.unique (linked_nil.mpr hp)]
    · next hp =>
      cases xs with
      | nil =>
        rw [linked_nil]
        simp [hp]
      | cons x xs =>
        rw [linked_cons, Option.map_eq_some_iff, List.length_cons, Nat.succ_lt_succ_iff]
        constructor
        · rintro ⟨zs, hwalk, hcons⟩
          obtain ⟨rfl, rfl⟩ := List.cons.inj hcons
          obtain ⟨hlinked, hlength⟩ := ih.mp hwalk
          exact ⟨⟨rfl, hp, hlinked⟩, hlength⟩
        · rintro ⟨⟨rfl, -, hlinked⟩, hlength⟩
          exact ⟨xs, ih.mpr ⟨hlinked, hlength⟩, rfl⟩

end Octiron.Lib.LinkedList
