import Mathlib.Tactic.Common
import Mathlib.Data.List.Basic

/-! Intervals of addresses and the bookkeeping of a memory that is cut into
them.  `cover` counts how often a list of spans covers an address, so a lost
byte is a count of zero and a byte handed out twice a count of two; cutting a
span leaves every count unchanged. -/
namespace Octiron.Lib

structure Span where
  base : Nat
  length : Nat
  deriving DecidableEq, Repr

namespace Span

def last (s : Span) : Nat := s.base + s.length

instance : Membership Nat Span where
  mem s x := s.base ≤ x ∧ x < s.base + s.length

theorem mem_def {s : Span} {x : Nat} : x ∈ s ↔ s.base ≤ x ∧ x < s.base + s.length := Iff.rfl

instance (s : Span) (x : Nat) : Decidable (x ∈ s) := inferInstanceAs (Decidable (_ ∧ _))

def Disjoint (s t : Span) : Prop := ∀ x, x ∈ s → x ∉ t

/-- `s` lies inside `t`, the empty span included. -/
def Inside (s t : Span) : Prop := t.base ≤ s.base ∧ s.base + s.length ≤ t.base + t.length

instance (s t : Span) : Decidable (Inside s t) := inferInstanceAs (Decidable (_ ∧ _))

theorem Disjoint.symm {s t : Span} (h : Disjoint s t) : Disjoint t s :=
  fun x ht hs => h x hs ht

theorem Inside.mem {s t : Span} (h : Inside s t) {x : Nat} (hx : x ∈ s) : x ∈ t := by
  obtain ⟨hlow, hhigh⟩ := h
  rw [mem_def] at hx ⊢
  omega

theorem Inside.trans {s t r : Span} (h : Inside s t) (h' : Inside t r) : Inside s r := by
  obtain ⟨hlow, hhigh⟩ := h
  obtain ⟨hlow', hhigh'⟩ := h'
  exact ⟨by omega, by omega⟩

theorem Disjoint.mono {s t s' t' : Span} (h : Disjoint s t) (hs : Inside s' s)
    (ht : Inside t' t) : Disjoint s' t' :=
  fun x hx hx' => h x (hs.mem hx) (ht.mem hx')

theorem disjoint_iff {s t : Span} (hs : 0 < s.length) (ht : 0 < t.length) :
    Disjoint s t ↔ s.base + s.length ≤ t.base ∨ t.base + t.length ≤ s.base := by
  constructor
  · intro h
    have hmax := h (max s.base t.base)
    simp only [mem_def] at hmax
    omega
  · intro h x hx hx'
    rw [mem_def] at hx hx'
    omega

/-- Spans of a disjoint list that share an address are one. -/
theorem eq_of_pairwise_disjoint {ss : List Span} (h : ss.Pairwise Disjoint) {s t : Span}
    (hs : s ∈ ss) (ht : t ∈ ss) {x : Nat} (hxs : x ∈ s) (hxt : x ∈ t) : s = t := by
  induction h with
  | nil => exact nomatch hs
  | cons hfirst _ ih =>
    rcases List.mem_cons.mp hs with rfl | hs' <;> rcases List.mem_cons.mp ht with rfl | ht'
    · rfl
    · exact absurd hxt (hfirst t ht' x hxs)
    · exact absurd hxs (hfirst s hs' x hxt)
    · exact ih hs' ht'

/-- Two places of a disjoint list hold disjoint spans. -/
theorem disjoint_of_getElem? {ss : List Span} (h : ss.Pairwise Disjoint) {i j : Nat} {s t : Span}
    (hs : ss[i]? = some s) (ht : ss[j]? = some t) (hne : i ≠ j) : Disjoint s t := by
  obtain ⟨hi, rfl⟩ := List.getElem?_eq_some_iff.mp hs
  obtain ⟨hj, rfl⟩ := List.getElem?_eq_some_iff.mp ht
  rw [List.pairwise_iff_getElem] at h
  rcases Nat.lt_or_gt_of_ne hne with hlt | hgt
  · exact h i j hi hj hlt
  · exact (h j i hj hi hgt).symm

/-- How many spans of the list contain the address. -/
def cover (ss : List Span) (x : Nat) : Nat := ss.countP (fun s => decide (x ∈ s))

@[simp] theorem cover_nil (x : Nat) : cover [] x = 0 := rfl

theorem cover_cons (s : Span) (ss : List Span) (x : Nat) :
    cover (s :: ss) x = (if x ∈ s then 1 else 0) + cover ss x := by
  rw [cover, List.countP_cons, Nat.add_comm]
  simp [cover]

theorem cover_singleton (s : Span) (x : Nat) : cover [s] x = if x ∈ s then 1 else 0 := by
  rw [cover_cons, cover_nil, Nat.add_zero]

theorem cover_append (ss ts : List Span) (x : Nat) :
    cover (ss ++ ts) x = cover ss x + cover ts x := List.countP_append

theorem cover_pos_of_mem {ss : List Span} {s : Span} (hs : s ∈ ss) {x : Nat} (hx : x ∈ s) :
    0 < cover ss x :=
  List.countP_pos_iff.mpr ⟨s, hs, by simpa using hx⟩

theorem cover_eq_zero_of_disjoint {ss : List Span} {t : Span}
    (h : ∀ s ∈ ss, Disjoint s t) {x : Nat} (hx : x ∈ t) : cover ss x = 0 := by
  rw [cover, List.countP_eq_zero]
  intro s hs
  simpa using fun hxs => h s hs x hxs hx

/-- Spans counted together at most once are disjoint. -/
theorem disjoint_of_cover_le {ss ts : List Span} {s t : Span} (hs : s ∈ ss) (ht : t ∈ ts)
    (h : ∀ x, x ∈ s → cover ss x + cover ts x ≤ 1) : Disjoint s t := by
  intro x hxs hxt
  have hone := h x hxs
  have hpos := cover_pos_of_mem hs hxs
  have hpos' := cover_pos_of_mem ht hxt
  omega

def total : List Span → Nat
  | [] => 0
  | s :: ss => s.length + total ss

theorem total_append (ss ts : List Span) : total (ss ++ ts) = total ss + total ts := by
  induction ss with
  | nil => rw [List.nil_append, total, Nat.zero_add]
  | cons s ss ih => rw [List.cons_append, total, total, ih, Nat.add_assoc]

/-- Cutting `[a, a + n)` out of a block: the parts kept and the part dropped when
only the part in front of the cut, or failing that the part behind it, is kept. -/
def keptByCut (block : Span) (a n : Nat) : List Span :=
  if block.base < a then [⟨block.base, a - block.base⟩]
  else if a + n < block.base + block.length then [⟨a + n, block.base + block.length - (a + n)⟩]
  else []

def lostByCut (block : Span) (a n : Nat) : List Span :=
  if block.base < a ∧ a + n < block.base + block.length then
    [⟨a + n, block.base + block.length - (a + n)⟩]
  else []

/-- The kept parts, the cut and the lost part are the block, each byte once. -/
theorem cover_cut {block : Span} {a n : Nat} (h : Inside ⟨a, n⟩ block) (x : Nat) :
    cover (keptByCut block a n) x + cover [⟨a, n⟩] x + cover (lostByCut block a n) x =
      cover [block] x := by
  obtain ⟨hlow, hhigh⟩ := h
  simp only at hlow hhigh
  unfold keptByCut lostByCut
  by_cases hfront : block.base < a <;>
    by_cases hback : a + n < block.base + block.length <;>
    simp only [hfront, hback, and_self, and_true, and_false, if_true, if_false,
      cover_singleton, cover_nil, mem_def] <;>
    split_ifs <;> omega

theorem total_cut {block : Span} {a n : Nat} (h : Inside ⟨a, n⟩ block) :
    total (keptByCut block a n) + n + total (lostByCut block a n) = block.length := by
  obtain ⟨hlow, hhigh⟩ := h
  simp only at hlow hhigh
  unfold keptByCut lostByCut
  by_cases hfront : block.base < a <;>
    by_cases hback : a + n < block.base + block.length <;>
    simp only [hfront, hback, and_self, and_true, and_false, if_true, if_false, total] <;>
    omega

theorem inside_of_mem_keptByCut {block s : Span} {a n : Nat} (h : Inside ⟨a, n⟩ block)
    (hs : s ∈ keptByCut block a n) : Inside s block ∧ 0 < s.length := by
  obtain ⟨hlow, hhigh⟩ := h
  simp only at hlow hhigh
  unfold keptByCut at hs
  split_ifs at hs with hfront hback
  · rw [List.mem_singleton.mp hs]
    exact ⟨⟨Nat.le_refl _, by dsimp; omega⟩, by dsimp; omega⟩
  · rw [List.mem_singleton.mp hs]
    exact ⟨⟨by dsimp; omega, by dsimp; omega⟩, by dsimp; omega⟩
  · simp at hs

theorem mem_lostByCut {block s : Span} {a n : Nat} (h : Inside ⟨a, n⟩ block)
    (hs : s ∈ lostByCut block a n) : Inside s block ∧ 0 < s.length := by
  obtain ⟨hlow, hhigh⟩ := h
  simp only at hlow hhigh
  unfold lostByCut at hs
  split_ifs at hs with hboth
  · rw [List.mem_singleton.mp hs]
    exact ⟨⟨by dsimp; omega, by dsimp; omega⟩, by dsimp; omega⟩
  · simp at hs

theorem cover_lostByCut_eq_zero {block : Span} {a n : Nat} (h : Inside ⟨a, n⟩ block) {x : Nat}
    (hx : x ∉ block) : cover (lostByCut block a n) x = 0 := by
  rw [cover, List.countP_eq_zero]
  intro s hs
  simpa using fun hin => hx ((mem_lostByCut h hs).1.mem hin)

end Span
end Octiron.Lib
