import Mathlib.Data.List.Nodup
import Mathlib.Logic.ExistsUnique
import Mathlib.Logic.Function.Basic

/-! Resources that are obtained, held by one owner after the other, and released.  In a
tidy ledger no resource is held twice or released while held, whatever is called; what
calls can do is lose one. -/
namespace Octiron.Lib.Ownership

@[ext] structure Ledger (ι R : Type) where
  held : ι → Option R
  obtained : List R
  released : List R

namespace Ledger

variable {ι R : Type}

structure Tidy (l : Ledger ι R) : Prop where
  obtained : l.obtained.Nodup
  released : l.released.Nodup
  released_obtained : ∀ r ∈ l.released, r ∈ l.obtained
  held_obtained : ∀ i r, l.held i = some r → r ∈ l.obtained
  held_kept : ∀ i r, l.held i = some r → r ∉ l.released
  held_once : ∀ i j r, l.held i = some r → l.held j = some r → i = j

/-- Nothing is lost: what is not released has an owner. -/
def Settled (l : Ledger ι R) : Prop :=
  ∀ r ∈ l.obtained, r ∉ l.released → ∃ i, l.held i = some r

/-- In a tidy ledger that is what it takes for every resource to have one owner or to be
released once. -/
theorem Tidy.settled_iff [DecidableEq R] {l : Ledger ι R} (h : l.Tidy) :
    l.Settled ↔ ∀ r ∈ l.obtained, (∃! i, l.held i = some r) ∧ l.released.count r = 0 ∨
      (¬ ∃ i, l.held i = some r) ∧ l.released.count r = 1 := by
  constructor
  · intro hsettled r hr
    by_cases hreleased : r ∈ l.released
    · refine .inr ⟨?_, List.count_eq_one_of_mem h.released hreleased⟩
      rintro ⟨i, hi⟩
      exact h.held_kept i r hi hreleased
    · obtain ⟨i, hi⟩ := hsettled r hr hreleased
      exact .inl ⟨⟨i, hi, fun k hk => h.held_once k i r hk hi⟩,
        List.count_eq_zero_of_not_mem hreleased⟩
  · intro haccount r hr hkept
    rcases haccount r hr with ⟨⟨i, hi, -⟩, -⟩ | ⟨-, hone⟩
    · exact ⟨i, hi⟩
    · rw [List.count_eq_zero_of_not_mem hkept] at hone
      exact absurd hone Nat.zero_ne_one

section Operations

variable [DecidableEq ι]

def release (l : Ledger ι R) (i : ι) : Ledger ι R :=
  { l with
    held := Function.update l.held i none
    released := (l.held i).toList ++ l.released }

def acquire (l : Ledger ι R) (i : ι) (r : R) : Ledger ι R :=
  { l with
    held := Function.update l.held i (some r)
    obtained := r :: l.obtained }

/-- What `j` holds goes to `i`, in place of what `i` held; with `i = j` it goes nowhere. -/
def move (l : Ledger ι R) (i j : ι) : Ledger ι R :=
  { l with held := Function.update (Function.update l.held i (l.held j)) j none }

variable {l : Ledger ι R} {i j k : ι} {r s : R}

theorem held_release : (l.release i).held k = some s ↔ k ≠ i ∧ l.held k = some s := by
  by_cases hk : k = i
  · simp [release, hk]
  · simp [release, hk]

theorem mem_released_release :
    s ∈ (l.release i).released ↔ l.held i = some s ∨ s ∈ l.released := by
  simp [release]

theorem held_acquire :
    (l.acquire i r).held k = some s ↔ k = i ∧ r = s ∨ k ≠ i ∧ l.held k = some s := by
  by_cases hk : k = i
  · simp [acquire, hk]
  · simp [acquire, hk]

theorem held_move : (l.move i j).held k = some s ↔
    k ≠ j ∧ (k = i ∧ l.held j = some s ∨ k ≠ i ∧ l.held k = some s) := by
  by_cases hk : k = j
  · simp [move, hk]
  · by_cases hki : k = i
    · subst hki
      simp [move, hk]
    · simp [move, hk, hki]

theorem Tidy.release (h : l.Tidy) (i : ι) : (l.release i).Tidy := by
  refine ⟨h.obtained, ?_, ?_, ?_, ?_, ?_⟩
  · cases hheld : l.held i with
    | none =>
      simp only [Ledger.release, hheld, Option.toList_none, List.nil_append]
      exact h.released
    | some r =>
      simp only [Ledger.release, hheld, Option.toList_some, List.singleton_append]
      exact List.nodup_cons.mpr ⟨h.held_kept i r hheld, h.released⟩
  · intro r hr
    rcases mem_released_release.mp hr with hheld | hreleased
    · exact h.held_obtained i r hheld
    · exact h.released_obtained r hreleased
  · exact fun k r hk => h.held_obtained k r (held_release.mp hk).2
  · intro k r hk hr
    obtain ⟨hne, hheld⟩ := held_release.mp hk
    rcases mem_released_release.mp hr with hother | hreleased
    · exact hne (h.held_once k i r hheld hother)
    · exact h.held_kept k r hheld hreleased
  · exact fun k k' r hk hk' =>
      h.held_once k k' r (held_release.mp hk).2 (held_release.mp hk').2

/-- A resource obtained for the first time, for an owner without one. -/
theorem Tidy.acquire (h : l.Tidy) (i : ι) (hfresh : r ∉ l.obtained) : (l.acquire i r).Tidy := by
  have hkeep : ∀ k s, l.held k = some s → s ≠ r := by
    rintro k s hheld rfl
    exact hfresh (h.held_obtained k s hheld)
  refine ⟨List.nodup_cons.mpr ⟨hfresh, h.obtained⟩, h.released, ?_, ?_, ?_, ?_⟩
  · exact fun s hs => List.mem_cons_of_mem r (h.released_obtained s hs)
  · intro k s hk
    rcases held_acquire.mp hk with ⟨-, rfl⟩ | ⟨-, hheld⟩
    · exact List.mem_cons_self
    · exact List.mem_cons_of_mem r (h.held_obtained k s hheld)
  · intro k s hk hs
    rcases held_acquire.mp hk with ⟨-, rfl⟩ | ⟨-, hheld⟩
    · exact hfresh (h.released_obtained r hs)
    · exact h.held_kept k s hheld hs
  · intro k k' s hk hk'
    rcases held_acquire.mp hk with ⟨rfl, hr⟩ | ⟨-, hheld⟩ <;>
      rcases held_acquire.mp hk' with ⟨hk', hr'⟩ | ⟨-, hheld'⟩
    · exact hk'.symm
    · exact absurd hr.symm (hkeep k' s hheld')
    · exact absurd hr'.symm (hkeep k s hheld)
    · exact h.held_once k k' s hheld hheld'

theorem Tidy.move (h : l.Tidy) (i j : ι) : (l.move i j).Tidy := by
  have hbefore : ∀ k r, (l.move i j).held k = some r → ∃ k', l.held k' = some r := by
    intro k r hk
    rcases (held_move.mp hk).2 with ⟨-, hheld⟩ | ⟨-, hheld⟩
    · exact ⟨j, hheld⟩
    · exact ⟨k, hheld⟩
  refine ⟨h.obtained, h.released, h.released_obtained, fun k r hk => ?_, fun k r hk => ?_, ?_⟩
  · obtain ⟨k', hheld⟩ := hbefore k r hk
    exact h.held_obtained k' r hheld
  · obtain ⟨k', hheld⟩ := hbefore k r hk
    exact h.held_kept k' r hheld
  · intro k k' r hk hk'
    obtain ⟨hkj, hk⟩ := held_move.mp hk
    obtain ⟨hkj', hk'⟩ := held_move.mp hk'
    rcases hk with ⟨rfl, hheld⟩ | ⟨hki, hheld⟩ <;> rcases hk' with ⟨hki', hheld'⟩ | ⟨hki', hheld'⟩
    · exact hki'.symm
    · exact absurd (h.held_once k' j r hheld' hheld) hkj'
    · exact absurd (h.held_once k j r hheld hheld') hkj
    · exact h.held_once k k' r hheld hheld'

theorem settled_release : (l.release i).Settled ↔ l.Settled := by
  constructor
  · intro h r hr hkept
    by_cases hheld : l.held i = some r
    · exact ⟨i, hheld⟩
    · obtain ⟨k, hk⟩ := h r hr fun hr' =>
        (mem_released_release.mp hr').elim hheld hkept
      exact ⟨k, (held_release.mp hk).2⟩
  · intro h r hr hkept
    rw [mem_released_release, not_or] at hkept
    obtain ⟨k, hk⟩ := h r hr hkept.2
    refine ⟨k, held_release.mpr ⟨?_, hk⟩⟩
    rintro rfl
    exact hkept.1 hk

theorem settled_acquire (hnone : l.held i = none) (hfresh : r ∉ l.obtained) :
    (l.acquire i r).Settled ↔ l.Settled := by
  constructor
  · intro h s hs hkept
    obtain ⟨k, hk⟩ := h s (List.mem_cons_of_mem r hs) hkept
    rcases held_acquire.mp hk with ⟨-, rfl⟩ | ⟨-, hheld⟩
    · exact absurd hs hfresh
    · exact ⟨k, hheld⟩
  · intro h s hs hkept
    rcases List.mem_cons.mp hs with rfl | hs
    · exact ⟨i, held_acquire.mpr (.inl ⟨rfl, rfl⟩)⟩
    · obtain ⟨k, hk⟩ := h s hs hkept
      refine ⟨k, held_acquire.mpr (.inr ⟨?_, hk⟩)⟩
      rintro rfl
      exact absurd (hnone.symm.trans hk) nofun

/-- A move loses what its target held, and nothing else. -/
theorem Tidy.settled_move (h : l.Tidy) :
    (l.move i j).Settled ↔ l.Settled ∧ l.held i = none := by
  constructor
  · intro hsettled
    constructor
    · intro r hr hkept
      obtain ⟨k, hk⟩ := hsettled r hr hkept
      rcases (held_move.mp hk).2 with ⟨-, hheld⟩ | ⟨-, hheld⟩
      · exact ⟨j, hheld⟩
      · exact ⟨k, hheld⟩
    · by_contra hsome
      obtain ⟨r, hr⟩ := Option.ne_none_iff_exists'.mp hsome
      obtain ⟨k, hk⟩ := hsettled r (h.held_obtained i r hr) (h.held_kept i r hr)
      obtain ⟨hkj, hk⟩ := held_move.mp hk
      rcases hk with ⟨rfl, hheld⟩ | ⟨hki, hheld⟩
      · exact hkj (h.held_once k j r hr hheld)
      · exact hki (h.held_once k i r hheld hr)
  · rintro ⟨hsettled, hnone⟩ r hr hkept
    obtain ⟨k, hk⟩ := hsettled r hr hkept
    have hki : k ≠ i := by
      rintro rfl
      exact absurd (hnone.symm.trans hk) nofun
    by_cases hkj : k = j
    · subst hkj
      exact ⟨i, held_move.mpr ⟨hki.symm, .inl ⟨rfl, hk⟩⟩⟩
    · exact ⟨k, held_move.mpr ⟨hkj, .inr ⟨hki, hk⟩⟩⟩

end Operations

end Ledger

end Octiron.Lib.Ownership
