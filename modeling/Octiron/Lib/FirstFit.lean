import Octiron.Lib.Span
import Mathlib.Data.List.Nodup
import Mathlib.Data.List.Perm.Subperm

/-! First fit over a list of free spans: the lowest aligned address of the first span
that can hold so many addresses. -/
namespace Octiron.Lib.Span

/-- The span has `size` addresses from `a` on, and `a` is aligned. -/
def HoldsAt (s : Span) (size alignment a : Nat) : Prop := alignment ∣ a ∧ Inside ⟨a, size⟩ s

def CanHold (s : Span) (size alignment : Nat) : Prop := ∃ a, HoldsAt s size alignment a

structure LowestIn (s : Span) (size alignment a : Nat) : Prop where
  holds : HoldsAt s size alignment a
  least : ∀ a', HoldsAt s size alignment a' → a ≤ a'

inductive FirstFit (size alignment : Nat) : List Span → Nat → Prop where
  | here {s : Span} {rest : List Span} {a : Nat} (hlowest : LowestIn s size alignment a) :
      FirstFit size alignment (s :: rest) a
  | later {s : Span} {rest : List Span} {a : Nat} (hnot : ¬ CanHold s size alignment)
      (hrest : FirstFit size alignment rest a) : FirstFit size alignment (s :: rest) a

def roundUp (n alignment : Nat) : Nat := (n + (alignment - 1)) / alignment * alignment

section RoundUp

variable {n a alignment : Nat}

theorem dvd_roundUp : alignment ∣ roundUp n alignment := Nat.dvd_mul_left _ _

theorem le_roundUp (hpos : 0 < alignment) : n ≤ roundUp n alignment := by
  have hdiv := Nat.div_add_mod (n + (alignment - 1)) alignment
  have hmod := Nat.mod_lt (n + (alignment - 1)) hpos
  rw [Nat.mul_comm] at hdiv
  unfold roundUp
  omega

theorem roundUp_le (hdvd : alignment ∣ a) (hle : n ≤ a) : roundUp n alignment ≤ a := by
  obtain ⟨q, rfl⟩ := hdvd
  rcases Nat.eq_zero_or_pos alignment with rfl | hpos
  · simp [roundUp]
  · have hquot : (n + (alignment - 1)) / alignment ≤ q := by
      rw [← Nat.lt_succ_iff, Nat.div_lt_iff_lt_mul hpos, Nat.succ_mul, Nat.mul_comm q]
      omega
    rw [roundUp, Nat.mul_comm alignment q]
    exact Nat.mul_le_mul_right alignment hquot

end RoundUp

section Hold

variable {s : Span} {size alignment a a' : Nat}

theorem lowestIn_roundUp (hpos : 0 < alignment)
    (hfits : roundUp s.base alignment + size ≤ s.base + s.length) :
    LowestIn s size alignment (roundUp s.base alignment) :=
  ⟨⟨dvd_roundUp, le_roundUp hpos, hfits⟩, fun _ h => roundUp_le h.1 h.2.1⟩

/-- A span can hold the size when it can from its first aligned address on. -/
theorem canHold_iff (hpos : 0 < alignment) :
    CanHold s size alignment ↔ roundUp s.base alignment + size ≤ s.base + s.length := by
  constructor
  · rintro ⟨a, hdvd, hlow, hhigh⟩
    have hle := roundUp_le hdvd hlow
    dsimp only at hlow hhigh
    omega
  · intro hfits
    exact ⟨_, (lowestIn_roundUp hpos hfits).holds⟩

theorem LowestIn.unique (h : LowestIn s size alignment a) (h' : LowestIn s size alignment a') :
    a = a' :=
  Nat.le_antisymm (h.least a' h'.holds) (h'.least a h.holds)

theorem not_canHold_of_short (h : s.length < size) : ¬ CanHold s size alignment := by
  rintro ⟨a, -, hlow, hhigh⟩
  dsimp only at hlow hhigh
  omega

end Hold

section Search

variable {size alignment a a' : Nat} {ss ts : List Span}

theorem FirstFit.unique (h : FirstFit size alignment ss a) (h' : FirstFit size alignment ss a') :
    a = a' := by
  induction h with
  | here hlowest =>
    cases h' with
    | here hlowest' => exact hlowest.unique hlowest'
    | later hnot => exact absurd ⟨_, hlowest.holds⟩ hnot
  | later hnot _ ih =>
    cases h' with
    | here hlowest' => exact absurd ⟨_, hlowest'.holds⟩ hnot
    | later _ hrest => exact ih hrest

/-- Spans that cannot hold the size are passed over. -/
theorem firstFit_append (h : ∀ s ∈ ss, ¬ CanHold s size alignment) :
    FirstFit size alignment (ss ++ ts) a ↔ FirstFit size alignment ts a := by
  induction ss with
  | nil => rfl
  | cons s ss ih =>
    obtain ⟨hs, hss⟩ := List.forall_mem_cons.mp h
    rw [List.cons_append, ← ih hss]
    constructor
    · intro hfirst
      cases hfirst with
      | here hlowest => exact absurd ⟨a, hlowest.holds⟩ hs
      | later _ hrest => exact hrest
    · exact FirstFit.later hs

end Search

section Total

variable {s t : Span} {ss : List Span}

theorem length_le_total (hs : s ∈ ss) : s.length ≤ total ss := by
  induction ss with
  | nil => cases hs
  | cons first ss ih =>
    rw [total]
    rcases List.mem_cons.mp hs with rfl | hrest
    · exact Nat.le_add_right _ _
    · exact Nat.le_trans (ih hrest) (Nat.le_add_left _ _)

/-- The addresses of a span, in order. -/
def addresses (s : Span) : List Nat := List.range' s.base s.length

theorem mem_addresses {x : Nat} : x ∈ addresses s ↔ x ∈ s := by
  rw [addresses, List.mem_range'_1, mem_def]

theorem length_flatMap_addresses : (ss.flatMap addresses).length = total ss := by
  induction ss with
  | nil => rfl
  | cons s ss ih =>
    rw [List.flatMap_cons, List.length_append, ih, total, addresses, List.length_range']

/-- Disjoint spans inside a span are together no longer than it. -/
theorem total_le_of_disjoint (hdisjoint : ss.Pairwise Disjoint) (hinside : ∀ s ∈ ss, Inside s t) :
    total ss ≤ t.length := by
  have hnodup : (ss.flatMap addresses).Nodup := by
    rw [List.nodup_flatMap]
    refine ⟨fun s _ => List.nodup_range', hdisjoint.imp fun {s s'} h x hx hx' => ?_⟩
    exact h x (mem_addresses.mp hx) (mem_addresses.mp hx')
  have hsub : ss.flatMap addresses ⊆ addresses t := by
    intro x hx
    obtain ⟨s, hs, hxs⟩ := List.mem_flatMap.mp hx
    exact mem_addresses.mpr ((hinside s hs).mem (mem_addresses.mp hxs))
  have hle := (List.subperm_of_subset hnodup hsub).length_le
  rwa [length_flatMap_addresses, addresses, List.length_range'] at hle

end Total

end Octiron.Lib.Span
