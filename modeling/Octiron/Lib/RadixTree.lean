import Mathlib.Tactic.Common
import Mathlib.Data.List.Induction
import Mathlib.Order.Nat

/-! Trees of tables, as page tables are: an entry of a table is invalid or names
the table below it.  A path is the list of the indices taken from the root.
While different paths reach different tables, writing one entry changes what is
found along the paths through that entry and nothing else. -/
namespace Octiron.Lib.RadixTree

abbrev Tables (P I E : Type) := P → I → E

section Definitions

variable {P I E : Type} (valid : E → Bool) (child : E → P) (t : Tables P I E)

/-- The table a path leads to. -/
def reach (root : P) : List I → Option P
  | [] => some root
  | i :: rest => if valid (t root i) then reach (child (t root i)) rest else none

/-- The valid entry at an index of the table a path leads to. -/
def find (root : P) (path : List I) (i : I) : Option E :=
  (reach valid child t root path).bind fun p => if valid (t p i) then some (t p i) else none

variable [DecidableEq P]

def clear (p : P) (e : E) : Tables P I E := fun q j => if q = p then e else t q j

def setEntry [DecidableEq I] (p : P) (i : I) (e : E) : Tables P I E :=
  fun q j => if q = p ∧ j = i then e else t q j

end Definitions

/-- Paths shorter than `depth` reach different tables, all among `tables`. -/
structure Separated {P I E : Type} (valid : E → Bool) (child : E → P) (t : Tables P I E) (root : P)
    (depth : Nat) (tables : List P) : Prop where
  injective : ∀ path path' p, path.length < depth → path'.length < depth →
    reach valid child t root path = some p → reach valid child t root path' = some p →
    path = path'
  mem : ∀ path p, path.length < depth → reach valid child t root path = some p → p ∈ tables

section Reach

variable {P I E : Type} {valid : E → Bool} {child : E → P} {t t' : Tables P I E} {root : P}
  {depth : Nat} {tables : List P}

theorem reach_append (path rest : List I) :
    reach valid child t root (path ++ rest) =
      (reach valid child t root path).bind fun p => reach valid child t p rest := by
  induction path generalizing root with
  | nil => rfl
  | cons i path ih =>
    rw [List.cons_append, reach, reach]
    split
    · exact ih
    · rfl

theorem reach_concat (path : List I) (i : I) :
    reach valid child t root (path ++ [i]) =
      (find valid child t root path i).map child := by
  rw [reach_append, find]
  cases reach valid child t root path with
  | none => rfl
  | some p =>
    simp only [Option.bind_some, reach]
    split <;> rfl

theorem find_of_reach {path : List I} {p : P} (h : reach valid child t root path = some p)
    (i : I) : find valid child t root path i = if valid (t p i) then some (t p i) else none := by
  rw [find, h]
  rfl

/-- Only the entries on a path's way matter to where it leads. -/
theorem reach_congr {path : List I}
    (h : ∀ before i after, path = before ++ i :: after → ∀ p,
      reach valid child t root before = some p → t' p i = t p i) :
    reach valid child t' root path = reach valid child t root path := by
  induction path using List.reverseRecOn with
  | nil => rfl
  | append_singleton path i ih =>
    have hpath := ih fun before j after heq p hp => by
      apply h before j (after ++ [i]) _ p hp
      rw [heq, List.append_assoc]
      rfl
    rw [reach_append, reach_append, hpath]
    cases hp : reach valid child t root path with
    | none => rfl
    | some p =>
      simp only [Option.bind_some, reach]
      rw [h path i [] rfl p hp]

/-- A fresh table may change without notice. -/
theorem Separated.reach_of_fresh (h : Separated valid child t root depth tables)
    (hsame : ∀ p ∈ tables, ∀ i, t' p i = t p i) {path : List I} (hlen : path.length ≤ depth) :
    reach valid child t' root path = reach valid child t root path := by
  apply reach_congr
  intro before i after heq p hp
  have hshort : before.length < depth := by
    have := congrArg List.length heq
    rw [List.length_append, List.length_cons] at this
    omega
  exact hsame p (h.mem before p hshort hp) i

theorem Separated.find_of_fresh (h : Separated valid child t root depth tables)
    (hsame : ∀ p ∈ tables, ∀ i, t' p i = t p i) {path : List I} (hlen : path.length < depth)
    (i : I) : find valid child t' root path i = find valid child t root path i := by
  rw [find, find, h.reach_of_fresh hsame hlen.le]
  cases hp : reach valid child t root path with
  | none => rfl
  | some p => rw [Option.bind_some, Option.bind_some, hsame p (h.mem path p hlen hp) i]

theorem Separated.of_fresh (h : Separated valid child t root depth tables)
    (hsame : ∀ p ∈ tables, ∀ i, t' p i = t p i) :
    Separated valid child t' root depth tables := by
  constructor
  · intro path path' p hlen hlen' hp hp'
    rw [h.reach_of_fresh hsame hlen.le] at hp
    rw [h.reach_of_fresh hsame hlen'.le] at hp'
    exact h.injective path path' p hlen hlen' hp hp'
  · intro path p hlen hp
    rw [h.reach_of_fresh hsame hlen.le] at hp
    exact h.mem path p hlen hp

end Reach

section Clear

variable {P I E : Type} [DecidableEq P] {t : Tables P I E} {p : P} {e : E}

theorem clear_of_ne {q : P} (hne : q ≠ p) (j : I) : clear t p e q j = t q j := if_neg hne

theorem clear_self (j : I) : clear t p e p j = e := if_pos rfl

end Clear

section SetEntry

variable {P I E : Type} [DecidableEq P] [DecidableEq I] {valid : E → Bool} {child : E → P}
  {t : Tables P I E} {root p : P} {depth : Nat} {tables : List P} {path : List I} {i : I} {e : E}

theorem setEntry_self : setEntry t p i e p i = e := if_pos ⟨rfl, rfl⟩

theorem setEntry_of_ne {q : P} {j : I} (hne : ¬ (q = p ∧ j = i)) :
    setEntry t p i e q j = t q j := if_neg hne

/-- A write is not seen along paths that avoid the written entry. -/
theorem Separated.reach_setEntry (h : Separated valid child t root depth tables)
    (hp : reach valid child t root path = some p) (hlen : path.length < depth) {other : List I}
    (hother : other.length ≤ depth) (hextends : ¬ (path ++ [i]) <+: other) :
    reach valid child (setEntry t p i e) root other = reach valid child t root other := by
  apply reach_congr
  intro before j after heq q hq
  apply setEntry_of_ne
  rintro ⟨rfl, rfl⟩
  have hshort : before.length < depth := by
    have := congrArg List.length heq
    rw [List.length_append, List.length_cons] at this
    omega
  obtain rfl := h.injective before path q hshort hlen hq hp
  exact hextends ⟨after, by rw [heq, List.append_assoc]; rfl⟩

/-- Writing an entry of a bottom table: one result of `find` changes. -/
theorem Separated.find_setLeaf (h : Separated valid child t root depth tables)
    (hp : reach valid child t root path = some p) (hlen : path.length + 1 = depth)
    (hvalid : valid e = true) {other : List I} (hother : other.length < depth) (j : I) :
    find valid child (setEntry t p i e) root other j =
      if other = path ∧ j = i then some e else find valid child t root other j := by
  have hreach : reach valid child (setEntry t p i e) root other =
      reach valid child t root other := by
    apply h.reach_setEntry hp (by omega) hother.le
    intro hextends
    have := hextends.length_le
    rw [List.length_append, List.length_singleton] at this
    omega
  rw [find, find, hreach]
  by_cases hsame : other = path
  · subst hsame
    rw [hp, Option.bind_some, Option.bind_some]
    by_cases hj : j = i
    · rw [hj, setEntry_self, if_pos hvalid, if_pos ⟨rfl, rfl⟩]
    · rw [setEntry_of_ne fun hboth => hj hboth.2]
      simp only [hj, and_false, if_false]
  · rw [if_neg fun hboth => hsame hboth.1]
    cases hq : reach valid child t root other with
    | none => rfl
    | some q =>
      have hne : q ≠ p := by
        rintro rfl
        exact hsame (h.injective other path q hother (by omega) hq hp)
      rw [Option.bind_some, Option.bind_some, setEntry_of_ne fun hboth => hne hboth.1]

theorem Separated.setLeaf (h : Separated valid child t root depth tables)
    (hp : reach valid child t root path = some p) (hlen : path.length + 1 = depth) :
    Separated valid child (setEntry t p i e) root depth tables := by
  have hreach : ∀ other : List I, other.length < depth →
      reach valid child (setEntry t p i e) root other = reach valid child t root other := by
    intro other hother
    apply h.reach_setEntry hp (by omega) hother.le
    intro hextends
    have := hextends.length_le
    rw [List.length_append, List.length_singleton] at this
    omega
  constructor
  · intro path₁ path₂ q hlen₁ hlen₂ hq₁ hq₂
    rw [hreach path₁ hlen₁] at hq₁
    rw [hreach path₂ hlen₂] at hq₂
    exact h.injective path₁ path₂ q hlen₁ hlen₂ hq₁ hq₂
  · intro other q hother hq
    rw [hreach other hother] at hq
    exact h.mem other q hother hq

section Install

variable (h : Separated valid child t root depth tables)
  (hp : reach valid child t root path = some p) (hlen : path.length < depth)
  (hold : valid (t p i) = false) (hvalid : valid e = true) (hfresh : child e ∉ tables)
  (hempty : ∀ j, valid (t (child e) j) = false)
include h hp hlen hold hvalid hfresh hempty

/-- Hanging a fresh empty table under an invalid entry opens one new path. -/
theorem Separated.reach_install {other : List I} (hother : other.length ≤ depth) :
    reach valid child (setEntry t p i e) root other =
      if other = path ++ [i] then some (child e) else reach valid child t root other := by
  have hmem := h.mem path p hlen hp
  have hne : child e ≠ p := fun heq => hfresh (heq ▸ hmem)
  by_cases hextends : (path ++ [i]) <+: other
  · obtain ⟨rest, rfl⟩ := hextends
    have hpath : reach valid child (setEntry t p i e) root path = some p := by
      rw [h.reach_setEntry hp hlen hlen.le, hp]
      intro hself
      have := hself.length_le
      rw [List.length_append, List.length_singleton] at this
      omega
    have hopen : reach valid child (setEntry t p i e) root (path ++ [i]) = some (child e) := by
      rw [reach_concat, find_of_reach hpath, setEntry_self, if_pos hvalid]
      rfl
    have hshut : reach valid child t root (path ++ [i]) = none := by
      rw [reach_concat, find_of_reach hp, hold]
      rfl
    cases rest with
    | nil => rw [List.append_nil, hopen, if_pos rfl]
    | cons j rest =>
      rw [if_neg (by simp), reach_append (path ++ [i]), reach_append (path ++ [i]), hopen, hshut,
        Option.bind_some, reach, setEntry_of_ne fun hboth => hne hboth.1, hempty j]
      rfl
  · rw [h.reach_setEntry hp hlen hother hextends, if_neg]
    rintro rfl
    exact hextends (List.prefix_refl _)

/-- The new table is empty, so nothing more is found at the bottom. -/
theorem Separated.find_install {other : List I} (hother : other.length < depth)
    (hdeep : path.length < other.length) (j : I) :
    find valid child (setEntry t p i e) root other j = find valid child t root other j := by
  have hmem := h.mem path p hlen hp
  have hreach := h.reach_install hp hlen hold hvalid hfresh hempty hother.le
  rw [find, find, hreach]
  by_cases hnew : other = path ++ [i]
  · have hshut : reach valid child t root other = none := by
      rw [hnew, reach_concat, find_of_reach hp, hold]
      rfl
    have hne : child e ≠ p := fun heq => hfresh (heq ▸ hmem)
    rw [if_pos hnew, hshut, Option.bind_some, setEntry_of_ne fun hboth => hne hboth.1, hempty j]
    rfl
  · rw [if_neg hnew]
    cases hq : reach valid child t root other with
    | none => rfl
    | some q =>
      have hne : q ≠ p := by
        rintro rfl
        rw [h.injective other path q hother hlen hq hp] at hdeep
        exact absurd hdeep (Nat.lt_irrefl _)
      rw [Option.bind_some, Option.bind_some, setEntry_of_ne fun hboth => hne hboth.1]

theorem Separated.install : Separated valid child (setEntry t p i e) root depth
    (child e :: tables) := by
  have hreach := fun (other : List I) (hother : other.length < depth) =>
    h.reach_install hp hlen hold hvalid hfresh hempty hother.le
  constructor
  · intro path₁ path₂ q hlen₁ hlen₂ hq₁ hq₂
    rw [hreach path₁ hlen₁] at hq₁
    rw [hreach path₂ hlen₂] at hq₂
    by_cases h₁ : path₁ = path ++ [i] <;> by_cases h₂ : path₂ = path ++ [i]
    · rw [h₁, h₂]
    · rw [if_pos h₁] at hq₁
      rw [if_neg h₂, ← Option.some.inj hq₁] at hq₂
      exact absurd (h.mem path₂ _ hlen₂ hq₂) hfresh
    · rw [if_pos h₂] at hq₂
      rw [if_neg h₁, ← Option.some.inj hq₂] at hq₁
      exact absurd (h.mem path₁ _ hlen₁ hq₁) hfresh
    · rw [if_neg h₁] at hq₁
      rw [if_neg h₂] at hq₂
      exact h.injective path₁ path₂ q hlen₁ hlen₂ hq₁ hq₂
  · intro other q hother hq
    rw [hreach other hother] at hq
    by_cases hnew : other = path ++ [i]
    · rw [if_pos hnew] at hq
      exact List.mem_cons.mpr (.inl (Option.some.inj hq).symm)
    · rw [if_neg hnew] at hq
      exact List.mem_cons_of_mem _ (h.mem other q hother hq)

end Install

end SetEntry

end Octiron.Lib.RadixTree
