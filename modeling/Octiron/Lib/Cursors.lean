import Mathlib.Tactic.Common
import Mathlib.Data.List.Basic
import Mathlib.Algebra.BigOperators.Group.List.Basic
import Mathlib.Algebra.Ring.Nat

/-! Storage that is handed out from the front.  A cursor moves up through each
region, and a request goes to the first region with a rest long enough. -/
namespace Octiron.Lib.Cursors

/-- A region of which everything below `next` is handed out. -/
structure Cursor where
  base : Nat
  next : Nat
  stop : Nat
  base_le : base ≤ next
  next_le : next ≤ stop

namespace Cursor

def fresh (base length : Nat) : Cursor :=
  ⟨base, base, base + length, Nat.le_refl base, Nat.le_add_right base length⟩

def room (c : Cursor) : Nat := c.stop - c.next

def capacity (c : Cursor) : Nat := c.stop - c.base

/-- The rest is long enough; an empty rest takes no request at all. -/
def Takes (c : Cursor) (size : Nat) : Prop := 0 < c.room ∧ size ≤ c.room

instance (c : Cursor) (size : Nat) : Decidable (c.Takes size) :=
  inferInstanceAs (Decidable (_ ∧ _))

def advance (c : Cursor) (size : Nat) (h : c.Takes size) : Cursor where
  base := c.base
  next := c.next + size
  stop := c.stop
  base_le := Nat.le_add_right_of_le c.base_le
  next_le := by
    have hroom := h.2
    have hnext := c.next_le
    unfold room at hroom
    omega

/-- The whole units left, in order. -/
def units (unit : Nat) (c : Cursor) : List Nat := List.range' c.next (c.room / unit) unit

variable {c : Cursor} {size unit : Nat}

@[simp] theorem room_fresh (base length : Nat) : (fresh base length).room = length := by
  simp [room, fresh]

@[simp] theorem capacity_fresh (base length : Nat) : (fresh base length).capacity = length := by
  simp [capacity, fresh]

@[simp] theorem room_advance (h : c.Takes size) : (c.advance size h).room = c.room - size := by
  simp only [room, advance]
  omega

theorem units_of_room_eq_zero (h : c.room = 0) : c.units unit = [] := by
  simp [units, h]

/-- The first unit left is the next one to be handed out. -/
theorem units_eq_cons (hunit : 0 < unit) (h : c.Takes unit) :
    c.units unit = c.next :: (c.advance unit h).units unit := by
  rw [units, Nat.div_eq_sub_div hunit h.2, List.range'_succ, units, room_advance]
  rfl

end Cursor

/-- The address that serves a request, and the cursors from then on. -/
def serve (size : Nat) : List Cursor → Option (Nat × List Cursor)
  | [] => none
  | c :: rest =>
    if h : c.Takes size then some (c.next, c.advance size h :: rest)
    else (serve size rest).map fun served => (served.1, c :: served.2)

def room (cs : List Cursor) : Nat := (cs.map Cursor.room).sum

def capacity (cs : List Cursor) : Nat := (cs.map Cursor.capacity).sum

/-- The answers to so many requests of one size. -/
def serveEach (size : Nat) : Nat → List Cursor → List (Option Nat)
  | 0, _ => []
  | count + 1, cs =>
    match serve size cs with
    | none => none :: serveEach size count cs
    | some (a, cs') => some a :: serveEach size count cs'

def units (unit : Nat) (cs : List Cursor) : List Nat := cs.flatMap (Cursor.units unit)

section Serve

variable {size : Nat} {c : Cursor} {cs cs' rest : List Cursor} {a : Nat}

theorem serve_cons_of_takes (h : c.Takes size) :
    serve size (c :: rest) = some (c.next, c.advance size h :: rest) := dif_pos h

theorem serve_cons_of_not_takes (h : ¬ c.Takes size) :
    serve size (c :: rest) = (serve size rest).map fun served => (served.1, c :: served.2) :=
  dif_neg h

/-- A request that is served advances one cursor. -/
theorem exists_of_serve (h : serve size cs = some (a, cs')) :
    ∃ i c, ∃ htakes : c.Takes size, cs[i]? = some c ∧ a = c.next ∧
      cs' = cs.set i (c.advance size htakes) := by
  induction cs generalizing cs' with
  | nil => cases h
  | cons c rest ih =>
    by_cases htakes : c.Takes size
    · rw [serve_cons_of_takes htakes] at h
      obtain ⟨rfl, rfl⟩ := Prod.mk.inj (Option.some.inj h)
      exact ⟨0, c, htakes, rfl, rfl, rfl⟩
    · rw [serve_cons_of_not_takes htakes] at h
      obtain ⟨⟨a', rest'⟩, hserve, heq⟩ := Option.map_eq_some_iff.mp h
      obtain ⟨rfl, rfl⟩ := Prod.mk.inj heq
      obtain ⟨i, c', htakes', hi, ha, rfl⟩ := ih hserve
      exact ⟨i + 1, c', htakes', hi, ha, rfl⟩

theorem room_append (cs cs' : List Cursor) : room (cs ++ cs') = room cs + room cs' := by
  simp [room]

theorem capacity_append (cs cs' : List Cursor) :
    capacity (cs ++ cs') = capacity cs + capacity cs' := by
  simp [capacity]

theorem room_le_room (h : c ∈ cs) : c.room ≤ room cs := by
  obtain ⟨before, after, rfl⟩ := List.append_of_mem h
  simp only [room, List.map_append, List.map_cons, List.sum_append, List.sum_cons]
  omega

theorem room_le_capacity (cs : List Cursor) : room cs ≤ capacity cs := by
  induction cs with
  | nil => exact Nat.le_refl 0
  | cons c rest ih =>
    have hone : c.room ≤ c.capacity := Nat.sub_le_sub_left c.base_le c.stop
    simp only [room, capacity, List.map_cons, List.sum_cons] at ih ⊢
    omega

theorem capacity_le {bound : Nat} (h : ∀ c ∈ cs, c.capacity ≤ bound) :
    capacity cs ≤ cs.length * bound := by
  induction cs with
  | nil => exact Nat.zero_le _
  | cons c rest ih =>
    obtain ⟨hfirst, hrest⟩ := List.forall_mem_cons.mp h
    have hle := ih hrest
    simp only [capacity, List.map_cons, List.sum_cons, List.length_cons, Nat.succ_mul] at hle ⊢
    omega

/-- What one cursor is advanced by, the rooms lose together. -/
theorem room_set {i : Nat} (hi : cs[i]? = some c) (htakes : c.Takes size) :
    room (cs.set i (c.advance size htakes)) + size = room cs := by
  induction cs generalizing i with
  | nil => cases hi
  | cons first rest ih =>
    cases i with
    | zero =>
      obtain rfl := Option.some.inj hi
      have hle := htakes.2
      simp only [List.set_cons_zero, room, List.map_cons, List.sum_cons, Cursor.room_advance]
      omega
    | succ i =>
      have hrest := ih hi
      simp only [List.set_cons_succ, room, List.map_cons, List.sum_cons] at hrest ⊢
      omega

theorem capacity_set {i : Nat} (hi : cs[i]? = some c) (htakes : c.Takes size) :
    capacity (cs.set i (c.advance size htakes)) = capacity cs := by
  induction cs generalizing i with
  | nil => cases hi
  | cons first rest ih =>
    cases i with
    | zero =>
      obtain rfl := Option.some.inj hi
      rfl
    | succ i =>
      have hrest := ih hi
      simp only [List.set_cons_succ, capacity, List.map_cons, List.sum_cons] at hrest ⊢
      omega

theorem room_of_serve (h : serve size cs = some (a, cs')) : room cs' + size = room cs := by
  obtain ⟨i, c, htakes, hi, -, rfl⟩ := exists_of_serve h
  exact room_set hi htakes

end Serve

section Units

variable {unit : Nat} {cs : List Cursor}

/-- Where every rest is whole units, a request for one unit gets the first one left. -/
theorem serve_unit (hunit : 0 < unit) (hwhole : ∀ c ∈ cs, unit ∣ c.room) :
    (serve unit cs = none ∧ units unit cs = []) ∨
      ∃ a cs', serve unit cs = some (a, cs') ∧ units unit cs = a :: units unit cs' ∧
        ∀ c ∈ cs', unit ∣ c.room := by
  induction cs with
  | nil => exact .inl ⟨rfl, rfl⟩
  | cons c rest ih =>
    obtain ⟨hfirst, hrest⟩ := List.forall_mem_cons.mp hwhole
    by_cases htakes : c.Takes unit
    · refine .inr ⟨c.next, _, serve_cons_of_takes htakes, ?_, ?_⟩
      · rw [units, List.flatMap_cons, c.units_eq_cons hunit htakes]
        rfl
      · rw [List.forall_mem_cons, Cursor.room_advance]
        exact ⟨Nat.dvd_sub hfirst dvd_rfl, hrest⟩
    · -- a rest of whole units that does not take one is empty
      have hzero : c.room = 0 := by
        by_contra hne
        exact htakes ⟨Nat.pos_of_ne_zero hne, Nat.le_of_dvd (Nat.pos_of_ne_zero hne) hfirst⟩
      have hunits : units unit (c :: rest) = units unit rest := by
        rw [units, List.flatMap_cons, c.units_of_room_eq_zero hzero]
        rfl
      rw [serve_cons_of_not_takes htakes, hunits]
      rcases ih hrest with ⟨hnone, hempty⟩ | ⟨a, rest', hserve, hcons, hwhole'⟩
      · exact .inl ⟨by rw [hnone]; rfl, hempty⟩
      · refine .inr ⟨a, c :: rest', by rw [hserve]; rfl, ?_, ?_⟩
        · rw [hcons, units, units, List.flatMap_cons, c.units_of_room_eq_zero hzero]
          rfl
        · exact List.forall_mem_cons.mpr ⟨hfirst, hwhole'⟩

theorem length_units (unit : Nat) (hwhole : ∀ c ∈ cs, unit ∣ c.room) :
    unit * (units unit cs).length = room cs := by
  induction cs with
  | nil => rfl
  | cons c rest ih =>
    obtain ⟨hfirst, hrest⟩ := List.forall_mem_cons.mp hwhole
    rw [units, List.flatMap_cons, List.length_append, Nat.mul_add]
    rw [show rest.flatMap (Cursor.units unit) = units unit rest from rfl, ih hrest, Cursor.units,
      List.length_range', Nat.mul_div_cancel' hfirst]
    simp [room]

/-- A request for one unit is refused only when nothing is left. -/
theorem serve_unit_eq_none (hunit : 0 < unit) (hwhole : ∀ c ∈ cs, unit ∣ c.room)
    (h : serve unit cs = none) : room cs = 0 := by
  rcases serve_unit hunit hwhole with ⟨-, hempty⟩ | ⟨a, cs', hserve, -⟩
  · rw [← length_units unit hwhole, hempty]
    rfl
  · rw [h] at hserve
    cases hserve

/-- Requests for single units get the units in order, and then nothing any more. -/
theorem serveEach_unit (hunit : 0 < unit) (count : Nat) (hwhole : ∀ c ∈ cs, unit ∣ c.room) :
    serveEach unit count cs = ((units unit cs).take count).map some ++
      List.replicate (count - (units unit cs).length) none := by
  induction count generalizing cs with
  | zero => simp [serveEach]
  | succ count ih =>
    rcases serve_unit hunit hwhole with ⟨hnone, hempty⟩ | ⟨a, cs', hserve, hcons, hwhole'⟩
    · have hrest := ih hwhole
      rw [hempty] at hrest ⊢
      rw [serveEach, hnone]
      simpa [List.replicate_succ] using hrest
    · rw [serveEach, hserve, hcons]
      dsimp only
      rw [ih hwhole', List.take_succ_cons, List.map_cons, List.length_cons, Nat.add_sub_add_right]
      rfl

end Units

end Octiron.Lib.Cursors
