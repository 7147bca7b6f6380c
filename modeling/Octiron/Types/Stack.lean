import Mathlib.Tactic.Common
import Mathlib.Logic.Function.Basic

/-! `types/stack.h`: a growable array.  When it is full its records are copied to a
fresh buffer, which comes zeroed; the old one is handed to `pmm::free`, a stub, so
its records stay as they are.  A buffer lies in memory, so its size does not wrap
and natural numbers do for it. -/
namespace Octiron

/-- The address of a record: a buffer, by the order in which the buffers were
obtained, and a position in it. -/
structure Slot where
  buffer : Nat
  index : Nat
  deriving DecidableEq

/-- A pointer to a record, `none` the null pointer. -/
abbrev Ptr := Option Slot

/-- `align_up(size, PAGE_SIZE)`. -/
def alignUpPage (size : Nat) : Nat := (size + 4095) / 4096 * 4096

/-- `m_buffer` is the newest of the `buffers` obtained so far, null before the
first. -/
structure Stack (α : Type) where
  size : Nat := 0
  capacity : Nat := 0
  buffers : Nat := 0
  record : Slot → α

namespace Stack

variable {α : Type}

/-- `&m_buffer[index]`. -/
def slot (st : Stack α) (index : Nat) : Slot := ⟨st.buffers - 1, index⟩

def newCapacity (capacity sizeofT : Nat) : Nat :=
  alignUpPage (1 + alignUpPage (capacity * sizeofT) * 3 / 2) / sizeofT

/-- The memory once the first `capacity` records of the current buffer are copied
to the next one. -/
def relocated (st : Stack α) : Slot → α := fun s =>
  if s.buffer = st.buffers ∧ s.index < st.capacity then st.record (st.slot s.index)
  else st.record s

def grow (st : Stack α) (sizeofT : Nat) : Stack α :=
  if st.size = st.capacity then
    { st with
      capacity := newCapacity st.capacity sizeofT
      buffers := st.buffers + 1
      record := st.relocated }
  else st

def write (st : Stack α) (s : Slot) (value : α) : Stack α :=
  { st with record := Function.update st.record s value }

def modify (st : Stack α) (s : Slot) (f : α → α) : Stack α := st.write s (f (st.record s))

/-- The address of the new record, and the stack. -/
def emplaceBack (st : Stack α) (sizeofT : Nat) (value : α) : Slot × Stack α :=
  let st := st.grow sizeofT
  (st.slot st.size, { st.write (st.slot st.size) value with size := st.size + 1 })

section Lemmas

variable (st : Stack α) (s : Slot) (value : α) (f : α → α) (sizeofT : Nat)

@[simp] theorem size_write : (st.write s value).size = st.size := rfl
@[simp] theorem capacity_write : (st.write s value).capacity = st.capacity := rfl
@[simp] theorem buffers_write : (st.write s value).buffers = st.buffers := rfl
@[simp] theorem size_modify : (st.modify s f).size = st.size := rfl
@[simp] theorem capacity_modify : (st.modify s f).capacity = st.capacity := rfl
@[simp] theorem buffers_modify : (st.modify s f).buffers = st.buffers := rfl

@[simp] theorem size_grow : (st.grow sizeofT).size = st.size := by
  unfold grow
  split <;> rfl

@[simp] theorem size_emplaceBack : (st.emplaceBack sizeofT value).2.size = st.size + 1 := by
  simp [emplaceBack]

theorem record_modify_same : (st.modify s f).record s = f (st.record s) :=
  Function.update_self ..

variable {s} in
theorem record_modify_of_ne {t : Slot} (h : t ≠ s) : (st.modify s f).record t = st.record t :=
  Function.update_of_ne h ..

/-- A change that keeps a field keeps it everywhere. -/
theorem field_modify {β : Type} (field : α → β) (hfield : ∀ a, field (f a) = field a)
    (t : Slot) : field ((st.modify s f).record t) = field (st.record t) := by
  by_cases h : t = s
  · rw [h, record_modify_same, hfield]
  · rw [record_modify_of_ne st f h]

end Lemmas

section Growth

theorem le_alignUpPage (n : Nat) : n ≤ alignUpPage n := by
  unfold alignUpPage
  omega

/-- A full stack always gains room for at least one more record. -/
theorem lt_newCapacity {capacity sizeofT : Nat} (hpos : 0 < sizeofT) (hpage : sizeofT ≤ 4096) :
    capacity < newCapacity capacity sizeofT := by
  have hbytes := le_alignUpPage (capacity * sizeofT)
  rw [newCapacity, Nat.lt_div_iff_mul_lt hpos]
  unfold alignUpPage at hbytes ⊢
  omega

/-- The records of the current buffer in use, and those of the earlier buffers. -/
def Allocated (st : Stack α) (s : Slot) : Prop :=
  s.buffer + 1 < st.buffers ∨ s.buffer + 1 = st.buffers ∧ s.index < st.size

/-- No more records than room for them, and no room without a buffer. -/
structure WF (st : Stack α) : Prop where
  size_le : st.size ≤ st.capacity
  buffer : st.buffers = 0 → st.capacity = 0

/-- What adding a record does: a new slot gets it, and what was there stays. -/
structure Emplaced (st st' : Stack α) (s : Slot) (value : α) : Prop where
  wf : st'.WF
  size : st'.size = st.size + 1
  fresh : ¬ st.Allocated s
  allocated : st'.Allocated s
  value : st'.record s = value
  keeps : ∀ t, st.Allocated t → st'.Allocated t
  frame : ∀ t, st.Allocated t → st'.record t = st.record t

theorem WF.emplaceBack {st : Stack α} (h : st.WF) {sizeofT : Nat} (hpos : 0 < sizeofT)
    (hpage : sizeofT ≤ 4096) (value : α) :
    Emplaced st (st.emplaceBack sizeofT value).2 (st.emplaceBack sizeofT value).1 value := by
  have hsize := h.size_le
  by_cases hfull : st.size = st.capacity
  · have hgrow : st.grow sizeofT = { st with
        capacity := newCapacity st.capacity sizeofT
        buffers := st.buffers + 1
        record := st.relocated } := if_pos hfull
    have hroom := @lt_newCapacity st.capacity _ hpos hpage
    unfold Stack.emplaceBack
    rw [hgrow]
    refine ⟨⟨?_, ?_⟩, rfl, ?_, ?_, Function.update_self .., ?_, ?_⟩
    · exact Nat.lt_of_le_of_lt hsize hroom
    · exact fun hnone => absurd hnone (Nat.succ_ne_zero _)
    · rintro (hold | ⟨hcur, -⟩)
      · exact absurd hold (by simp [slot])
      · exact absurd hcur (by simp [slot])
    · exact .inr ⟨rfl, Nat.lt_succ_self _⟩
    · rintro t (hold | ⟨hcur, -⟩)
      · exact .inl (Nat.lt_succ_of_lt hold)
      · exact .inl (hcur ▸ Nat.lt_succ_self _)
    · intro t ht
      have hbuffer : t.buffer ≠ st.buffers := by
        rcases ht with hold | ⟨hcur, -⟩ <;> omega
      refine (Function.update_of_ne (fun heq => hbuffer (congrArg Slot.buffer heq)) _ _).trans ?_
      exact if_neg fun hnew => hbuffer hnew.1
  · have hgrow : st.grow sizeofT = st := if_neg hfull
    have hbuffers : st.buffers - 1 + 1 = st.buffers := by
      have hcapacity := h.buffer
      omega
    unfold Stack.emplaceBack
    rw [hgrow]
    refine ⟨⟨?_, h.buffer⟩, rfl, ?_, ?_, Function.update_self .., ?_, ?_⟩
    · exact Nat.lt_of_le_of_ne hsize hfull
    · rintro (hold | ⟨-, hin⟩)
      · exact absurd hold (by simp only [slot]; omega)
      · exact absurd hin (Nat.lt_irrefl _)
    · exact .inr ⟨hbuffers, Nat.lt_succ_self _⟩
    · exact fun t ht => ht.imp_right fun hin => ⟨hin.1, Nat.lt_succ_of_lt hin.2⟩
    · intro t ht
      refine Function.update_of_ne ?_ _ _
      rintro rfl
      rcases ht with hold | ⟨-, hin⟩
      · exact absurd hold (by simp only [slot]; omega)
      · exact absurd hin (Nat.lt_irrefl _)

theorem WF.modify {st : Stack α} (h : st.WF) (s : Slot) (f : α → α) : (st.modify s f).WF :=
  ⟨h.size_le, h.buffer⟩

@[simp] theorem allocated_modify (st : Stack α) (s t : Slot) (f : α → α) :
    (st.modify s f).Allocated t ↔ st.Allocated t := Iff.rfl

end Growth

section New

/-- Different slots that came into use between two states of a stack. -/
structure New (st st' : Stack α) (slots : List Slot) : Prop where
  nodup : slots.Nodup
  fresh : ∀ s ∈ slots, ¬ st.Allocated s
  allocated : ∀ s ∈ slots, st'.Allocated s

variable {st st' st'' : Stack α} {s : Slot} {slots slots' : List Slot}

theorem New.nil : New st st' [] := ⟨.nil, nofun, nofun⟩

theorem New.one (hfresh : ¬ st.Allocated s) (hallocated : st'.Allocated s) : New st st' [s] :=
  ⟨List.pairwise_singleton _ s, List.forall_mem_singleton.mpr hfresh,
    List.forall_mem_singleton.mpr hallocated⟩

theorem New.append (h : New st st' slots) (h' : New st' st'' slots')
    (hkeeps : ∀ t, st.Allocated t → st'.Allocated t)
    (hkeeps' : ∀ t, st'.Allocated t → st''.Allocated t) : New st st'' (slots ++ slots') := by
  refine ⟨List.nodup_append.mpr ⟨h.nodup, h'.nodup, ?_⟩, ?_, ?_⟩
  · rintro s hs _ hs' rfl
    exact h'.fresh s hs' (h.allocated s hs)
  · exact List.forall_mem_append.mpr
      ⟨h.fresh, fun s hs hold => h'.fresh s hs (hkeeps s hold)⟩
  · exact List.forall_mem_append.mpr
      ⟨fun s hs => hkeeps' s (h.allocated s hs), h'.allocated⟩

theorem New.perm (h : New st st' slots) (hperm : slots.Perm slots') : New st st' slots' :=
  ⟨hperm.nodup_iff.mp h.nodup, fun s hs => h.fresh s (hperm.mem_iff.mpr hs),
    fun s hs => h.allocated s (hperm.mem_iff.mpr hs)⟩

end New

end Stack

end Octiron
