import Octiron.Allocators.BumpPlacement
import Mathlib.Data.List.Range

/-! What a call of the bump allocator does when `pmm::alloc` fails under it:
`assert_err` prints the error and the call goes on with the null it was given. -/
namespace Octiron.Bump

open Lib Exec Pmm

/-- What a call does outside its registers: the `k`-th call of `pmm::alloc`, and
stores to a region header. -/
inductive Event where
  | asked (k : Nat)
  | stored (region : U64)
  deriving DecidableEq

def Event.asked? : Event → Option Nat
  | .asked k => some k
  | .stored _ => none

section Events

variable (hhdmBase : U64) (answers : Answers)

def growEvents (st : State) : List Event :=
  match answers st.allocs with
  | .failed _ _ => [.asked st.allocs]
  | .granted pa => [.asked st.allocs, .stored (hhdmPhysToVirt hhdmBase pa)]

def ensureRegionEvents (st : State) : List Event :=
  if st.currentRegion = 0 ∨ st.regionList = 0 then growEvents hhdmBase answers st else []

/-- The result of `pmm::alloc` is used as it is, zero after a failure. -/
def ensureRoomEvents (st : State) (reach : U64) : List Event :=
  if st.current.end_ < reach then
    [.asked st.allocs, .stored st.currentRegion,
      .stored (ensureRoom hhdmBase answers st reach).currentRegion]
  else []

/-- A null dereference ends the list. -/
def allocAlignedEvents (st : State) (size alignment : U64) : List Event :=
  if size = 0 ∨ alignment = 0 then []
  else
    let st₁ := ensureRegion hhdmBase answers st
    let reach := alignUp st₁.current.curr alignment + size
    let st₂ := ensureRoom hhdmBase answers st₁ reach
    ensureRegionEvents hhdmBase answers st ++
      if st₁.currentRegion = 0 then []
      else ensureRoomEvents hhdmBase answers st₁ reach ++
        if st₂.currentRegion = 0 then [] else [.stored st₂.currentRegion]

def events (st : State) : Call → List Event
  | .alloc size =>
    if st.currentRegion = 0 then [] else allocAlignedEvents hhdmBase answers st size 1
  | .allocAligned size alignment => allocAlignedEvents hhdmBase answers st size alignment

/-- Some call of `pmm::alloc` on the way failed. -/
def Refused (st : State) (c : Call) : Prop :=
  ∃ k, .asked k ∈ events hhdmBase answers st c ∧ (answers k).isGranted = false

/-- The call returns null and leaves the list and the cursors alone, having written
nothing. -/
def Clean (st : State) (c : Call) : Prop :=
  ∃ st', call hhdmBase answers st c = .ok (0, st') ∧ st'.regionList = st.regionList ∧
    st'.currentRegion = st.currentRegion ∧ st'.headers = st.headers ∧
    ∀ region, .stored region ∉ events hhdmBase answers st c

end Events

/-- The events are those between two states. -/
structure Trace (st : State) (events : List Event) (st' : State) : Prop where
  asked : events.filterMap Event.asked? = List.range' st.allocs (st'.allocs - st.allocs)
  le : st.allocs ≤ st'.allocs
  headers : ∀ region, .stored region ∉ events → st'.headers region = st.headers region

section Trace

variable {hhdmBase : U64} {answers : Answers} {st st' st'' : State} {es es' : List Event}

theorem Trace.refl (st : State) : Trace st [] st := ⟨by simp, Nat.le_refl _, fun _ _ => rfl⟩

theorem Trace.append (h : Trace st es st') (h' : Trace st' es' st'') :
    Trace st (es ++ es') st'' := by
  refine ⟨?_, h.le.trans h'.le, fun region hregion => ?_⟩
  · have hle := h.le
    have hle' := h'.le
    rw [List.filterMap_append, h.asked, h'.asked,
      show st''.allocs - st.allocs = (st'.allocs - st.allocs) + (st''.allocs - st'.allocs) by omega,
      ← List.range'_append_1, Nat.add_sub_cancel' hle]
  · rw [List.mem_append, not_or] at hregion
    rw [h'.headers region hregion.2, h.headers region hregion.1]

/-- A call of `pmm::alloc` and then some stores. -/
theorem Trace.asked_stored (regions : List U64) (hallocs : st'.allocs = st.allocs + 1)
    (hheaders : ∀ region ∉ regions, st'.headers region = st.headers region) :
    Trace st (.asked st.allocs :: regions.map .stored) st' := by
  refine ⟨?_, by omega, fun region hregion => hheaders region ?_⟩
  · have hstored : (regions.map Event.stored).filterMap Event.asked? = [] := by
      rw [List.filterMap_map]
      exact List.filterMap_eq_nil_iff.mpr fun _ _ => rfl
    simp [Event.asked?, hstored, hallocs]
  · intro hmem
    exact hregion (List.mem_cons_of_mem _ (List.mem_map_of_mem hmem))

theorem grow_failed {err : Error} {herr : err.isErr = true}
    (h : answers st.allocs = .failed err herr) :
    grow hhdmBase answers st = (err, { st with allocs := st.allocs + 1 }) := by
  rw [grow, pmmAlloc, h]
  dsimp only
  rw [if_pos herr]

theorem trace_grow (st : State) :
    Trace st (growEvents hhdmBase answers st) (grow hhdmBase answers st).2 := by
  unfold growEvents
  cases hanswer : answers st.allocs with
  | failed err herr =>
    rw [grow_failed hanswer]
    exact Trace.asked_stored [] rfl fun _ _ => rfl
  | granted pa =>
    apply Trace.asked_stored [hhdmPhysToVirt hhdmBase pa]
    · rw [grow, pmmAlloc_granted hanswer]
      rfl
    · intro region hregion
      rw [grow, pmmAlloc_granted hanswer]
      exact Function.update_of_ne (List.ne_of_not_mem_cons hregion) _ _

theorem trace_ensureRegion (st : State) :
    Trace st (ensureRegionEvents hhdmBase answers st) (ensureRegion hhdmBase answers st) := by
  unfold ensureRegionEvents ensureRegion
  split
  · exact trace_grow st
  · exact .refl st

/-- What `pmm::alloc` stores in its result. -/
def stored : Answer → U64
  | .failed _ _ => 0
  | .granted pa => pa

/-- The region a request that does not fit is given, wherever it may lie. -/
theorem ensureRoom_spec_of_lt {reach : U64} (hroom : st.current.end_ < reach) :
    let region := hhdmPhysToVirt hhdmBase (stored (answers st.allocs))
    let st' := ensureRoom hhdmBase answers st reach
    st'.allocs = st.allocs + 1 ∧ st'.currentRegion = region ∧ st'.regionList = st.regionList ∧
      st'.headers = Function.update
        (Function.update st.headers st.currentRegion { st.current with next := region }) region
        ⟨region + regionSize (reach - st.current.end_), region + sizeofRegion, 0⟩ := by
  rw [ensureRoom, if_pos hroom]
  dsimp only
  rw [pmmAlloc]
  cases answers st.allocs with
  | failed err herr => exact ⟨rfl, rfl, rfl, rfl⟩
  | granted pa => exact ⟨rfl, rfl, rfl, rfl⟩

theorem trace_ensureRoom (st : State) (reach : U64) :
    Trace st (ensureRoomEvents hhdmBase answers st reach) (ensureRoom hhdmBase answers st reach) := by
  unfold ensureRoomEvents
  split
  · next hroom =>
    obtain ⟨hallocs, hregion, -, hheaders⟩ := @ensureRoom_spec_of_lt hhdmBase answers _ _ hroom
    apply Trace.asked_stored
      [st.currentRegion, (ensureRoom hhdmBase answers st reach).currentRegion] hallocs
    intro region hmem
    simp only [List.mem_cons, List.not_mem_nil, or_false, not_or, hregion] at hmem
    rw [hheaders, Function.update_of_ne hmem.2, Function.update_of_ne hmem.1]
  · next hroom =>
    rw [ensureRoom, if_neg hroom]
    exact .refl st

theorem trace_bump (st : State) (allocation size : U64) :
    Trace st [.stored st.currentRegion] (bump st allocation size).2 := by
  refine ⟨?_, Nat.le_refl _, fun region hregion => ?_⟩
  · simp [Event.asked?, bump, State.setHeader]
  · have hne : region ≠ st.currentRegion := fun heq => hregion (heq ▸ List.mem_cons_self)
    exact Function.update_of_ne hne _ _

end Trace

section Calls

variable {hhdmBase : U64} {answers : Answers} {st st' : State} {size alignment p : U64} {c : Call}

/-- A call that returns has the events listed for it, and its last one is a store. -/
theorem trace_allocAligned
    (h : allocAligned hhdmBase answers st size alignment = .ok (p, st'))
    (hsize : size ≠ 0) (halign : alignment ≠ 0) :
    Trace st (allocAlignedEvents hhdmBase answers st size alignment) st' ∧
      .stored st'.currentRegion ∈ allocAlignedEvents hhdmBase answers st size alignment := by
  rw [allocAligned, if_neg (not_or.mpr ⟨hsize, halign⟩)] at h
  obtain ⟨_, hfirst, h⟩ := bind_eq_ok.mp h
  obtain ⟨_, hsecond, h⟩ := bind_eq_ok.mp h
  obtain ⟨-, rfl⟩ := Prod.mk.inj (pure_eq_ok.mp h)
  rw [allocAlignedEvents, if_neg (not_or.mpr ⟨hsize, halign⟩)]
  dsimp only
  rw [if_neg (deref_eq_ok.mp hfirst), if_neg (deref_eq_ok.mp hsecond)]
  constructor
  · exact (trace_ensureRegion st).append ((trace_ensureRoom _ _).append (trace_bump _ _ _))
  · exact List.mem_append_right _ (List.mem_append_right _ List.mem_cons_self)

theorem trace_call (h : call hhdmBase answers st c = .ok (p, st')) :
    Trace st (events hhdmBase answers st c) st' := by
  have haligned : ∀ {size alignment : U64},
      allocAligned hhdmBase answers st size alignment = .ok (p, st') →
      Trace st (allocAlignedEvents hhdmBase answers st size alignment) st' := by
    intro size alignment hcall
    by_cases hnothing : size = 0 ∨ alignment = 0
    · rw [allocAligned, if_pos hnothing] at hcall
      obtain ⟨-, rfl⟩ := ok_pair_inj hcall
      rw [allocAlignedEvents, if_pos hnothing]
      exact .refl st
    · obtain ⟨hsize, halign⟩ := not_or.mp hnothing
      exact (trace_allocAligned hcall hsize halign).1
  cases c with
  | allocAligned size alignment => exact haligned h
  | alloc size =>
    rw [events]
    split
    · next hempty =>
      rw [call, alloc, if_pos (.inl hempty)] at h
      obtain ⟨-, rfl⟩ := ok_pair_inj h
      exact .refl st
    · next hregion =>
      rw [call, alloc_eq_allocAligned hregion] at h
      exact haligned h

theorem allocAligned_stores (h : allocAligned hhdmBase answers st size alignment = .ok (p, st'))
    {k : Nat} (hasked : .asked k ∈ allocAlignedEvents hhdmBase answers st size alignment) :
    .stored st'.currentRegion ∈ allocAlignedEvents hhdmBase answers st size alignment := by
  by_cases hnothing : size = 0 ∨ alignment = 0
  · rw [allocAlignedEvents, if_pos hnothing] at hasked
    exact absurd hasked List.not_mem_nil
  · obtain ⟨hsize, halign⟩ := not_or.mp hnothing
    exact (trace_allocAligned h hsize halign).2

/-- A call under which `pmm::alloc` fails does not return null with nothing written:
either it does not return, or it stores to a header. -/
theorem refused_not_clean (hrefused : Refused hhdmBase answers st c) :
    ¬ Clean hhdmBase answers st c := by
  rintro ⟨st', hcall, -, -, -, hstores⟩
  obtain ⟨k, hasked, -⟩ := hrefused
  cases c with
  | allocAligned size alignment => exact hstores _ (allocAligned_stores hcall hasked)
  | alloc size =>
    rw [events] at hasked hstores
    by_cases hempty : st.currentRegion = 0
    · rw [if_pos hempty] at hasked
      exact absurd hasked List.not_mem_nil
    · rw [if_neg hempty] at hasked hstores
      rw [call, alloc_eq_allocAligned hempty] at hcall
      exact hstores _ (allocAligned_stores hcall hasked)

/-- On an empty allocator the null pointer is followed. -/
theorem allocAligned_refused_empty {err : Error} {herr : err.isErr = true}
    (hanswer : answers st.allocs = .failed err herr) (hempty : st.currentRegion = 0)
    (hsize : size ≠ 0) (halign : alignment ≠ 0) :
    allocAligned hhdmBase answers st size alignment = .error .nullDeref := by
  rw [allocAligned, if_neg (not_or.mpr ⟨hsize, halign⟩), ensureRegion, if_pos (.inl hempty),
    grow_failed hanswer]
  dsimp only
  rw [hempty]
  rfl

/-- Otherwise the first byte of physical memory is taken for the new region: its
header is written there, and the block is carved behind it. -/
theorem allocAligned_refused_full {err : Error} {herr : err.isErr = true}
    (hanswer : answers st.allocs = .failed err herr) (hregion : st.currentRegion ≠ 0)
    (hlist : st.regionList ≠ 0) (hhdm : hhdmBase ≠ 0) (hsize : size ≠ 0) (halign : alignment ≠ 0)
    (hroom : st.current.end_ < alignUp st.current.curr alignment + size) :
    ∃ st', allocAligned hhdmBase answers st size alignment =
        .ok (alignUp (hhdmBase + sizeofRegion) alignment, st') ∧
      st'.currentRegion = hhdmBase ∧
      (st'.headers hhdmBase).curr = alignUp (hhdmBase + sizeofRegion) alignment + size := by
  have hbase : hhdmPhysToVirt hhdmBase (stored (answers st.allocs)) = hhdmBase := by
    rw [hanswer]
    exact BitVec.zero_add _
  obtain ⟨-, hcurrent, -, hheaders⟩ := @ensureRoom_spec_of_lt hhdmBase answers _ _ hroom
  rw [hbase] at hcurrent hheaders
  have hcurr : (ensureRoom hhdmBase answers st
      (alignUp st.current.curr alignment + size)).current.curr = hhdmBase + sizeofRegion := by
    rw [State.current, hcurrent, hheaders, Function.update_self]
  rw [allocAligned, if_neg (not_or.mpr ⟨hsize, halign⟩), ensureRegion,
    if_neg (not_or.mpr ⟨hregion, hlist⟩)]
  dsimp only
  rw [deref_of_ne hregion, ok_bind, hcurrent, deref_of_ne hhdm, ok_bind, hcurr]
  refine ⟨_, rfl, hcurrent, ?_⟩
  unfold State.setHeader
  dsimp only
  rw [hcurrent, Function.update_self]

end Calls

theorem isErr_pmmOutOfMem : (Error.ofCode .pmmOutOfMem).isErr = true := by decide

/-- One page, and then nothing. -/
def onePage : Answers := fun k =>
  if k = 0 then .granted 0x80000000 else .failed (.ofCode .pmmOutOfMem) isErr_pmmOutOfMem

def noPages : Answers := fun _ => .failed (.ofCode .pmmOutOfMem) isErr_pmmOutOfMem

/-- The allocator that has the page. -/
def onePageState : State := (grow 0xffffffc000000000 onePage emptyState).2

/-- Without any memory. -/
theorem refused_not_clean_noPages :
    Refused 0xffffffc000000000 noPages emptyState (.allocAligned 16 8) ∧
    ¬ Clean 0xffffffc000000000 noPages emptyState (.allocAligned 16 8) := by
  have hrefused : Refused 0xffffffc000000000 noPages emptyState (.allocAligned 16 8) :=
    ⟨0, by decide, rfl⟩
  exact ⟨hrefused, refused_not_clean hrefused⟩

/-- Two pages are asked for behind the first, and are found at the start of physical
memory. -/
theorem not_clean_onePage :
    Refused 0xffffffc000000000 onePage onePageState (.alloc 0x1000) ∧
    (∃ st', call 0xffffffc000000000 onePage onePageState (.alloc 0x1000) =
      .ok (0xffffffc000000018, st')) ∧
    ¬ Clean 0xffffffc000000000 onePage onePageState (.alloc 0x1000) := by
  refine ⟨⟨1, by decide, by decide⟩, ⟨_, rfl⟩, ?_⟩
  rintro ⟨st', hcall, -⟩
  have hreturned : (call 0xffffffc000000000 onePage onePageState (.alloc 0x1000)).map Prod.fst =
      .ok 0 := by
    rw [hcall]
    rfl
  exact absurd (Except.ok.inj hreturned) (by decide)

end Octiron.Bump
