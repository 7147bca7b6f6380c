import Octiron.Lib.Ownership
import Octiron.Lib.Runs
import Octiron.Types.RawStack

/-! Who owns the buffers, in programs over any number of stacks: a move assignment loses
the buffer of the stack it assigns to, and a stack without a buffer frees what the null
pointer would map to. -/
namespace Octiron.RawStack

open Lib Lib.ByteMemory Lib.Ownership Exec Pmm Limine

section Model

variable (hhdmBase : U64) (answers : Answers) (sizeofT : Nat → Nat)

/-- The stacks that live, each under a number, and the heap they share. -/
structure Objects where
  live : Nat → Option RawStack
  heap : Heap

inductive Operation where
  | construct (i : Nat)
  | pushBack (i : Nat) (value : Bytes (sizeofT i))
  | emplaceBack (i : Nat) (construct : Mem → Bytes (sizeofT i))
  | moveConstruct (i other : Nat)
  | moveAssign (i other : Nat)
  | destroy (i : Nat)

/-- The fields of `other` are copied to `i`, and then cleared. -/
def moveFields (live : Nat → Option RawStack) (i other : Nat) : Nat → Option RawStack :=
  Function.update (Function.update live i (live other)) other (some {})

/-- No range is returned while it was returned before. -/
def Distinct (heap : Heap) : Prop := (heap.obtained.map PhysRange.base).Nodup

inductive Operates : Objects → Operation sizeofT → Objects → Prop where
  | construct {w : Objects} {i : Nat} (hnew : w.live i = none) :
      Operates w (.construct i) { w with live := Function.update w.live i (some {}) }
  | pushBack {w : Objects} {i : Nat} {st st' : RawStack} {heap' : Heap} {p : U64}
      {value : Bytes (sizeofT i)} (hlive : w.live i = some st)
      (hcall : pushBack hhdmBase answers (sizeofT i) st w.heap value = .ok (p, st', heap'))
      (hfresh : Distinct heap') :
      Operates w (.pushBack i value) ⟨Function.update w.live i (some st'), heap'⟩
  | emplaceBack {w : Objects} {i : Nat} {st st' : RawStack} {heap' : Heap} {p : U64}
      {construct : Mem → Bytes (sizeofT i)} (hlive : w.live i = some st)
      (hcall : emplaceBack hhdmBase answers (sizeofT i) st w.heap construct = .ok (p, st', heap'))
      (hfresh : Distinct heap') :
      Operates w (.emplaceBack i construct) ⟨Function.update w.live i (some st'), heap'⟩
  | moveConstruct {w : Objects} {i other : Nat} {st : RawStack} (hnew : w.live i = none)
      (hother : w.live other = some st) :
      Operates w (.moveConstruct i other) { w with live := moveFields w.live i other }
  | moveAssign {w : Objects} {i other : Nat} {st st' : RawStack} (hlive : w.live i = some st)
      (hother : w.live other = some st') :
      Operates w (.moveAssign i other) { w with live := moveFields w.live i other }
  | destroy {w : Objects} {i : Nat} {st : RawStack} (hlive : w.live i = some st) :
      Operates w (.destroy i) ⟨Function.update w.live i none, destroy hhdmBase st w.heap⟩

def NoObjects (w : Objects) : Prop := ∃ mem, w = ⟨fun _ => none, { mem := mem }⟩

def Reached (w : Objects) : Prop := Runs.Run NoObjects (Operates hhdmBase answers sizeofT) w

def Owns (w : Objects) (i : Nat) (pa : U64) : Prop :=
  ∃ st, w.live i = some st ∧ st.buffer ≠ 0 ∧ hhdmVirtToPhys hhdmBase st.buffer = pa

/-- Every buffer has one owner, or has been freed once. -/
def OwnedOrFreed (w : Objects) : Prop :=
  ∀ r ∈ w.heap.obtained,
    (∃! i, Owns hhdmBase w i r.base) ∧ w.heap.freed.count r.base = 0 ∨
    (¬ ∃ i, Owns hhdmBase w i r.base) ∧ w.heap.freed.count r.base = 1

/-- Only buffers are freed. -/
def FreesObtained (w : Objects) : Prop :=
  ∀ pa ∈ w.heap.freed, ∃ r ∈ w.heap.obtained, r.base = pa

/-- A move assignment is to a stack without a buffer. -/
def AssignsEmpty (w : Objects) : Operation sizeofT → Prop
  | .moveAssign i _ => ∀ st, w.live i = some st → st.buffer = 0
  | _ => True

/-- A stack that is full, or destroyed, has a buffer. -/
def FreesBuffer (w : Objects) : Operation sizeofT → Prop
  | .pushBack i _ | .emplaceBack i _ =>
    ∀ st, w.live i = some st → st.size = st.capacity → st.buffer ≠ 0
  | .destroy i => ∀ st, w.live i = some st → st.buffer ≠ 0
  | _ => True

/-- The address passed to `pmm::free` for a null buffer. -/
def nullPhys : U64 := hhdmVirtToPhys hhdmBase 0

/-- The buffer of a stack, by its physical address. -/
def bufferOf (st : Option RawStack) : Option U64 :=
  st.bind fun st => if st.buffer = 0 then none else some (hhdmVirtToPhys hhdmBase st.buffer)

def ledger (w : Objects) : Ledger Nat U64 where
  held := fun i => bufferOf hhdmBase (w.live i)
  obtained := w.heap.obtained.map PhysRange.base
  released := w.heap.freed.filter (· ≠ nullPhys hhdmBase)

end Model

section Call

variable {hhdmBase : U64} {answers : Answers} {n : Nat} {st st' : RawStack} {heap heap' : Heap}
  {p : U64}

theorem pmmAllocNoerr_eq_ok {size pa : U64}
    (h : pmmAllocNoerr answers heap size = .ok (pa, heap')) :
    heap' = { heap with allocs := heap.allocs + 1, obtained := ⟨pa, size⟩ :: heap.obtained } := by
  rw [pmmAllocNoerr] at h
  cases hanswer : answers heap.allocs with
  | failed err herr =>
    rw [hanswer] at h
    cases h
  | granted pa' =>
    rw [hanswer] at h
    cases h
    rfl

/-- What a growth that returns has done. -/
theorem grow_cases (h : grow hhdmBase answers n st heap = .ok (st', heap')) :
    (st.size ≠ st.capacity ∧ st' = st ∧ heap' = heap) ∨
    (st.size = st.capacity ∧ ∃ pa, st' = relocated hhdmBase n st pa ∧
      heap' = relocatedHeap hhdmBase n st heap pa) := by
  by_cases hfull : st.size = st.capacity
  · refine .inr ⟨hfull, ?_⟩
    rw [grow, if_pos hfull] at h
    obtain ⟨⟨pa, heap₁⟩, hpmm, h⟩ := bind_eq_ok.mp h
    obtain ⟨_, _, h⟩ := bind_eq_ok.mp h
    obtain ⟨_, _, h⟩ := bind_eq_ok.mp h
    obtain ⟨_, _, h⟩ := bind_eq_ok.mp h
    obtain ⟨rfl, rfl⟩ := Prod.mk.inj (pure_eq_ok.mp h)
    rw [pmmAllocNoerr_eq_ok hpmm]
    exact ⟨pa, rfl, rfl⟩
  · rw [grow_of_ne hfull] at h
    obtain ⟨rfl, rfl⟩ := ok_pair_inj h
    exact .inl ⟨hfull, rfl, rfl⟩

/-- A call that returns has stored its element behind a pointer that is not null. -/
theorem emplaceBack_cases {construct : Mem → Bytes n}
    (h : emplaceBack hhdmBase answers n st heap construct = .ok (p, st', heap')) :
    ∃ st₁ heap₁, grow hhdmBase answers n st heap = .ok (st₁, heap₁) ∧ st₁.buffer ≠ 0 ∧
      st'.buffer = st₁.buffer ∧ heap'.obtained = heap₁.obtained ∧ heap'.freed = heap₁.freed := by
  obtain ⟨⟨st₁, heap₁⟩, hgrow, hrest⟩ := bind_eq_ok.mp h
  obtain ⟨_, hderef, _⟩ := bind_eq_ok.mp hrest
  have hne := deref_eq_ok.mp hderef
  rw [emplaceBack_of_grow hgrow hne] at h
  obtain ⟨rfl, rfl, rfl⟩ := ok_triple_inj h
  exact ⟨st₁, heap₁, hgrow, hne, rfl, rfl, rfl⟩

end Call

section Ledger

variable {hhdmBase : U64} {answers : Answers} {sizeofT : Nat → Nat} {w w' : Objects} {i j : Nat}
  {pa : U64}

theorem virtToPhys_eq_nullPhys {ptr : U64} :
    hhdmVirtToPhys hhdmBase ptr = nullPhys hhdmBase ↔ ptr = 0 := by
  constructor
  · intro h
    have hptr := congrArg (hhdmPhysToVirt hhdmBase) h
    rwa [nullPhys, hhdmPhysToVirt_hhdmVirtToPhys, hhdmPhysToVirt_hhdmVirtToPhys] at hptr
  · rintro rfl
    rfl

theorem bufferOf_of_null {st : RawStack} (h : st.buffer = 0) : bufferOf hhdmBase (some st) = none :=
  if_pos h

theorem bufferOf_of_ne {st : RawStack} (h : st.buffer ≠ 0) :
    bufferOf hhdmBase (some st) = some (hhdmVirtToPhys hhdmBase st.buffer) := if_neg h

theorem held_of_live {o : Option RawStack} (hlive : w.live i = o) :
    (ledger hhdmBase w).held i = bufferOf hhdmBase o := by
  rw [← hlive]
  rfl

theorem owns_iff : Owns hhdmBase w i pa ↔ (ledger hhdmBase w).held i = some pa := by
  constructor
  · rintro ⟨st, hlive, hne, rfl⟩
    rw [held_of_live hlive, bufferOf_of_ne hne]
  · intro h
    obtain ⟨st, hlive, hbuffer⟩ := Option.bind_eq_some_iff.mp h
    split at hbuffer
    · exact nomatch hbuffer
    · next hne => exact ⟨st, hlive, hne, Option.some.inj hbuffer⟩

theorem held_update (live : Nat → Option RawStack) (i : Nat) (o : Option RawStack) :
    (fun k => bufferOf hhdmBase (Function.update live i o k)) =
      Function.update (fun k => bufferOf hhdmBase (live k)) i (bufferOf hhdmBase o) := by
  funext k
  by_cases hk : k = i
  · subst hk
    rw [Function.update_self, Function.update_self]
  · rw [Function.update_of_ne hk, Function.update_of_ne hk]

/-- The buffer of a stack is released with it, if it has one. -/
theorem released_cons {st : RawStack} (hlive : w.live i = some st) :
    (hhdmVirtToPhys hhdmBase st.buffer :: w.heap.freed).filter (· ≠ nullPhys hhdmBase) =
      ((ledger hhdmBase w).release i).released := by
  rw [Ledger.release, held_of_live hlive]
  by_cases hnull : st.buffer = 0
  · rw [bufferOf_of_null hnull,
      List.filter_cons_of_neg (by simpa using virtToPhys_eq_nullPhys.mpr hnull)]
    rfl
  · rw [bufferOf_of_ne hnull,
      List.filter_cons_of_pos (by simpa using mt virtToPhys_eq_nullPhys.mp hnull)]
    rfl

theorem ledger_moveFields (heap : Heap) (live : Nat → Option RawStack) :
    ledger hhdmBase ⟨moveFields live i j, heap⟩ = (ledger hhdmBase ⟨live, heap⟩).move i j := by
  unfold ledger moveFields Ledger.move
  rw [held_update, held_update]
  rfl

theorem ledger_destroy {st : RawStack} (hlive : w.live i = some st) :
    ledger hhdmBase ⟨Function.update w.live i none, destroy hhdmBase st w.heap⟩ =
      (ledger hhdmBase w).release i := by
  apply Ledger.ext
  · exact held_update w.live i none
  · rfl
  · exact released_cons hlive

/-- What a step does to the ledger. -/
inductive Booked (hhdmBase : U64) (w : Objects) (op : Operation sizeofT) (w' : Objects) : Prop where
  | same (hledger : ledger hhdmBase w' = ledger hhdmBase w) (hassigns : AssignsEmpty sizeofT w op)
  | grown (i : Nat) (pa : U64)
      (hledger : ledger hhdmBase w' = ((ledger hhdmBase w).release i).acquire i pa)
      (hfresh : pa ∉ (ledger hhdmBase w).obtained) (hmapped : pa ≠ nullPhys hhdmBase)
      (hassigns : AssignsEmpty sizeofT w op)
  | moved (i j : Nat) (hledger : ledger hhdmBase w' = (ledger hhdmBase w).move i j)
      (hassigns : AssignsEmpty sizeofT w op ↔ (ledger hhdmBase w).held i = none)
  | released (i : Nat) (hledger : ledger hhdmBase w' = (ledger hhdmBase w).release i)
      (hassigns : AssignsEmpty sizeofT w op)

/-- Adding an element leaves the ledger as it is, or replaces the buffer. -/
theorem booked_of_call {st st' : RawStack} {heap' : Heap} {p : U64} {construct : Mem → Bytes (sizeofT i)}
    {op : Operation sizeofT} (hlive : w.live i = some st)
    (hcall : emplaceBack hhdmBase answers (sizeofT i) st w.heap construct = .ok (p, st', heap'))
    (hfresh : Distinct heap') (hassigns : AssignsEmpty sizeofT w op) :
    Booked hhdmBase w op ⟨Function.update w.live i (some st'), heap'⟩ := by
  obtain ⟨st₁, heap₁, hgrow, hne, hbuffer, hobtained, hfreed⟩ := emplaceBack_cases hcall
  rcases grow_cases hgrow with ⟨-, rfl, rfl⟩ | ⟨-, pa, rfl, rfl⟩
  · refine .same ?_ hassigns
    have hheld : bufferOf hhdmBase (some st') = bufferOf hhdmBase (w.live i) := by
      rw [hlive, bufferOf_of_ne hne, bufferOf_of_ne (hbuffer ▸ hne), hbuffer]
    unfold ledger
    rw [held_update, hheld, Function.update_eq_self, hobtained, hfreed]
  · rw [Distinct, hobtained, relocatedHeap, List.map_cons, List.nodup_cons] at hfresh
    refine .grown i pa ?_ hfresh.1 ?_ hassigns
    · have hheld : bufferOf hhdmBase (some st') = some pa := by
        rw [bufferOf_of_ne (hbuffer ▸ hne), hbuffer, relocated, hhdmVirtToPhys_hhdmPhysToVirt]
      apply Ledger.ext
      · rw [Ledger.acquire, Ledger.release, Function.update_idem, ← hheld]
        exact held_update w.live i (some st')
      · exact congrArg (List.map PhysRange.base) hobtained
      · exact (congrArg (List.filter (· ≠ nullPhys hhdmBase)) hfreed).trans (released_cons hlive)
    · intro hnull
      rw [relocated, hnull, nullPhys, hhdmPhysToVirt_hhdmVirtToPhys] at hne
      exact hne rfl

theorem Operates.booked {op : Operation sizeofT} (h : Operates hhdmBase answers sizeofT w op w') :
    Booked hhdmBase w op w' := by
  cases h with
  | construct hnew =>
    refine .same ?_ trivial
    unfold ledger
    rw [held_update, bufferOf_of_null rfl]
    rw [Function.update_eq_self_iff.mpr (by rw [hnew]; rfl)]
  | pushBack hlive hcall hfresh =>
    rw [pushBack_eq_emplaceBack] at hcall
    exact booked_of_call hlive hcall hfresh trivial
  | emplaceBack hlive hcall hfresh => exact booked_of_call hlive hcall hfresh trivial
  | @moveConstruct i other _ hnew hother =>
    refine .moved i other (ledger_moveFields ..) (iff_of_true trivial ?_)
    exact held_of_live hnew
  | @moveAssign i other st _ hlive hother =>
    refine .moved i other (ledger_moveFields ..) ?_
    rw [AssignsEmpty, held_of_live hlive, hlive]
    constructor
    · exact fun hassigns => bufferOf_of_null (hassigns st rfl)
    · rintro hnone _ ⟨⟩
      by_contra hne
      rw [bufferOf_of_ne hne] at hnone
      exact nomatch hnone
  | destroy hlive => exact .released _ (ledger_destroy hlive) trivial

end Ledger

section Run

variable {hhdmBase : U64} {answers : Answers} {sizeofT : Nat → Nat} {w w' : Objects}
  {op : Operation sizeofT}

/-- What holds whatever is called: no buffer is owned twice or freed twice, and none lies
where the null pointer would map to. -/
structure Sound (hhdmBase : U64) (w : Objects) : Prop where
  tidy : (ledger hhdmBase w).Tidy
  mapped : nullPhys hhdmBase ∉ (ledger hhdmBase w).obtained

theorem NoObjects.sound (h : NoObjects w) : Sound hhdmBase w := by
  obtain ⟨mem, rfl⟩ := h
  exact ⟨⟨.nil, .nil, nofun, nofun, nofun, nofun⟩, List.not_mem_nil⟩

theorem Sound.step (h : Sound hhdmBase w) (hstep : Operates hhdmBase answers sizeofT w op w') :
    Sound hhdmBase w' := by
  cases hstep.booked with
  | same hledger => exact ⟨hledger ▸ h.tidy, hledger ▸ h.mapped⟩
  | grown i pa hledger hfresh hmapped =>
    refine ⟨hledger ▸ (h.tidy.release i).acquire i hfresh, ?_⟩
    rw [hledger]
    exact List.not_mem_cons_of_ne_of_not_mem hmapped.symm h.mapped
  | moved i j hledger => exact ⟨hledger ▸ h.tidy.move i j, hledger ▸ h.mapped⟩
  | released i hledger => exact ⟨hledger ▸ h.tidy.release i, hledger ▸ h.mapped⟩

theorem Reached.sound (h : Reached hhdmBase answers sizeofT w) : Sound hhdmBase w := by
  refine Runs.RunWhere.induction (Q := Sound hhdmBase) ?_ ?_ h
  · exact fun _ hw => hw.sound
  · exact fun _ _ _ _ hsound _ hstep => hsound.step hstep

/-- Only a move assignment loses a buffer, that of the stack it assigns to. -/
theorem Sound.settled_step (h : Sound hhdmBase w)
    (hstep : Operates hhdmBase answers sizeofT w op w') :
    (ledger hhdmBase w').Settled ↔ (ledger hhdmBase w).Settled ∧ AssignsEmpty sizeofT w op := by
  cases hstep.booked with
  | same hledger hassigns => rw [hledger, and_iff_left hassigns]
  | grown i pa hledger hfresh _ hassigns =>
    have hnone : ((ledger hhdmBase w).release i).held i = none := Function.update_self ..
    rw [hledger, Ledger.settled_acquire hnone hfresh, Ledger.settled_release, and_iff_left hassigns]
  | moved i j hledger hassigns => rw [hledger, h.tidy.settled_move, hassigns]
  | released i hledger hassigns => rw [hledger, Ledger.settled_release, and_iff_left hassigns]

theorem Sound.ownedOrFreed_iff (h : Sound hhdmBase w) :
    OwnedOrFreed hhdmBase w ↔ (ledger hhdmBase w).Settled := by
  have hcount : ∀ r ∈ w.heap.obtained,
      (ledger hhdmBase w).released.count r.base = w.heap.freed.count r.base := by
    intro r hr
    have hne : r.base ≠ nullPhys hhdmBase := by
      intro hnull
      exact h.mapped (hnull ▸ List.mem_map_of_mem hr)
    exact List.count_filter (by simpa using hne)
  rw [h.tidy.settled_iff]
  simp only [← owns_iff]
  constructor
  · intro howned pa hpa
    obtain ⟨r, hr, rfl⟩ := List.mem_map.mp hpa
    rw [hcount r hr]
    exact howned r hr
  · intro howned r hr
    rw [← hcount r hr]
    exact howned r.base (List.mem_map_of_mem hr)

/-- All addresses freed are those of buffers, but for that of the null pointer. -/
theorem Sound.freesObtained_iff (h : Sound hhdmBase w) :
    FreesObtained w ↔ nullPhys hhdmBase ∉ w.heap.freed := by
  constructor
  · intro hall hnull
    obtain ⟨r, hr, hbase⟩ := hall _ hnull
    exact h.mapped (hbase ▸ List.mem_map_of_mem hr)
  · intro hnull pa hpa
    have hne : pa ≠ nullPhys hhdmBase := by
      rintro rfl
      exact hnull hpa
    have hreleased : pa ∈ (ledger hhdmBase w).released :=
      List.mem_filter.mpr ⟨hpa, by simpa using hne⟩
    exact List.mem_map.mp (h.tidy.released_obtained pa hreleased)

theorem nullPhys_mem_freed_of_call {n : Nat} {st st' : RawStack} {heap heap' : Heap} {p : U64}
    {construct : Mem → Bytes n}
    (hcall : emplaceBack hhdmBase answers n st heap construct = .ok (p, st', heap')) :
    nullPhys hhdmBase ∉ heap'.freed ↔
      nullPhys hhdmBase ∉ heap.freed ∧ (st.size = st.capacity → st.buffer ≠ 0) := by
  obtain ⟨st₁, heap₁, hgrow, -, -, -, hfreed⟩ := emplaceBack_cases hcall
  rw [hfreed]
  rcases grow_cases hgrow with ⟨hroom, rfl, rfl⟩ | ⟨hfull, pa, rfl, rfl⟩
  · rw [and_iff_left fun hfull => absurd hfull hroom]
  · rw [relocatedHeap, List.mem_cons, not_or, eq_comm, virtToPhys_eq_nullPhys, and_comm]
    simp [hfull]

theorem Operates.freed {op : Operation sizeofT} (h : Operates hhdmBase answers sizeofT w op w') :
    nullPhys hhdmBase ∉ w'.heap.freed ↔
      nullPhys hhdmBase ∉ w.heap.freed ∧ FreesBuffer sizeofT w op := by
  cases h with
  | construct hnew => exact (and_iff_left trivial).symm
  | pushBack hlive hcall hfresh =>
    rw [pushBack_eq_emplaceBack] at hcall
    simp [FreesBuffer, hlive, nullPhys_mem_freed_of_call hcall]
  | emplaceBack hlive hcall hfresh =>
    simp [FreesBuffer, hlive, nullPhys_mem_freed_of_call hcall]
  | moveConstruct hnew hother => exact (and_iff_left trivial).symm
  | moveAssign hlive hother => exact (and_iff_left trivial).symm
  | destroy hlive =>
    rw [RawStack.destroy, pmmFree, List.mem_cons, not_or, eq_comm, virtToPhys_eq_nullPhys, and_comm]
    simp [FreesBuffer, hlive]

/-- No buffer is lost exactly in runs that assign to stacks without a buffer only, and
nothing else is freed exactly in runs that neither fill up nor destroy one. -/
theorem ownership_iff (hrun : Reached hhdmBase answers sizeofT w) :
    (OwnedOrFreed hhdmBase w ∧ FreesObtained w ↔
      Runs.RunWhere NoObjects (Operates hhdmBase answers sizeofT)
        (fun w op => AssignsEmpty sizeofT w op ∧ FreesBuffer sizeofT w op) w) ∧
    (OwnedOrFreed hhdmBase w ↔
      Runs.RunWhere NoObjects (Operates hhdmBase answers sizeofT) (AssignsEmpty sizeofT) w) ∧
    (FreesObtained w ↔
      Runs.RunWhere NoObjects (Operates hhdmBase answers sizeofT) (FreesBuffer sizeofT) w) := by
  have howned : ∀ w, NoObjects w → OwnedOrFreed hhdmBase w := by
    rintro _ ⟨mem, rfl⟩
    exact List.forall_mem_nil _
  have hfrees : ∀ w, NoObjects w → FreesObtained w := by
    rintro _ ⟨mem, rfl⟩
    exact List.forall_mem_nil _
  have hownedStep : ∀ w op w', Reached hhdmBase answers sizeofT w →
      Operates hhdmBase answers sizeofT w op w' →
      (OwnedOrFreed hhdmBase w' ↔ OwnedOrFreed hhdmBase w ∧ AssignsEmpty sizeofT w op) := by
    intro w op w' hreached hstep
    have hsound := Reached.sound hreached
    rw [(hsound.step hstep).ownedOrFreed_iff, hsound.ownedOrFreed_iff, hsound.settled_step hstep]
  have hfreesStep : ∀ w op w', Reached hhdmBase answers sizeofT w →
      Operates hhdmBase answers sizeofT w op w' →
      (FreesObtained w' ↔ FreesObtained w ∧ FreesBuffer sizeofT w op) := by
    intro w op w' hreached hstep
    have hsound := Reached.sound hreached
    rw [(hsound.step hstep).freesObtained_iff, hsound.freesObtained_iff, hstep.freed]
  refine ⟨@Runs.Run.good_iff _ _ _ _ _ (fun w => OwnedOrFreed hhdmBase w ∧ FreesObtained w)
    (fun w hw => ⟨howned w hw, hfrees w hw⟩) ?_ w hrun,
    Runs.Run.good_iff howned hownedStep hrun, Runs.Run.good_iff hfrees hfreesStep hrun⟩
  intro w op w' hreached hstep
  rw [hownedStep w op w' hreached hstep, hfreesStep w op w' hreached hstep, and_and_and_comm]

end Run

section Examples

def hhdm : U64 := 0xffffffc000000000

/-- One page, far from the null page. -/
def pageAt : Answers := fun _ => .granted 0x80000000

def emptyHeap : Heap := { mem := fun _ => 0 }

/-- A stack of words that has grown once and holds one of them. -/
def oneWord : RawStack := extended (relocated hhdm 8 {} 0x80000000)

def oneWordHeap : Heap :=
  @stored 8 (relocated hhdm 8 {} 0x80000000) (relocatedHeap hhdm 8 {} emptyHeap 0x80000000) fun _ => 7

/-- Stack `0` has one element. -/
def filled : Objects :=
  ⟨Function.update (Function.update (fun _ => none) 0 (some {})) 0 (some oneWord), oneWordHeap⟩

/-- Then a new stack is assigned to it. -/
def assigned : Objects :=
  { filled with live := moveFields (Function.update filled.live 1 (some {})) 0 1 }

theorem operates_filled :
    Operates hhdm pageAt (fun _ => 8) ⟨Function.update (fun _ => none) 0 (some {}), emptyHeap⟩
      (.pushBack 0 fun _ => 7) filled := by
  have hgrow := @grow_of_full hhdm pageAt 8 {} emptyHeap 0x80000000 rfl rfl (by decide) (by decide)
    (fun hsome => absurd rfl hsome)
  have hcall := emplaceBack_of_grow hgrow (by decide) fun _ _ => 7
  rw [← pushBack_eq_emplaceBack] at hcall
  exact .pushBack rfl hcall (List.nodup_singleton _)

theorem operates_start : Operates hhdm pageAt (fun _ => 8) ⟨fun _ => none, emptyHeap⟩ (.construct 0)
    ⟨Function.update (fun _ => none) 0 (some {}), emptyHeap⟩ := .construct rfl

theorem reached_filled : Reached hhdm pageAt (fun _ => 8) filled :=
  ((Runs.RunWhere.start ⟨_, rfl⟩).next trivial operates_start).next trivial operates_filled

/-- The page of the one stack is accounted for. -/
theorem ownership_iff_filled : Reached hhdm pageAt (fun _ => 8) filled ∧ OwnedOrFreed hhdm filled := by
  have hwhere : Runs.RunWhere NoObjects (Operates hhdm pageAt fun _ => 8)
      (AssignsEmpty fun _ => 8) filled :=
    ((Runs.RunWhere.start ⟨_, rfl⟩).next (c := .construct 0) trivial operates_start).next
      (c := .pushBack 0 _) trivial operates_filled
  exact ⟨reached_filled, (ownership_iff reached_filled).2.1.mpr hwhere⟩

theorem reached_assigned : Reached hhdm pageAt (fun _ => 8) assigned := by
  have hconstruct : Operates hhdm pageAt (fun _ => 8) filled (.construct 1)
      { filled with live := Function.update filled.live 1 (some {}) } := .construct rfl
  have hassign : Operates hhdm pageAt (fun _ => 8)
      { filled with live := Function.update filled.live 1 (some {}) } (.moveAssign 0 1) assigned :=
    .moveAssign rfl rfl
  exact (Runs.RunWhere.next reached_filled trivial hconstruct).next trivial hassign

/-- The page is lost, and the growth has freed what is no page. -/
theorem not_owned_assigned :
    Reached hhdm pageAt (fun _ => 8) assigned ∧
    assigned.heap.obtained = [⟨0x80000000, 0x1000⟩] ∧
    assigned.heap.freed = [0x4000000000] ∧
    ¬ OwnedOrFreed hhdm assigned ∧ ¬ FreesObtained assigned := by
  refine ⟨reached_assigned, by decide, by decide, fun howned => ?_, fun hfrees => ?_⟩
  · have hunowned : ¬ ∃ i, Owns hhdm assigned i 0x80000000 := by
      rintro ⟨i, st, hlive, hne, -⟩
      by_cases hi : i = 0 ∨ i = 1
      · rcases hi with rfl | rfl
        · exact hne (by cases hlive; rfl)
        · exact hne (by cases hlive; rfl)
      · rw [not_or] at hi
        simp [assigned, moveFields, filled, hi.1, hi.2] at hlive
    rcases howned ⟨0x80000000, 0x1000⟩ (by decide) with ⟨⟨i, hi, -⟩, -⟩ | ⟨-, hone⟩
    · exact hunowned ⟨i, hi⟩
    · exact absurd hone (by decide)
  · obtain ⟨r, hr, hbase⟩ := hfrees 0x4000000000 (by decide)
    revert r
    decide

end Examples

end Octiron.RawStack
