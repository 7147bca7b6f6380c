import Octiron.Lib.Runs
import Octiron.Types.RawStack

/-! What one stack holds while elements are added and others write elsewhere: every
element, however often the buffer has been replaced. -/
namespace Octiron.RawStack

open Lib Lib.Word Lib.ByteMemory Exec Pmm Limine

section Model

variable (hhdmBase : U64) (answers : Answers) (sizeofT : Nat)

/-- What `pmm::alloc_noerr` is relied on for: memory that is no part of what it returned
before. -/
structure Fresh (heap : Heap) (pa size : U64) : Prop where
  granted : answers heap.allocs = .granted pa
  nonnull : pa ≠ 0
  mapped : hhdmPhysToVirt hhdmBase pa ≠ 0
  apart : ∀ r ∈ heap.obtained, Apart pa size.toNat r.base r.size.toNat
  total : size.toNat + (heap.obtained.map fun r => r.size.toNat).sum < 2 ^ 62

/-- When the next call will grow the stack, there is memory for it. -/
def Ready (st : RawStack) (heap : Heap) : Prop :=
  st.size = st.capacity → ∃ pa, Fresh hhdmBase answers heap pa (st.newSize sizeofT)

/-- The current buffer is the newest range, and there is none before the first. -/
inductive CurrentBuffer (st : RawStack) (heap : Heap) : Nat → Prop where
  | none (hobtained : heap.obtained = []) (hbuffer : st.buffer = 0) : CurrentBuffer st heap 0
  | some {r : PhysRange} {rest : List PhysRange} (hobtained : heap.obtained = r :: rest)
      (hbuffer : st.buffer = hhdmPhysToVirt hhdmBase r.base) (hne : st.buffer ≠ 0) :
      CurrentBuffer st heap r.size.toNat

inductive Event where
  | pushBack (value : Bytes sizeofT)
  | emplaceBack (construct : Mem → Bytes sizeofT)
  | elsewhere

/-- The values pushed so far, oldest first. -/
structure World where
  st : RawStack
  heap : Heap
  values : List (Bytes sizeofT)

inductive Step : World sizeofT → Event sizeofT → World sizeofT → Prop where
  | pushBack {w : World sizeofT} {value : Bytes sizeofT} {p : U64} {st' : RawStack} {heap' : Heap}
      (hready : Ready hhdmBase answers sizeofT w.st w.heap)
      (hcall : pushBack hhdmBase answers sizeofT w.st w.heap value = .ok (p, st', heap')) :
      Step w (.pushBack value) ⟨st', heap', w.values ++ [value]⟩
  | emplaceBack {w : World sizeofT} {construct : Mem → Bytes sizeofT} {p : U64}
      {st₁ st' : RawStack} {heap₁ heap' : Heap}
      (hready : Ready hhdmBase answers sizeofT w.st w.heap)
      (hgrow : grow hhdmBase answers sizeofT w.st w.heap = .ok (st₁, heap₁))
      (hcall : emplaceBack hhdmBase answers sizeofT w.st w.heap construct = .ok (p, st', heap')) :
      Step w (.emplaceBack construct) ⟨st', heap', w.values ++ [construct heap₁.mem]⟩
  | elsewhere {w : World sizeofT} {bytes : Nat} {m' : Mem}
      (hcurrent : CurrentBuffer hhdmBase w.st w.heap bytes)
      (hown : ChangesOnly (fun x => ¬ Within x w.st.buffer bytes) w.heap.mem m') :
      Step w .elsewhere { w with heap := { w.heap with mem := m' } }

def Constructed (w : World sizeofT) : Prop := ∃ mem, w = ⟨{}, { mem := mem }, []⟩

def Run (w : World sizeofT) : Prop :=
  Runs.Run (Constructed sizeofT) (Step hhdmBase answers sizeofT) w

/-- What a call that adds `value` returns and changes. -/
structure Added (st : RawStack) (heap : Heap) (value : Bytes sizeofT) (p : U64) (st' : RawStack)
    (heap' : Heap) : Prop where
  size : st'.size.toNat = st.size.toNat + 1
  address : p = st'.index sizeofT st.size
  element : readBytes heap'.mem p sizeofT = value
  inside : ∃ bytes, CurrentBuffer hhdmBase st' heap' bytes ∧
    (∀ x, Within x p sizeofT → Within x st'.buffer bytes) ∧
    ChangesOnly (fun x => Within x st'.buffer bytes) heap.mem heap'.mem

/-- What is promised of a stack and of its next call. -/
structure Keeps (w : World sizeofT) : Prop where
  size : w.st.size.toNat = w.values.length
  size_le : w.st.size.toNat ≤ w.st.capacity.toNat
  room : ∃ bytes, CurrentBuffer hhdmBase w.st w.heap bytes ∧
    w.st.capacity.toNat * sizeofT ≤ bytes
  contents : ∀ i (hi : i < w.values.length),
    readBytes w.heap.mem (w.st.index sizeofT (BitVec.ofNat 64 i)) sizeofT = w.values.get ⟨i, hi⟩
  pushes : Ready hhdmBase answers sizeofT w.st w.heap → ∀ value, ∃ p st' heap',
    pushBack hhdmBase answers sizeofT w.st w.heap value = .ok (p, st', heap') ∧
      Added hhdmBase sizeofT w.st w.heap value p st' heap'
  emplaces : Ready hhdmBase answers sizeofT w.st w.heap → ∀ construct, ∃ p st₁ heap₁ st' heap',
    grow hhdmBase answers sizeofT w.st w.heap = .ok (st₁, heap₁) ∧
      emplaceBack hhdmBase answers sizeofT w.st w.heap construct = .ok (p, st', heap') ∧
      Added hhdmBase sizeofT w.st w.heap (construct heap₁.mem) p st' heap'

end Model

/-- What carries a run: the elements lie one behind the other in `bytes` bytes of the
newest range. -/
structure Inv (hhdmBase : U64) {sizeofT : Nat} (w : World sizeofT) (bytes : Nat) : Prop where
  size : w.st.size.toNat = w.values.length
  size_le : w.st.size.toNat ≤ w.st.capacity.toNat
  current : CurrentBuffer hhdmBase w.st w.heap bytes
  room : Room sizeofT w.st bytes
  contents : ∀ i (hi : i < w.values.length),
    readBytes w.heap.mem (w.st.index sizeofT (BitVec.ofNat 64 i)) sizeofT = w.values.get ⟨i, hi⟩

/-- A stack with room for one more element, made from `st`. -/
structure Grew (hhdmBase : U64) (sizeofT : Nat) (st : RawStack) (heap : Heap) (st₁ : RawStack)
    (heap₁ : Heap) (bytes : Nat) : Prop where
  size : st₁.size = st.size
  lt_capacity : st.size.toNat < st₁.capacity.toNat
  current : CurrentBuffer hhdmBase st₁ heap₁ bytes
  room : Room sizeofT st₁ bytes
  elements : ∀ i < st.size.toNat, readBytes heap₁.mem (st₁.index sizeofT (BitVec.ofNat 64 i)) sizeofT =
    readBytes heap.mem (st.index sizeofT (BitVec.ofNat 64 i)) sizeofT
  frame : ChangesOnly (fun x => Within x st₁.buffer bytes) heap.mem heap₁.mem

section Addresses

variable {sizeofT : Nat} {st : RawStack} {bytes : Nat}

theorem index_eq (st : RawStack) (i : Nat) :
    st.index sizeofT (BitVec.ofNat 64 i) = st.buffer + BitVec.ofNat 64 (i * sizeofT) := by
  rw [index, BitVec.ofNat_mul]

theorem index_size (st : RawStack) :
    st.index sizeofT st.size = st.buffer + BitVec.ofNat 64 (st.size.toNat * sizeofT) := by
  rw [← index_eq, BitVec.ofNat_toNat, BitVec.setWidth_eq]

/-- An element that the capacity has room for. -/
theorem element_le {i capacity : Nat} (hi : i < capacity) :
    i * sizeofT + sizeofT ≤ capacity * sizeofT := by
  have hle := Nat.mul_le_mul_right sizeofT hi
  rwa [Nat.succ_mul] at hle

theorem Room.within_buffer (h : Room sizeofT st bytes) {i : Nat} (hi : i < st.capacity.toNat) {x : U64}
    (hx : Within x (st.buffer + BitVec.ofNat 64 (i * sizeofT)) sizeofT) :
    Within x st.buffer bytes := by
  have hle := @element_le sizeofT _ _ hi
  have hfits := h.fits
  have hbounded := h.bounded
  exact within_of_offset (by omega) (by omega) hx

/-- Two elements lie apart. -/
theorem Room.elements_apart (h : Room sizeofT st bytes) {i j : Nat} (hi : i < st.capacity.toNat)
    (hj : j < st.capacity.toNat) (hne : i ≠ j) :
    Apart (st.buffer + BitVec.ofNat 64 (i * sizeofT)) sizeofT
      (st.buffer + BitVec.ofNat 64 (j * sizeofT)) sizeofT := by
  have hlei := @element_le sizeofT _ _ hi
  have hlej := @element_le sizeofT _ _ hj
  have hfits := h.fits
  have hbounded := h.bounded
  intro x hx hx'
  rw [within_offset_iff (by omega)] at hx hx'
  rcases Nat.lt_or_gt_of_ne hne with hlt | hgt
  · have hle := @element_le sizeofT _ _ hlt
    omega
  · have hle := @element_le sizeofT _ _ hgt
    omega

end Addresses

section Grow

variable {hhdmBase : U64} {answers : Answers} {sizeofT : Nat} {w : World sizeofT} {bytes : Nat}

/-- A buffer with bytes is not null, and none before it shares any of them. -/
theorem CurrentBuffer.of_pos {st : RawStack} {heap : Heap} (h : CurrentBuffer hhdmBase st heap bytes)
    (hpos : 0 < bytes) {pa size : U64} (hfresh : Fresh hhdmBase answers heap pa size) :
    st.buffer ≠ 0 ∧ Apart st.buffer bytes (hhdmPhysToVirt hhdmBase pa) size.toNat := by
  cases h with
  | none => exact absurd hpos (Nat.lt_irrefl 0)
  | some hobtained hbuffer hne =>
    have happart := hfresh.apart _ (by rw [hobtained]; exact List.mem_cons_self)
    refine ⟨hne, ?_⟩
    rw [hbuffer]
    exact (happart.add_right hhdmBase).symm

/-- Without room a stack moves to the fresh range, with all its elements. -/
theorem Inv.grow_full (h : Inv hhdmBase w bytes) (hpos : 0 < sizeofT) (hsize : sizeofT ≤ 4096)
    (hfull : w.st.size = w.st.capacity) {pa : U64}
    (hfresh : Fresh hhdmBase answers w.heap pa (w.st.newSize sizeofT)) :
    grow hhdmBase answers sizeofT w.st w.heap = .ok (relocated hhdmBase sizeofT w.st pa,
        relocatedHeap hhdmBase sizeofT w.st w.heap pa) ∧
      Grew hhdmBase sizeofT w.st w.heap (relocated hhdmBase sizeofT w.st pa)
        (relocatedHeap hhdmBase sizeofT w.st w.heap pa) (w.st.newSize sizeofT).toNat := by
  have hfits := h.room.fits
  have hbounded := h.room.bounded
  have htotal := hfresh.total
  obtain ⟨hroom, hgrowth⟩ := @Room.relocated hhdmBase _ _ _ h.room hpos hsize (by omega) pa
  have hcopied : w.st.capacity.toNat * sizeofT ≤ (w.st.newSize sizeofT).toNat :=
    (Nat.mul_le_mul_right _ hgrowth.le).trans hroom.fits
  have hcount := mul_sizeofT_toNat (i := w.st.capacity) (by omega) hsize
  have hlimit : w.st.capacity.toNat * sizeofT ≤ 2 ^ 64 := by omega
  -- the bytes copied lie apart from the new buffer
  have hbuffers : 0 < w.st.capacity.toNat * sizeofT → w.st.buffer ≠ 0 ∧
      Apart w.st.buffer (w.st.capacity.toNat * sizeofT) (hhdmPhysToVirt hhdmBase pa)
        (w.st.capacity.toNat * sizeofT) := by
    intro hsome
    obtain ⟨hne, hapart⟩ := h.current.of_pos (hsome.trans_le hfits) hfresh
    refine ⟨hne, hapart.mono (fun x hx => ?_) (fun x hx => ?_)⟩
    · exact Nat.lt_of_lt_of_le hx hfits
    · exact Nat.lt_of_lt_of_le hx hcopied
  have hcurrent : CurrentBuffer hhdmBase (relocated hhdmBase sizeofT w.st pa)
      (relocatedHeap hhdmBase sizeofT w.st w.heap pa) (w.st.newSize sizeofT).toNat :=
    @CurrentBuffer.some _ _ _ ⟨pa, w.st.newSize sizeofT⟩ w.heap.obtained rfl rfl hfresh.mapped
  constructor
  · refine grow_of_full hfull hfresh.granted hfresh.nonnull hfresh.mapped fun hsome => ?_
    refine (hbuffers (Nat.pos_of_ne_zero fun hzero => hsome ?_)).1
    exact BitVec.eq_of_toNat_eq (hcount.trans hzero)
  · refine ⟨rfl, hfull ▸ hgrowth, hcurrent, hroom, fun i hi => ?_, fun x hx => ?_⟩
    · have hle := @element_le sizeofT _ _ (hfull ▸ hi)
      funext k
      have hk := k.isLt
      rw [readBytes, readBytes, index_eq, index_eq, add_ofNat_add, add_ofNat_add, relocatedHeap, hcount]
      exact Memory.copy_apply hlimit (hbuffers (by omega)).2 (by omega)
    · by_contra houtside
      apply hx
      rw [relocatedHeap, hcount]
      apply Memory.copy_apply_of_not_within hlimit
      exact fun hwithin => houtside (Nat.lt_of_lt_of_le hwithin hcopied)

theorem Inv.grow (h : Inv hhdmBase w bytes) (hpos : 0 < sizeofT) (hsize : sizeofT ≤ 4096)
    (hready : Ready hhdmBase answers sizeofT w.st w.heap) :
    ∃ st₁ heap₁ bytes₁, RawStack.grow hhdmBase answers sizeofT w.st w.heap = .ok (st₁, heap₁) ∧
      Grew hhdmBase sizeofT w.st w.heap st₁ heap₁ bytes₁ := by
  by_cases hfull : w.st.size = w.st.capacity
  · obtain ⟨pa, hfresh⟩ := hready hfull
    exact ⟨_, _, _, h.grow_full hpos hsize hfull hfresh⟩
  · refine ⟨_, _, bytes, grow_of_ne hfull, rfl, ?_, h.current, h.room, fun _ _ => rfl, .refl _ _⟩
    exact lt_of_le_of_ne h.size_le fun heq => hfull (BitVec.eq_of_toNat_eq heq)

end Grow

section Store

variable {hhdmBase : U64} {answers : Answers} {sizeofT : Nat} {w w' : World sizeofT} {bytes : Nat}
variable {st st₁ : RawStack} {heap heap₁ : Heap}

theorem Grew.buffer_ne_zero (h : Grew hhdmBase sizeofT st heap st₁ heap₁ bytes) (hpos : 0 < sizeofT) :
    st₁.buffer ≠ 0 := by
  have hfits := h.room.fits
  have hcapacity := h.lt_capacity
  cases h.current with
  | none =>
    have hmul := Nat.mul_pos (Nat.zero_lt_of_lt hcapacity) hpos
    omega
  | some hobtained hbuffer hne => exact hne

theorem CurrentBuffer.congr {st' : RawStack} {heap' : Heap} (h : CurrentBuffer hhdmBase st heap bytes)
    (hbuffer : st'.buffer = st.buffer) (hobtained : heap'.obtained = heap.obtained) :
    CurrentBuffer hhdmBase st' heap' bytes := by
  cases h with
  | none hnone hnull => exact .none (hobtained.trans hnone) (hbuffer.trans hnull)
  | some hsome hvirt hne =>
    exact .some (hobtained.trans hsome) (hbuffer.trans hvirt) (hbuffer ▸ hne)

theorem Grew.extended_size (h : Grew hhdmBase sizeofT st heap st₁ heap₁ bytes) :
    (extended st₁).size.toNat = st.size.toNat + 1 := by
  have hlt := h.lt_capacity
  have hcapacity := st₁.capacity.isLt
  rw [extended, BitVec.toNat_add, h.size, show (1 : U64).toNat = 1 from rfl,
    Nat.mod_eq_of_lt (by omega)]

/-- The new element lies in the buffer and is what was stored. -/
theorem Grew.added (h : Grew hhdmBase sizeofT st heap st₁ heap₁ bytes) (hsize : sizeofT ≤ 4096)
    (value : Bytes sizeofT) :
    Added hhdmBase sizeofT st heap value (st₁.index sizeofT st₁.size) (extended st₁)
      (stored st₁ heap₁ value) := by
  have hlt := h.lt_capacity
  rw [← h.size] at hlt
  have hinside : ∀ x, Within x (st₁.index sizeofT st₁.size) sizeofT → Within x st₁.buffer bytes := by
    intro x hx
    rw [index_size] at hx
    exact h.room.within_buffer hlt hx
  refine ⟨h.extended_size, ?_, readBytes_writeBytes (by omega), bytes, h.current.congr rfl rfl, hinside, ?_⟩
  · rw [h.size]
    rfl
  · refine h.frame.trans fun x hx => hinside x ?_
    by_contra houtside
    exact hx (writeBytes_apply_of_not_within houtside)

/-- The elements that were there stay. -/
theorem Inv.stored (h : Inv hhdmBase w bytes) (hsize : sizeofT ≤ 4096) {bytes₁ : Nat}
    (hgrew : Grew hhdmBase sizeofT w.st w.heap st₁ heap₁ bytes₁) (value : Bytes sizeofT) :
    Inv hhdmBase ⟨extended st₁, RawStack.stored st₁ heap₁ value, w.values ++ [value]⟩ bytes₁ := by
  have hcount := h.size
  have hlt := hgrew.lt_capacity
  have hextended := hgrew.extended_size
  have hroom : Room sizeofT (extended st₁) bytes₁ :=
    ⟨hgrew.room.fits, hgrew.room.pages, hgrew.room.bounded⟩
  refine ⟨?_, ?_, hgrew.current.congr rfl rfl, hroom, fun i hi => ?_⟩
  · rw [List.length_append, List.length_singleton, hextended, hcount]
  · rw [hextended]
    exact hlt
  · rw [List.length_append, List.length_singleton] at hi
    have hindex : (extended st₁).index sizeofT (BitVec.ofNat 64 i) =
      st₁.index sizeofT (BitVec.ofNat 64 i) := rfl
    by_cases hold : i < w.values.length
    · have happart := hgrew.room.elements_apart (i := i) (j := st₁.size.toNat)
        (by omega) (by rw [hgrew.size]; exact hlt) (by rw [hgrew.size]; omega)
      rw [hindex, readBytes_congr (by omega), hgrew.elements i (by omega), h.contents i hold]
      · exact (List.getElem_append_left hold).symm
      · intro x hx
        apply writeBytes_apply_of_not_within
        rw [index_eq] at hx
        rw [index_size]
        exact happart x hx
    · have hlast : i = st₁.size.toNat := by
        rw [hgrew.size]
        omega
      have hindex' : st₁.index sizeofT (BitVec.ofNat 64 i) = st₁.index sizeofT st₁.size := by
        rw [hlast, BitVec.ofNat_toNat, BitVec.setWidth_eq]
      rw [hindex, hindex', RawStack.stored, readBytes_writeBytes (by omega)]
      exact (List.getElem_concat_length (by omega) _).symm

/-- Others may write behind and in front of the buffer. -/
theorem Inv.elsewhere (h : Inv hhdmBase w bytes) (hsize : sizeofT ≤ 4096) {m' : Mem}
    (hown : ChangesOnly (fun x => ¬ Within x w.st.buffer bytes) w.heap.mem m') :
    Inv hhdmBase { w with heap := { w.heap with mem := m' } } bytes := by
  refine ⟨h.size, h.size_le, h.current.congr rfl rfl, h.room, fun i hi => ?_⟩
  have hcapacity := h.size_le
  rw [h.size] at hcapacity
  rw [readBytes_congr (by omega), h.contents i hi]
  intro x hx
  rw [index_eq] at hx
  by_contra hchanged
  exact hown x hchanged (h.room.within_buffer (hi.trans_le hcapacity) hx)

end Store

section Run

variable {hhdmBase : U64} {answers : Answers} {sizeofT : Nat} {w w' : World sizeofT} {bytes : Nat}

theorem CurrentBuffer.unique {st : RawStack} {heap : Heap} {bytes' : Nat}
    (h : CurrentBuffer hhdmBase st heap bytes) (h' : CurrentBuffer hhdmBase st heap bytes') :
    bytes = bytes' := by
  cases h with
  | none hnone =>
    cases h' with
    | none => rfl
    | some hsome => exact absurd (hnone.symm.trans hsome) (List.cons_ne_nil _ _).symm
  | some hsome =>
    cases h' with
    | none hnone => exact absurd (hnone.symm.trans hsome) (List.cons_ne_nil _ _).symm
    | some hsome' => rw [(List.cons.inj (hsome.symm.trans hsome')).1]

theorem inv_constructed (h : Constructed sizeofT w) : Inv hhdmBase w 0 := by
  obtain ⟨mem, rfl⟩ := h
  exact ⟨rfl, le_rfl, .none rfl rfl, ⟨(Nat.zero_mul sizeofT).le, Nat.dvd_zero _, Nat.two_pow_pos 62⟩,
    fun i hi => absurd hi (Nat.not_lt_zero i)⟩

theorem inv_step (hpos : 0 < sizeofT) (hsize : sizeofT ≤ 4096) {event : Event sizeofT}
    (h : Inv hhdmBase w bytes) (hstep : Step hhdmBase answers sizeofT w event w') :
    ∃ bytes', Inv hhdmBase w' bytes' := by
  cases hstep with
  | pushBack hready hcall =>
    obtain ⟨st₁, heap₁, bytes₁, hgrow, hgrew⟩ := h.grow hpos hsize hready
    rw [pushBack_eq_emplaceBack, emplaceBack_of_grow hgrow (hgrew.buffer_ne_zero hpos)] at hcall
    obtain ⟨rfl, rfl, rfl⟩ := ok_triple_inj hcall
    exact ⟨bytes₁, h.stored hsize hgrew _⟩
  | emplaceBack hready hgrow' hcall =>
    obtain ⟨st₁, heap₁, bytes₁, hgrow, hgrew⟩ := h.grow hpos hsize hready
    obtain ⟨rfl, rfl⟩ := ok_pair_inj (hgrow'.symm.trans hgrow)
    rw [emplaceBack_of_grow hgrow (hgrew.buffer_ne_zero hpos)] at hcall
    obtain ⟨rfl, rfl, rfl⟩ := ok_triple_inj hcall
    exact ⟨bytes₁, h.stored hsize hgrew _⟩
  | elsewhere hcurrent hown =>
    obtain rfl := h.current.unique hcurrent
    exact ⟨_, h.elsewhere hsize hown⟩

theorem Run.inv (hpos : 0 < sizeofT) (hsize : sizeofT ≤ 4096)
    (h : Run hhdmBase answers sizeofT w) : ∃ bytes, Inv hhdmBase w bytes := by
  refine Runs.RunWhere.induction (Q := fun w => ∃ bytes, Inv hhdmBase w bytes) ?_ ?_ h
  · exact fun w hw => ⟨0, inv_constructed hw⟩
  · rintro w event w' - ⟨bytes, hinv⟩ - hstep
    exact inv_step hpos hsize hinv hstep

/-- In every state of every run the elements are the values pushed, in order, and the
next call returns the address of one more. -/
theorem stack_keeps (hpos : 1 ≤ sizeofT) (hsize : sizeofT ≤ pageSize.toNat)
    (h : Run hhdmBase answers sizeofT w) : Keeps hhdmBase answers sizeofT w := by
  obtain ⟨bytes, hinv⟩ := Run.inv hpos hsize h
  refine ⟨hinv.size, hinv.size_le, ⟨bytes, hinv.current, hinv.room.fits⟩, hinv.contents,
    fun hready value => ?_, fun hready construct => ?_⟩
  · obtain ⟨st₁, heap₁, bytes₁, hgrow, hgrew⟩ := hinv.grow hpos hsize hready
    rw [pushBack_eq_emplaceBack, emplaceBack_of_grow hgrow (hgrew.buffer_ne_zero hpos)]
    exact ⟨_, _, _, rfl, hgrew.added hsize value⟩
  · obtain ⟨st₁, heap₁, bytes₁, hgrow, hgrew⟩ := hinv.grow hpos hsize hready
    rw [emplaceBack_of_grow hgrow (hgrew.buffer_ne_zero hpos)]
    exact ⟨_, _, _, _, _, hgrow, rfl, hgrew.added hsize _⟩

/-- The state after a full stack has moved and taken one element more. -/
def World.pushedFull (w : World sizeofT) (hhdmBase pa : U64) (value : Bytes sizeofT) :
    World sizeofT where
  st := extended (relocated hhdmBase sizeofT w.st pa)
  heap := stored (relocated hhdmBase sizeofT w.st pa)
    (relocatedHeap hhdmBase sizeofT w.st w.heap pa) value
  values := w.values ++ [value]

theorem Run.push_full (hpos : 0 < sizeofT) (hsize : sizeofT ≤ 4096)
    (h : Run hhdmBase answers sizeofT w) (hfull : w.st.size = w.st.capacity) {pa : U64}
    (hfresh : Fresh hhdmBase answers w.heap pa (w.st.newSize sizeofT)) (value : Bytes sizeofT) :
    Run hhdmBase answers sizeofT (w.pushedFull hhdmBase pa value) := by
  obtain ⟨bytes, hinv⟩ := Run.inv hpos hsize h
  obtain ⟨hgrow, hgrew⟩ := hinv.grow_full hpos hsize hfull hfresh
  have hcall := emplaceBack_of_grow hgrow (hgrew.buffer_ne_zero hpos) fun _ => value
  rw [← pushBack_eq_emplaceBack] at hcall
  exact h.next trivial (Step.pushBack (fun _ => ⟨pa, hfresh⟩) hcall)

/-- A page for the first buffer and room elsewhere for the second. -/
def twoBuffers : Answers := fun n => .granted (if n = 0 then 0x80000000 else 0x80010000)

/-- Objects of a page each: the second one does not fit any more, and the first moves. -/
theorem stack_keeps_pages : ∃ w : World 4096, Run 0xffffffc000000000 twoBuffers 4096 w ∧
    w.heap.allocs = 2 ∧ w.values = [fun _ => 7, fun _ => 9] ∧
    Keeps 0xffffffc000000000 twoBuffers 4096 w := by
  let w₀ : World 4096 := ⟨{}, { mem := fun _ => 0 }, []⟩
  have hfresh : Fresh 0xffffffc000000000 twoBuffers w₀.heap 0x80000000 (w₀.st.newSize 4096) :=
    ⟨rfl, by decide, by decide, List.forall_mem_nil _, by decide⟩
  have hone := Run.push_full (by decide) (by decide) (.start ⟨fun _ => 0, rfl⟩ : Run _ _ 4096 w₀)
    rfl hfresh fun _ => 7
  have hfresh₁ : Fresh 0xffffffc000000000 twoBuffers
      (w₀.pushedFull 0xffffffc000000000 0x80000000 fun _ => 7).heap 0x80010000
      (newSize 4096 (w₀.pushedFull 0xffffffc000000000 0x80000000 fun _ => 7).st) := by
    refine ⟨rfl, by decide, by decide, fun r hr => ?_, by decide⟩
    obtain rfl := List.mem_singleton.mp hr
    exact apart_of_le (by decide) (by decide) (by decide)
  have htwo := hone.push_full (by decide) (by decide) (by decide) hfresh₁ fun _ => 9
  exact ⟨_, htwo, rfl, rfl, stack_keeps (by decide) (by decide) htwo⟩

end Run

end Octiron.RawStack
