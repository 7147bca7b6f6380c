import Octiron.Allocators.Bump
import Octiron.Lib.ByteMemory
import Octiron.Lib.Lockstep

/-! The bump allocator in memory.  The headers of its regions are words in front of the
blocks that it hands out, and whatever is stored there is what the next request finds; the
manager has zeroed the pages that it grants. -/
namespace Octiron.Bump.InMemory

open Lib Lib.Word Lib.ByteMemory Lib.Lockstep Exec Pmm

/-- Memory, the object's two pointers, and how often `pmm::alloc` was called so far. -/
structure Heap where
  mem : Mem
  regionList : U64 := 0
  currentRegion : U64 := 0
  allocs : Nat := 0

/-- `bump_alloc::region`: three words. -/
def headerAt (m : Mem) (region : U64) : Region :=
  ⟨load64 m region, load64 m (region + 8), load64 m (region + 16)⟩

def openRegion (m : Mem) (region size : U64) : Mem :=
  let m := store64 m region (region + size)
  let m := store64 m (region + 8) (region + sizeofRegion)
  store64 m (region + 16) 0

section Functions

variable (hhdmBase : U64) (answers : Answers)

def pmmAlloc (h : Heap) (size : U64) : Error × U64 × Heap :=
  match answers h.allocs with
  | .failed err _ => (err, 0, { h with allocs := h.allocs + 1 })
  | .granted pa => (.ofCode .success, pa, { h with
      allocs := h.allocs + 1
      mem := setRange h.mem (hhdmPhysToVirt hhdmBase pa) size.toNat 0 })

def grow (h : Heap) : Error × Heap :=
  let (err, pa, h) := pmmAlloc hhdmBase answers h pageSize
  if err.isErr then (err, h)
  else
    let region := hhdmPhysToVirt hhdmBase pa
    (err, { h with
      mem := openRegion h.mem region pageSize
      regionList := region
      currentRegion := region })

def ensureRegion (h : Heap) : Heap :=
  if h.currentRegion = 0 ∨ h.regionList = 0 then (grow hhdmBase answers h).2 else h

def ensureRoom (h : Heap) (reach : U64) : Heap :=
  let current := headerAt h.mem h.currentRegion
  if current.end_ < reach then
    let regionSize := alignUp (reach - current.end_) pageSize + pageSize
    let (_, pa, h) := pmmAlloc hhdmBase answers h regionSize
    let region := hhdmPhysToVirt hhdmBase pa
    let m := store64 h.mem (h.currentRegion + 16) region
    { h with mem := openRegion m region regionSize, currentRegion := region }
  else h

def bump (h : Heap) (allocation size : U64) : U64 × Heap :=
  (allocation, { h with mem := store64 h.mem (h.currentRegion + 8) (allocation + size) })

def allocAligned (h : Heap) (size alignment : U64) : Exec (U64 × Heap) :=
  if size = 0 ∨ alignment = 0 then .ok (0, h)
  else do
    let h := ensureRegion hhdmBase answers h
    deref h.currentRegion
    let h := ensureRoom hhdmBase answers h
      (alignUp (headerAt h.mem h.currentRegion).curr alignment + size)
    deref h.currentRegion
    return bump h (alignUp (headerAt h.mem h.currentRegion).curr alignment) size

end Functions

/-- The allocator finds in memory what the headers that are kept apart say. -/
structure Represents (h : Heap) (st : State) : Prop where
  regionList : h.regionList = st.regionList
  currentRegion : h.currentRegion = st.currentRegion
  allocs : h.allocs = st.allocs
  header : headerAt h.mem h.currentRegion = st.current

/-- The allocator as it stands in memory, with the headers lifted out. -/
def Heap.state (h : Heap) : State where
  regionList := h.regionList
  currentRegion := h.currentRegion
  headers := headerAt h.mem
  allocs := h.allocs

theorem represents_state (h : Heap) : Represents h h.state := ⟨rfl, rfl, rfl, rfl⟩

/-- The bytes of the ranges that were granted. -/
def Granted (spans : List Span) (x : U64) : Prop :=
  ∃ span ∈ spans, Within x (BitVec.ofNat 64 span.base) span.length

/-- Where a request stores that takes the allocator from one state to another: in the
headers of the two current regions and in the pages that it was granted meanwhile. -/
def Touches (st st' : State) (x : U64) : Prop :=
  Within x st.currentRegion 24 ∨ Within x st'.currentRegion 24 ∨
    Granted (st'.obtained.take (st'.obtained.length - st.obtained.length)) x

section Headers

variable {m m' : Mem} {region size v : U64}

theorem headerAt_congr (h : ∀ x, Within x region 24 → m' x = m x) :
    headerAt m' region = headerAt m region := by
  have hword : ∀ offset : Nat, offset + 8 ≤ 24 →
      load64 m' (region + BitVec.ofNat 64 offset) = load64 m (region + BitVec.ofNat 64 offset) :=
    fun offset hoffset => load64_congr fun x hx => h x (within_of_offset hoffset (by decide) hx)
  have hend := hword 0 (by decide)
  rw [BitVec.add_zero] at hend
  rw [headerAt, headerAt, hend]
  exact congrArg₂ (Region.mk _) (hword 8 (by decide)) (hword 16 (by decide))

/-- The word at an offset is not the one at another. -/
theorem load64_store64_offset {i j : Nat} (hi : i + 8 ≤ 24) (hj : j + 8 ≤ 24)
    (h : i + 8 ≤ j ∨ j + 8 ≤ i) :
    load64 (store64 m (region + BitVec.ofNat 64 j) v) (region + BitVec.ofNat 64 i) =
      load64 m (region + BitVec.ofNat 64 i) :=
  load64_store64_apart (apart_offsets region (by omega) (by omega) h)

theorem headerAt_eq (m : Mem) (region : U64) : headerAt m region =
    ⟨load64 m (region + BitVec.ofNat 64 0), load64 m (region + BitVec.ofNat 64 8),
      load64 m (region + BitVec.ofNat 64 16)⟩ := by
  rw [BitVec.add_zero]
  rfl

theorem headerAt_openRegion : headerAt (openRegion m region size) region =
    ⟨region + size, region + sizeofRegion, 0⟩ := by
  have hopen : openRegion m region size =
      store64 (store64 (store64 m (region + BitVec.ofNat 64 0) (region + size))
        (region + BitVec.ofNat 64 8) (region + sizeofRegion)) (region + BitVec.ofNat 64 16) 0 := by
    rw [BitVec.add_zero]
    rfl
  rw [headerAt_eq, hopen, load64_store64_offset (by decide) (by decide) (.inl (by decide)),
    load64_store64_offset (by decide) (by decide) (.inl (by decide)), load64_store64_same,
    load64_store64_offset (by decide) (by decide) (.inl (by decide)), load64_store64_same,
    load64_store64_same]

theorem headerAt_setCurr : headerAt (store64 m (region + 8) v) region =
    { headerAt m region with curr := v } := by
  have hword : region + 8 = region + BitVec.ofNat 64 8 := rfl
  rw [headerAt_eq, headerAt_eq, hword,
    load64_store64_offset (by decide) (by decide) (.inl (by decide)), load64_store64_same,
    load64_store64_offset (by decide) (by decide) (.inr (by decide))]

theorem changesOnly_word {offset : Nat} (h : offset + 8 ≤ 24) :
    ChangesOnly (Within · region 24) m (store64 m (region + BitVec.ofNat 64 offset) v) :=
  (changesOnly_store64 m _ v).mono fun _ => within_of_offset h (by decide)

theorem changesOnly_openRegion : ChangesOnly (Within · region 24) m (openRegion m region size) := by
  have hfirst := @changesOnly_word m region (region + size) 0 (by decide)
  rw [BitVec.add_zero] at hfirst
  exact (hfirst.trans (@changesOnly_word _ region _ 8 (by decide))).trans
    (@changesOnly_word _ region _ 16 (by decide))

end Headers

section Requests

variable {hhdmBase : U64} {answers : Answers} {h : Heap} {st : State}

theorem Granted.mono {spans spans' : List Span} {x : U64} (h : Granted spans x)
    (hsub : spans ⊆ spans') : Granted spans' x := by
  obtain ⟨span, hspan, hx⟩ := h
  exact ⟨span, hsub hspan, hx⟩

/-- The manager answers alike, and zeroes what it grants. -/
theorem pmmAlloc_lockstep (hrep : Represents h st) (size : U64) :
    ∃ err pa new mem,
      Bump.pmmAlloc hhdmBase answers st size =
        (err, pa, { st with allocs := st.allocs + 1, obtained := new ++ st.obtained }) ∧
      pmmAlloc hhdmBase answers h size =
        (err, pa, { h with allocs := h.allocs + 1, mem := mem }) ∧
      ChangesOnly (Granted new) h.mem mem ∧ (err.isErr = true → mem = h.mem) ∧
      (err.isErr = false → ∀ x, Within x (hhdmPhysToVirt hhdmBase pa) size.toNat → Granted new x) := by
  unfold Bump.pmmAlloc pmmAlloc
  rw [hrep.allocs]
  cases answers st.allocs with
  | failed err herr =>
    refine ⟨err, 0, [], h.mem, rfl, rfl, .refl _ _, fun _ => rfl, fun hok => ?_⟩
    exact absurd (herr.symm.trans hok) (by decide)
  | granted pa =>
    have hcovers : ∀ x, Within x (hhdmPhysToVirt hhdmBase pa) size.toNat →
        Granted [⟨(hhdmPhysToVirt hhdmBase pa).toNat, size.toNat⟩] x := by
      intro x hx
      refine ⟨_, List.mem_singleton_self _, ?_⟩
      rwa [BitVec.ofNat_toNat, BitVec.setWidth_eq]
    refine ⟨_, pa, _, _, rfl, rfl, (changesOnly_setRange _ _ _ _).mono hcovers, fun herr => ?_,
      fun _ => hcovers⟩
    exact absurd herr (by decide)

theorem ensureRegion_lockstep (hrep : Represents h st) : ∃ new,
    (Bump.ensureRegion hhdmBase answers st).obtained = new ++ st.obtained ∧
      Represents (ensureRegion hhdmBase answers h) (Bump.ensureRegion hhdmBase answers st) ∧
      ChangesOnly (Granted new) h.mem (ensureRegion hhdmBase answers h).mem ∧
      ((Bump.ensureRegion hhdmBase answers st).currentRegion = st.currentRegion ∨
        ∀ x, Within x (Bump.ensureRegion hhdmBase answers st).currentRegion 24 → Granted new x) := by
  unfold Bump.ensureRegion ensureRegion
  rw [hrep.currentRegion, hrep.regionList]
  split
  · obtain ⟨err, pa, new, mem, hideal, hheap, hchanges, hfailed, hgranted⟩ :=
      @pmmAlloc_lockstep hhdmBase answers h st hrep pageSize
    unfold Bump.grow grow
    rw [hideal, hheap]
    dsimp only
    cases herr : err.isErr with
    | true =>
      obtain rfl := hfailed herr
      refine ⟨new, rfl, ⟨hrep.regionList, hrep.currentRegion, ?_, hrep.header⟩, hchanges, .inl rfl⟩
      exact congrArg (· + 1) hrep.allocs
    | false =>
      have hheader : ∀ x, Within x (hhdmPhysToVirt hhdmBase pa) 24 → Granted new x := fun x hx =>
        hgranted herr x (Nat.lt_trans hx (by decide))
      refine ⟨new, rfl, ⟨rfl, rfl, congrArg (· + 1) hrep.allocs, ?_⟩,
        hchanges.trans (changesOnly_openRegion.mono hheader), .inr hheader⟩
      refine headerAt_openRegion.trans ?_
      simp [State.current, State.setHeader]
  · exact ⟨[], rfl, hrep, .refl _ _, .inl rfl⟩

theorem ensureRoom_lockstep (hrep : Represents h st) (reach : U64) : ∃ new,
    (Bump.ensureRoom hhdmBase answers st reach).obtained = new ++ st.obtained ∧
      Represents (ensureRoom hhdmBase answers h reach)
        (Bump.ensureRoom hhdmBase answers st reach) ∧
      ChangesOnly (fun x => Within x st.currentRegion 24 ∨
        Within x (Bump.ensureRoom hhdmBase answers st reach).currentRegion 24 ∨ Granted new x)
        h.mem (ensureRoom hhdmBase answers h reach).mem := by
  unfold Bump.ensureRoom ensureRoom
  rw [hrep.header]
  dsimp only
  split
  · obtain ⟨err, pa, new, mem, hideal, hheap, hchanges, -, -⟩ := @pmmAlloc_lockstep hhdmBase answers
      h st hrep (alignUp (reach - st.current.end_) pageSize + pageSize)
    rw [hideal, hheap]
    refine ⟨new, rfl, ⟨hrep.regionList, rfl, congrArg (· + 1) hrep.allocs, ?_⟩, ?_⟩
    · refine headerAt_openRegion.trans ?_
      simp [State.current, State.setHeader]
    · -- the pages are zeroed, the old header gets its link, and the new one is written
      refine ((hchanges.mono fun _ hx => .inr (.inr hx)).trans ?_).trans
        (changesOnly_openRegion.mono fun _ hx => .inr (.inl hx))
      rw [← hrep.currentRegion]
      exact (@changesOnly_word _ h.currentRegion _ 16 (by decide)).mono fun _ hx => .inl hx
  · exact ⟨[], rfl, hrep, .refl _ _⟩

theorem bump_lockstep (hrep : Represents h st) (allocation size : U64) :
    (Bump.bump st allocation size).1 = (bump h allocation size).1 ∧
      Represents (bump h allocation size).2 (Bump.bump st allocation size).2 ∧
      ChangesOnly (Within · st.currentRegion 24) h.mem (bump h allocation size).2.mem := by
  refine ⟨rfl, ⟨hrep.regionList, hrep.currentRegion, hrep.allocs, ?_⟩, ?_⟩
  · refine headerAt_setCurr.trans ?_
    rw [hrep.header]
    simp [Bump.bump, State.current, State.setHeader]
  · rw [← hrep.currentRegion]
    exact @changesOnly_word _ h.currentRegion _ 8 (by decide)

/-- A request in memory is the request with the headers kept apart. -/
theorem allocAligned_lockstep (hrep : Represents h st) (size alignment : U64) :
    Related (fun a b => a.1 = b.1 ∧ Represents b.2 a.2 ∧ ChangesOnly (Touches st a.2) h.mem b.2.mem)
      (Bump.allocAligned hhdmBase answers st size alignment)
      (allocAligned hhdmBase answers h size alignment) := by
  unfold Bump.allocAligned allocAligned
  split
  · exact ⟨rfl, hrep, .refl _ _⟩
  obtain ⟨new₁, hobtained₁, hrep₁, hchanges₁, hcurrent⟩ :=
    @ensureRegion_lockstep hhdmBase answers h st hrep
  generalize Bump.ensureRegion hhdmBase answers st = st₁ at *
  generalize ensureRegion hhdmBase answers h = h₁ at *
  dsimp only
  rw [hrep₁.currentRegion]
  refine (related_self (deref st₁.currentRegion)).bind fun _ _ _ => ?_
  rw [← hrep₁.currentRegion, hrep₁.header]
  obtain ⟨new₂, hobtained₂, hrep₂, hchanges₂⟩ := @ensureRoom_lockstep hhdmBase answers h₁ st₁ hrep₁
    (alignUp st₁.current.curr alignment + size)
  generalize Bump.ensureRoom hhdmBase answers st₁ _ = st₂ at *
  generalize ensureRoom hhdmBase answers h₁ _ = h₂ at *
  rw [hrep₂.currentRegion]
  refine (related_self (deref st₂.currentRegion)).bind fun _ _ _ => ?_
  rw [← hrep₂.currentRegion, hrep₂.header]
  obtain ⟨hsame, hrep₃, hchanges₃⟩ :=
    bump_lockstep hrep₂ (alignUp st₂.current.curr alignment) size
  refine ⟨hsame, hrep₃, ?_⟩
  have hfresh : (Bump.bump st₂ (alignUp st₂.current.curr alignment) size).2.obtained =
      (new₂ ++ new₁) ++ st.obtained := by
    rw [List.append_assoc, ← hobtained₁, ← hobtained₂]
    rfl
  have htake : ∀ x, Granted (new₂ ++ new₁) x →
      Touches st (Bump.bump st₂ (alignUp st₂.current.curr alignment) size).2 x := by
    intro x hx
    refine .inr (.inr ?_)
    rw [hfresh, List.length_append, Nat.add_sub_cancel, List.take_left]
    exact hx
  refine ((hchanges₁.mono fun x hx => htake x ?_).trans (hchanges₂.mono ?_)).trans
    (hchanges₃.mono fun x hx => .inr (.inl hx))
  · exact hx.mono (List.subset_append_right _ _)
  · rintro x (hx | hx | hx)
    · rcases hcurrent with hsame | hnew
      · exact .inl (hsame ▸ hx)
      · exact htake x ((hnew x hx).mono (List.subset_append_right _ _))
    · exact .inr (.inl hx)
    · exact htake x (hx.mono (List.subset_append_left _ _))

/-- What is answered in memory is answered with the headers kept apart, and the other way
round. -/
theorem allocAligned_ok (hrep : Represents h st) {size alignment array : U64} {h' : Heap}
    (halloc : allocAligned hhdmBase answers h size alignment = .ok (array, h')) :
    ∃ st', Bump.allocAligned hhdmBase answers st size alignment = .ok (array, st') ∧
      Represents h' st' := by
  obtain ⟨⟨_, st'⟩, hideal, rfl, hrep', -⟩ := (allocAligned_lockstep hrep size alignment).ok_right
    halloc
  exact ⟨st', hideal, hrep'⟩

theorem allocAligned_of_ok (hrep : Represents h st) {size alignment array : U64} {st' : State}
    (halloc : Bump.allocAligned hhdmBase answers st size alignment = .ok (array, st')) :
    ∃ h', allocAligned hhdmBase answers h size alignment = .ok (array, h') ∧
      Represents h' st' := by
  obtain ⟨⟨_, h'⟩, hheap, rfl, hrep', -⟩ := (allocAligned_lockstep hrep size alignment).ok halloc
  exact ⟨h', hheap, hrep'⟩

end Requests

end Octiron.Bump.InMemory
