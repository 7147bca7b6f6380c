import Octiron.Allocators.ArenaRuns

/-! When the calls of the allocators return: the manager answers all of them as long as
everybody allocates whole pages, so that only an allocator without a region can be stuck. -/
namespace Octiron.Bump.Arenas

open Lib Lib.Word Lib.ByteMemory Lib.Span Exec Pmm

section Parts

variable {hhdmBase blockBuf : U64} {top : Nat} {w w' : Machine} {a a' : Arena}
  {ranges blocks : List Span} {lost chain : List U64} {st : State} {err : Error} {s : Span}
  {size alignment pa p : U64} {k : Nat}

/-- The manager answers with a page in the direct map, or with null. -/
theorem Placed.exists_alloc (h : Placed blockBuf top w.world) (hserving : Serving blockBuf w.world)
    (size : U64) : ∃ err pa w', w.alloc size = .ok (err, pa, w') ∧ pa.toNat ≤ top := by
  obtain ⟨err, ret, world, halloc, -⟩ := hserving.exists_reply size
  refine ⟨err, ret.getD 0, { w with world := world }, by rw [Machine.alloc, halloc]; rfl, ?_⟩
  obtain ⟨-, rfl, -⟩ | ⟨page, -, rfl, htaken⟩ := h.managed.alloc_cases halloc
  · exact Nat.zero_le top
  · have hhigh := ((h.taken htaken).grant (htaken.grants ▸ List.mem_cons_self)).2
    dsimp only at hhigh
    exact (Nat.le_add_right _ _).trans hhigh

theorem alloc_serving (hserving : Serving blockBuf w.world)
    (hcall : w.alloc size = .ok (err, pa, w')) : Serving blockBuf w'.world := by
  obtain ⟨err', ret, world, halloc, hserving'⟩ := hserving.exists_reply size
  rw [Machine.alloc, halloc] at hcall
  obtain ⟨-, hpair⟩ := ok_pair_inj hcall
  obtain ⟨-, rfl⟩ := Prod.mk.inj hpair
  exact hserving'

/-- A page is refused exactly when nothing is free. -/
theorem alloc_refused_iff (hserving : Serving blockBuf w.world)
    (hcall : w.alloc pageSize = .ok (err, pa, w')) :
    err.isErr = true ↔ (freeMemory w.world.st).toNat = 0 := by
  obtain ⟨err', ret, world, halloc, -, -, hfree⟩ := hserving.exists_alloc
  rw [Machine.alloc, halloc] at hcall
  obtain ⟨rfl, -⟩ := ok_pair_inj hcall
  exact hfree

theorem region_ne_zero (hwindow : Window hhdmBase top) (hbase : hhdmBase ≠ 0)
    (hpa : pa.toNat ≤ top) : hhdmPhysToVirt hhdmBase pa ≠ 0 := by
  have hhigh := hwindow.high
  have hpos : hhdmBase.toNat ≠ 0 := fun hzero => hbase (BitVec.eq_of_toNat_eq hzero)
  apply ne_zero_of_toNat_pos
  rw [hhdmPhysToVirt, BitVec.toNat_add]
  omega

theorem assertErr_world (w : Machine) (err : Error) : (w.assertErr err).world = w.world := by
  rw [Machine.assertErr]
  split <;> rfl

/-- The header of a region is written in the region. -/
theorem serving_opened {world : Pmm.World} (h : Serving blockBuf world)
    (hwindow : Window hhdmBase top) (hplaced : Placed blockBuf top world) {n : Nat}
    (hg : ⟨pa.toNat, n⟩ ∈ world.grants) (hlong : 4096 ≤ n) :
    Serving blockBuf
      (world.withMem (openRegion hhdmBase world.st.mem (hhdmPhysToVirt hhdmBase pa) size)) := by
  have hhigh := (hplaced.grant hg).2
  have htop := hwindow.high
  dsimp only at hhigh
  refine h.withMem hplaced.managed hg fun x hx => ?_
  rw [← regionOf_page hhdmBase pa n]
  exact openRegion_frame (by dsimp only; omega) fun hin => hx (header_inside hlong hin)

theorem exists_grow (hplaced : Placed blockBuf top w.world) (hserving : Serving blockBuf w.world)
    (hwindow : Window hhdmBase top) (hbase : hhdmBase ≠ 0) (a : Arena) :
    ∃ err a' w', grow hhdmBase a w = .ok (err, a', w') ∧
      (err.isErr = true ↔ (freeMemory w.world.st).toNat = 0) ∧
      (a'.currentRegion = 0 ↔ a.currentRegion = 0 ∧ (freeMemory w.world.st).toNat = 0) := by
  obtain ⟨err, pa, w₁, halloc, hpa⟩ := hplaced.exists_alloc hserving pageSize
  have hrefused := alloc_refused_iff hserving halloc
  by_cases herr : err.isErr = true
  · refine ⟨err, a, w₁, ?_, hrefused, (and_iff_left (hrefused.mp herr)).symm⟩
    rw [grow, halloc, ok_bind]
    exact if_pos herr
  · have hregion := region_ne_zero hwindow hbase hpa
    refine ⟨err, ⟨hhdmPhysToVirt hhdmBase pa, hhdmPhysToVirt hhdmBase pa⟩, w₁.withMem
      (openRegion hhdmBase w₁.mem (hhdmPhysToVirt hhdmBase pa) pageSize), ?_, hrefused,
      iff_of_false hregion fun hboth => herr (hrefused.mpr hboth.2)⟩
    rw [grow, halloc, ok_bind]
    exact if_neg herr

/-- There is a region afterwards, unless there was none and nothing is free. -/
theorem Ready.exists_ensureRegion
    (h : Ready hhdmBase blockBuf top w.world a ranges blocks lost chain st)
    (hserving : Serving blockBuf w.world) (hwindow : Window hhdmBase top) (hbase : hhdmBase ≠ 0) :
    ∃ a' w', ensureRegion hhdmBase a w = .ok (a', w') ∧
      (a'.currentRegion = 0 ↔ a.currentRegion = 0 ∧ (freeMemory w.world.st).toNat = 0) := by
  by_cases hempty : a.currentRegion = 0
  · obtain ⟨err, a', w', hgrow, -, hstuck⟩ := exists_grow h.placed hserving hwindow hbase a
    refine ⟨a', w'.assertErr err, ?_, hstuck⟩
    rw [ensureRegion, if_pos (.inl hempty), hgrow]
    rfl
  · obtain ⟨s, hcurrent⟩ := h.inv.current fun hzero => hempty (h.current.symm.trans hzero)
    have hlist : a.regionList ≠ 0 := h.list ▸ hcurrent.list
    exact ⟨a, w, if_neg (not_or.mpr ⟨hempty, hlist⟩),
      iff_of_false hempty fun hboth => hempty hboth.1⟩

theorem exists_ensureRoom (hplaced : Placed blockBuf top w.world)
    (hserving : Serving blockBuf w.world) (hwindow : Window hhdmBase top) (hbase : hhdmBase ≠ 0)
    (hne : a.currentRegion ≠ 0) (reach : U64) :
    ∃ a' w', ensureRoom hhdmBase a w reach = .ok (a', w') ∧ a'.currentRegion ≠ 0 := by
  by_cases hroom : (headerAt hhdmBase w.mem a.currentRegion).end_ < reach
  · set size := regionSize (reach - (headerAt hhdmBase w.mem a.currentRegion).end_) with hsize
    obtain ⟨err, pa, w₁, halloc, hpa⟩ := hplaced.exists_alloc hserving size
    set region := hhdmPhysToVirt hhdmBase pa
    refine ⟨{ a with currentRegion := region }, (w₁.assertErr err).withMem (openRegion hhdmBase
      (setField hhdmBase (w₁.assertErr err).mem a.currentRegion 16 region) region size), ?_,
      region_ne_zero hwindow hbase hpa⟩
    rw [ensureRoom]
    dsimp only
    rw [if_pos hroom, ← hsize, halloc]
    rfl
  · exact ⟨a, w, if_neg hroom, hne⟩

/-- What `grow` writes lies in the page it has been granted. -/
theorem Ready.grow_serving
    (h : Ready hhdmBase blockBuf top w.world a ranges blocks lost chain st)
    (hserving : Serving blockBuf w.world) (hwindow : Window hhdmBase top)
    (hcall : Arenas.grow hhdmBase a w = .ok (err, a', w')) : Serving blockBuf w'.world := by
  obtain ⟨⟨err₀, pa, w₁⟩, halloc, hrest⟩ := bind_eq_ok.mp hcall
  have hserving₁ := alloc_serving hserving halloc
  dsimp only at hrest
  obtain ⟨herr, rfl⟩ | ⟨rfl, htaken⟩ := h.placed.alloc_cases (by decide) (by decide) halloc
  · rw [if_pos herr] at hrest
    obtain ⟨-, hpair⟩ := Prod.mk.inj (pure_eq_ok.mp hrest)
    obtain ⟨-, rfl⟩ := Prod.mk.inj hpair
    exact hserving
  rw [if_neg (by decide)] at hrest
  obtain ⟨-, hpair⟩ := Prod.mk.inj (pure_eq_ok.mp hrest)
  obtain ⟨-, rfl⟩ := Prod.mk.inj hpair
  exact serving_opened hserving₁ hwindow (h.placed.taken htaken) (htaken.grants ▸ List.mem_cons_self)
    (by decide)

theorem Ready.ensureRegion_serving
    (h : Ready hhdmBase blockBuf top w.world a ranges blocks lost chain st)
    (hserving : Serving blockBuf w.world) (hwindow : Window hhdmBase top)
    (hcall : ensureRegion hhdmBase a w = .ok (a', w')) : Serving blockBuf w'.world := by
  rw [ensureRegion] at hcall
  split at hcall
  · obtain ⟨⟨err, a₁, w₁⟩, hgrow, hrest⟩ := bind_eq_ok.mp hcall
    obtain ⟨-, rfl⟩ := Prod.mk.inj (pure_eq_ok.mp hrest)
    rw [assertErr_world]
    exact h.grow_serving hserving hwindow hgrow
  · obtain ⟨-, rfl⟩ := ok_pair_inj hcall
    exact hserving

/-- The link and the new header lie in the old and in the new region. -/
theorem Ready.ensureRoom_serving
    (h : Ready hhdmBase blockBuf top w.world a ranges blocks lost chain st)
    (hserving : Serving blockBuf w.world) (hwindow : Window hhdmBase top)
    (hcurrent : Current ⟨st, blocks⟩ s) (hk : k ≤ 12) (halign : alignment.toNat = 2 ^ k)
    (hsize : size.toNat < 2 ^ 48)
    (hreach : (alignUp st.current.curr alignment).toNat + size.toNat < 2 ^ 64)
    (hcall : ensureRoom hhdmBase a w (alignUp st.current.curr alignment + size) = .ok (a', w'))
    (hprinted : w'.printed = []) : Serving blockBuf w'.world := by
  obtain ⟨g₀, hg₀, -, hregion₀, hheader⟩ := h.exists_current hwindow hcurrent
  rw [ensureRoom] at hcall
  dsimp only at hcall
  rw [Machine.mem, hheader] at hcall
  by_cases hroom : st.current.end_ < alignUp st.current.curr alignment + size
  · rw [if_pos hroom] at hcall
    obtain ⟨⟨err, pa, w₁⟩, halloc, hrest⟩ := bind_eq_ok.mp hcall
    obtain ⟨-, rfl⟩ := Prod.mk.inj (pure_eq_ok.mp hrest)
    have hserving₁ := alloc_serving hserving halloc
    have hsmall := h.difference_le hwindow hcurrent hk halign hsize hreach hroom
    set difference := alignUp st.current.curr alignment + size - st.current.end_
    have hregionSize := @regionSize_toNat difference (by omega)
    obtain ⟨herr, rfl⟩ | ⟨rfl, htaken⟩ := h.placed.alloc_cases (by omega) (by omega) halloc
    · rw [Machine.assertErr, if_pos herr] at hprinted
      exact absurd hprinted (List.append_ne_nil_of_right_ne_nil _ (List.cons_ne_nil _ _))
    have hsame : w₁.assertErr (.ofCode .success) = w₁ := if_neg (by decide)
    rw [hsame, hregion₀]
    have htracks := h.toTracks.taken hwindow htaken
    have hframe : ∀ x : U64, x.toNat ∉ g₀ → setField hhdmBase w₁.mem (regionOf hhdmBase g₀) 16
        (hhdmPhysToVirt hhdmBase pa) x = w₁.mem x :=
      fun x hx => setField_frame (h.room hwindow hg₀).1 (by decide) fun hin =>
        hx (header_inside (h.long g₀ hg₀) hin)
    have hlinked := hserving₁.withMem htracks.placed.managed (htracks.granted g₀ hg₀) hframe
    have hplaced := htracks.placed.withMem (htracks.granted g₀ hg₀) hframe
    have hgrant : (⟨pa.toNat, (regionSize difference).toNat⟩ : Span) ∈ w₁.world.grants :=
      htaken.grants ▸ List.mem_cons_self
    exact serving_opened hlinked hwindow hplaced hgrant (by omega)
  · rw [if_neg hroom] at hcall
    obtain ⟨-, rfl⟩ := ok_pair_inj hcall
    exact hserving

theorem Ready.allocAligned_serving
    (h : Ready hhdmBase blockBuf top w.world a ranges blocks lost chain st)
    (hserving : Serving blockBuf w.world) (hwindow : Window hhdmBase top)
    (hargs : RequestOk hhdmBase top (.allocAligned size alignment))
    (hfits : FitsAt (cursor hhdmBase a w.mem).1 (cursor hhdmBase a w.mem).2 size alignment)
    (hcall : Arenas.allocAligned hhdmBase a w size alignment = .ok (p, a', w'))
    (hprinted : w'.printed = []) : Serving blockBuf w'.world := by
  obtain ⟨k, hk, halign⟩ : ∃ k ≤ 12, alignment.toNat = 2 ^ k := hargs.alignment
  have hpos : 0 < size.toNat := hargs.size_pos
  have hsize₀ : size ≠ 0 := ne_zero_of_toNat_pos hpos
  have halign₀ : alignment ≠ 0 := ne_zero_of_toNat_pos (halign ▸ Nat.two_pow_pos k)
  obtain ⟨a₁, w₁, w₂, hregion, hne₁, hroom, -, rfl⟩ :=
    allocAligned_parts (not_or.mpr ⟨hsize₀, halign₀⟩) hcall
  have hserving₁ := h.ensureRegion_serving hserving hwindow hregion
  obtain ⟨new₁, st₁, -, h₁, hfits₁⟩ := h.ensureRegion_cases hwindow hregion hne₁
  obtain ⟨s₁, hcurrent₁⟩ := h₁.inv.current fun hzero => hne₁ (h₁.current.symm.trans hzero)
  obtain ⟨g₁, -, -, -, hheader₁⟩ := h₁.exists_current hwindow hcurrent₁
  rw [Machine.mem, hheader₁] at hroom
  have hfit := hfits₁ size alignment k hk halign hargs.high hfits
  have hserving₂ := h₁.ensureRoom_serving hserving₁ hwindow hcurrent₁ hk halign hargs.size_lt
    hfit.1 hroom hprinted
  obtain ⟨new₂, st₂, s₂, -, h₂, hcurrent₂, -⟩ := h₁.ensureRoom_cases hwindow hcurrent₁ hk halign
    hpos hargs.size_lt hfit hroom hprinted
  obtain ⟨g₂, hg₂, -, hregion₂, -⟩ := h₂.exists_current hwindow hcurrent₂
  refine hserving₂.withMem h₂.placed.managed (h₂.granted g₂ hg₂) fun x hx => ?_
  rw [hregion₂]
  exact setField_frame (h₂.room hwindow hg₂).1 (by decide) fun hin =>
    hx (header_inside (h₂.long g₂ hg₂) hin)

theorem Ready.call_serving {c : Call}
    (h : Ready hhdmBase blockBuf top w.world a ranges blocks lost chain st)
    (hserving : Serving blockBuf w.world) (hwindow : Window hhdmBase top)
    (hargs : RequestOk hhdmBase top c) (hfits : Fits hhdmBase a w.mem c)
    (hcall : Arenas.call hhdmBase a w c = .ok (p, a', w')) (hprinted : w'.printed = []) :
    Serving blockBuf w'.world := by
  cases c with
  | allocAligned size alignment =>
    exact h.allocAligned_serving hserving hwindow hargs hfits hcall hprinted
  | alloc size =>
    by_cases hempty : a.currentRegion = 0
    · rw [Arenas.call, alloc, if_pos (.inl hempty)] at hcall
      obtain ⟨-, hrest⟩ := ok_pair_inj hcall
      obtain ⟨-, rfl⟩ := Prod.mk.inj hrest
      exact hserving
    · rw [Arenas.call, alloc_eq_allocAligned hempty] at hcall
      exact h.allocAligned_serving hserving hwindow
        ⟨⟨hargs.size_pos, hargs.size_lt, hargs.alignment⟩, hargs.high⟩ (hfits.resolve_left hempty)
        hcall hprinted

/-- Only an allocator that has no region and gets none is stuck, at its null pointer. -/
theorem Ready.allocAligned_returns_iff
    (h : Ready hhdmBase blockBuf top w.world a ranges blocks lost chain st)
    (hserving : Serving blockBuf w.world) (hwindow : Window hhdmBase top) (hbase : hhdmBase ≠ 0)
    (size alignment : U64) :
    (∃ reply, Arenas.allocAligned hhdmBase a w size alignment = .ok reply) ↔
      size = 0 ∨ alignment = 0 ∨
        ¬ (a.currentRegion = 0 ∧ (freeMemory w.world.st).toNat = 0) := by
  rw [← or_assoc, Arenas.allocAligned]
  by_cases hargs : size = 0 ∨ alignment = 0
  · rw [if_pos hargs]
    exact iff_of_true ⟨_, rfl⟩ (.inl hargs)
  obtain ⟨a₁, w₁, hregion, hstuck⟩ := h.exists_ensureRegion hserving hwindow hbase
  rw [if_neg hargs, hregion, ok_bind, or_iff_right hargs, ← hstuck]
  dsimp only
  constructor
  · rintro ⟨reply, hcall⟩
    obtain ⟨_, hne, -⟩ := bind_eq_ok.mp hcall
    exact deref_eq_ok.mp hne
  · intro hne
    have hserving₁ := h.ensureRegion_serving hserving hwindow hregion
    obtain ⟨_, _, -, h₁, -⟩ := h.ensureRegion_cases hwindow hregion hne
    obtain ⟨a₂, w₂, hroom, hne₂⟩ := exists_ensureRoom h₁.placed hserving₁ hwindow hbase hne
      (alignUp (headerAt hhdmBase w₁.mem a₁.currentRegion).curr alignment + size)
    rw [deref_of_ne hne, ok_bind, hroom, ok_bind]
    dsimp only
    rw [deref_of_ne hne₂, ok_bind]
    exact ⟨_, rfl⟩

end Parts

/-- A request for aligned memory on an allocator without a region, while nothing is free. -/
def Stuck (a : Arena) (w : Pmm.World) : Call → Prop
  | .alloc _ => False
  | .allocAligned size alignment => size ≠ 0 ∧ alignment ≠ 0 ∧ a.currentRegion = 0 ∧
      (freeMemory w.st).toNat = 0

section System

variable {ι : Type} [DecidableEq ι] {hhdmBase blockBuf : U64} {top : Nat} {sys sys' : System ι}

theorem SystemInv.serving_step (h : SystemInv hhdmBase blockBuf top sys)
    (hserving : Serving blockBuf sys.machine.world) (hwindow : Window hhdmBase top)
    {event : Event ι} (hfits : FitsEvent hhdmBase sys event) (hpage : PageEvent event)
    (hstep : Step hhdmBase blockBuf top sys event sys') (hprinted : sys'.machine.printed = []) :
    Serving blockBuf sys'.machine.world := by
  cases hstep with
  | manage hoffers _ hcall => exact hserving.call hoffers hpage hcall
  | store hg _ hframe => exact hserving.withMem h.placed.managed hg hframe
  | @grow i err a' w' hcall =>
    obtain ⟨_, _, hready⟩ := (h.holds i).ready
    exact hready.grow_serving hserving hwindow hcall
  | @request i c p a' w' hargs hcall =>
    obtain ⟨_, _, hready⟩ := (h.holds i).ready
    exact hready.call_serving hserving hwindow hargs hfits hcall hprinted
  | @write i k b bytes m' hk _ _ hframe =>
    obtain ⟨_, _, hready⟩ := (h.holds i).ready
    obtain ⟨g, hg, -, hin, -⟩ :=
      hready.exists_range (List.mem_map_of_mem (List.mem_of_getElem? hk))
    exact hserving.withMem h.placed.managed (hready.granted g hg) fun x hx =>
      hframe x fun hxb => hx (hin.mem hxb)
  | destroy _ => exact hserving

theorem PageRun.serving (h : PageRun hhdmBase blockBuf top sys) (hwindow : Window hhdmBase top)
    (hprinted : sys.machine.printed = []) : Serving blockBuf sys.machine.world := by
  refine Runs.RunWhere.induction (Q := fun sys : System ι => sys.machine.printed = [] →
    Serving blockBuf sys.machine.world) ?_ ?_ h hprinted
  · rintro sys ⟨⟨hobject, -, -, mem, hinit⟩, -, -⟩ -
    exact ⟨_, _, refines_init hobject hinit⟩
  · intro sys event sys' hrun ih hevent hstep hprinted
    have hbefore : sys.machine.printed = [] := List.prefix_nil.mp (hprinted ▸ hstep.printed)
    exact ((PageRun.run hrun).inv hwindow hbefore).serving_step (ih hbefore) hwindow hevent.1
      hevent.2 hstep hprinted

/-- As long as everybody allocates whole pages and no error has been printed, `grow` returns,
with an error exactly when nothing is free, and so does every request but for one on an
allocator that has no region and cannot get one. -/
theorem requests_return_iff (hwindow : Window hhdmBase top) (hbase : hhdmBase ≠ 0)
    (hrun : PageRun hhdmBase blockBuf top sys) (hprinted : sys.machine.printed = []) (i : ι) :
    (∃ err a' w', grow hhdmBase (sys.heaps i).arena sys.machine = .ok (err, a', w') ∧
        (err.isErr = true ↔ (freeMemory sys.machine.world.st).toNat = 0)) ∧
      ∀ c, (∃ reply, call hhdmBase (sys.heaps i).arena sys.machine c = .ok reply) ↔
        ¬ Stuck (sys.heaps i).arena sys.machine.world c := by
  have hserving := hrun.serving hwindow hprinted
  obtain ⟨_, _, hready⟩ := ((hrun.run.inv hwindow hprinted).holds i).ready
  constructor
  · obtain ⟨err, a', w', hgrow, hrefused, -⟩ :=
      exists_grow hready.placed hserving hwindow hbase (sys.heaps i).arena
    exact ⟨err, a', w', hgrow, hrefused⟩
  intro c
  cases c with
  | alloc size =>
    refine iff_of_true ?_ not_false
    by_cases hempty : (sys.heaps i).arena.currentRegion = 0
    · exact ⟨_, if_pos (.inl hempty)⟩
    · rw [call, alloc_eq_allocAligned hempty]
      exact (hready.allocAligned_returns_iff hserving hwindow hbase size 1).mpr
        (.inr (.inr fun hboth => hempty hboth.1))
  | allocAligned size alignment =>
    refine (hready.allocAligned_returns_iff hserving hwindow hbase size alignment).trans ?_
    rw [Stuck]
    tauto

/-- Before the manager has any memory a request is stuck, and with a region it is not. -/
theorem requests_return_iff_twoHeaps : ∃ sys sys' : System Bool,
    PageRun 0xffffffc000000000 0xffffffff80100000 0x8000 sys ∧
    PageRun 0xffffffc000000000 0xffffffff80100000 0x8000 sys' ∧
    (¬ ∃ reply, call 0xffffffc000000000 (sys.heaps true).arena sys.machine
      (.allocAligned 16 8) = .ok reply) ∧
    ∃ reply, call 0xffffffc000000000 (sys'.heaps true).arena sys'.machine
      (.allocAligned 16 8) = .ok reply := by
  obtain ⟨st, hinit⟩ := exists_initialize
  have hstart : PageRun 0xffffffc000000000 0xffffffff80100000 0x8000
      (⟨⟨⟨st, [], []⟩, []⟩, fun _ => {}⟩ : System Bool) :=
    .start ⟨⟨by decide, rfl, rfl, _, hinit⟩, rfl, rfl⟩
  obtain ⟨sys, hrun, hprinted, hregion, -⟩ := exists_run_twoHeaps
  refine ⟨_, sys, hstart, hrun, fun hreturns => ?_, ?_⟩
  · refine ((requests_return_iff ⟨by decide, by decide⟩ (by decide) hstart rfl true).2 _).mp hreturns ?_
    exact ⟨by decide, by decide, rfl, (refines_init (by decide) hinit).free⟩
  · refine ((requests_return_iff ⟨by decide, by decide⟩ (by decide) hrun hprinted true).2 _).mpr ?_
    rintro ⟨-, -, hempty, -⟩
    rw [hregion] at hempty
    exact absurd hempty (by decide)

end System

end Octiron.Bump.Arenas
