import Octiron.Allocators.BumpRegions
import Octiron.Pmm.Managed

/-! The bump allocator over the manager itself.  Its regions and their headers lie in the
memory it is granted, which it reaches through the direct map: the byte at a virtual address
is the physical one `hhdm_base` below it. -/
namespace Octiron.Bump.Arenas

open Lib Lib.Word Lib.ByteMemory Lib.Span Exec Pmm
open Limine (hhdmVirtToPhys)

/-- The two pointers of a `bump_alloc`. -/
structure Arena where
  regionList : U64 := 0
  currentRegion : U64 := 0

/-- The manager in its memory, and the errors `assert_err` has printed. -/
structure Machine where
  world : Pmm.World
  printed : List Error := []

def Machine.mem (w : Machine) : Mem := w.world.st.mem

def Machine.withMem (w : Machine) (mem : Mem) : Machine := { w with world := w.world.withMem mem }

/-- `assert_err`, which goes on after it has printed the error. -/
def Machine.assertErr (w : Machine) (err : Error) : Machine :=
  if err.isErr then { w with printed := w.printed ++ [err] } else w

/-- `pmm::alloc(size, &pa)`.  What the local `pa` holds before is overwritten first. -/
def Machine.alloc (w : Machine) (size : U64) : Exec (Error × U64 × Machine) := do
  let (err, pa, world) ← w.world.alloc size (some 0)
  return (err, pa.getD 0, { w with world := world })

section Functions

variable (hhdmBase : U64)

def field (m : Mem) (region offset : U64) : U64 := load64 m (hhdmVirtToPhys hhdmBase region + offset)

def setField (m : Mem) (region offset v : U64) : Mem :=
  store64 m (hhdmVirtToPhys hhdmBase region + offset) v

/-- `bump_alloc::region`: three words. -/
def headerAt (m : Mem) (region : U64) : Region :=
  ⟨field hhdmBase m region 0, field hhdmBase m region 8, field hhdmBase m region 16⟩

def openRegion (m : Mem) (region size : U64) : Mem :=
  let m := setField hhdmBase m region 0 (region + size)
  let m := setField hhdmBase m region 8 (region + sizeofRegion)
  setField hhdmBase m region 16 0

def grow (a : Arena) (w : Machine) : Exec (Error × Arena × Machine) := do
  let (err, pa, w) ← w.alloc pageSize
  if err.isErr then return (err, a, w)
  else
    let region := hhdmPhysToVirt hhdmBase pa
    return (err, ⟨region, region⟩, w.withMem (openRegion hhdmBase w.mem region pageSize))

def ensureRegion (a : Arena) (w : Machine) : Exec (Arena × Machine) :=
  if a.currentRegion = 0 ∨ a.regionList = 0 then do
    let (err, a, w) ← grow hhdmBase a w
    return (a, w.assertErr err)
  else .ok (a, w)

/-- The block both allocation functions run.  `m_region_list` stays as it is. -/
def ensureRoom (a : Arena) (w : Machine) (reach : U64) : Exec (Arena × Machine) :=
  let current := headerAt hhdmBase w.mem a.currentRegion
  if current.end_ < reach then do
    let (err, pa, w) ← w.alloc (regionSize (reach - current.end_))
    let w := w.assertErr err
    let region := hhdmPhysToVirt hhdmBase pa
    let m := setField hhdmBase w.mem a.currentRegion 16 region
    return ({ a with currentRegion := region },
      w.withMem (openRegion hhdmBase m region (regionSize (reach - current.end_))))
  else .ok (a, w)

def bump (a : Arena) (w : Machine) (allocation size : U64) : U64 × Arena × Machine :=
  (allocation, a, w.withMem (setField hhdmBase w.mem a.currentRegion 8 (allocation + size)))

def alloc (a : Arena) (w : Machine) (size : U64) : Exec (U64 × Arena × Machine) :=
  if a.currentRegion = 0 ∨ size = 0 then .ok (0, a, w)
  else do
    let (a, w) ← ensureRegion hhdmBase a w
    deref a.currentRegion
    let (a, w) ← ensureRoom hhdmBase a w ((headerAt hhdmBase w.mem a.currentRegion).curr + size)
    deref a.currentRegion
    return bump hhdmBase a w (headerAt hhdmBase w.mem a.currentRegion).curr size

def allocAligned (a : Arena) (w : Machine) (size alignment : U64) :
    Exec (U64 × Arena × Machine) :=
  if size = 0 ∨ alignment = 0 then .ok (0, a, w)
  else do
    let (a, w) ← ensureRegion hhdmBase a w
    deref a.currentRegion
    let (a, w) ← ensureRoom hhdmBase a w
      (alignUp (headerAt hhdmBase w.mem a.currentRegion).curr alignment + size)
    deref a.currentRegion
    return bump hhdmBase a w (alignUp (headerAt hhdmBase w.mem a.currentRegion).curr alignment) size

def call (a : Arena) (w : Machine) : Call → Exec (U64 × Arena × Machine)
  | .alloc size => alloc hhdmBase a w size
  | .allocAligned size alignment => allocAligned hhdmBase a w size alignment

/-- `bump_alloc::~bump_alloc`, after at most `fuel` turns of its loop, with the addresses it
passes to `pmm::free`, which leaves memory as it is. -/
def destroy (a : Arena) (w : Machine) (fuel : Nat) : Option (List U64 × Arena) :=
  (LinkedList.walk (fun region => (headerAt hhdmBase w.mem region).next) 0 fuel a.regionList).map
    fun regions => (regions.map (hhdmVirtToPhys hhdmBase), {})

end Functions

/-- The direct map: whole pages, and room for all the memory that is offered, which ends at
`top`, below the end of the address space. -/
structure Window (hhdmBase : U64) (top : Nat) : Prop where
  aligned : 4096 ∣ hhdmBase.toNat
  high : hhdmBase.toNat + top + 4096 < 2 ^ 64

/-- A manager all of whose memory is in the direct map. -/
structure Placed (blockBuf : U64) (top : Nat) (w : Pmm.World) : Prop where
  managed : Managed blockBuf w
  pos : ∀ s ∈ w.offered, 0 < s.base
  high : ∀ s ∈ w.offered, s.base + s.length ≤ top

/-- The header at the front of a range. -/
def header (g : Span) : Span := ⟨g.base, 24⟩

section Map

variable (hhdmBase : U64)

/-- A physical range in the direct map. -/
def lift (g : Span) : Span := ⟨hhdmBase.toNat + g.base, g.length⟩

/-- The region that begins with the range. -/
def regionOf (g : Span) : U64 := hhdmPhysToVirt hhdmBase (BitVec.ofNat 64 g.base)

end Map

section Map

variable {hhdmBase blockBuf : U64} {top : Nat} {w : Pmm.World} {m m' : Mem} {g g' : Span}

theorem Placed.grant (h : Placed blockBuf top w) (hg : g ∈ w.grants) :
    0 < g.base ∧ g.base + g.length ≤ top := by
  obtain ⟨s, hs, hin⟩ := h.managed.exists_offered hg
  exact ⟨(h.pos s hs).trans_le hin.1, hin.2.trans (h.high s hs)⟩

theorem regionOf_toNat (hwindow : Window hhdmBase top) (hg : g.base ≤ top) :
    (regionOf hhdmBase g).toNat = hhdmBase.toNat + g.base := by
  have hhigh := hwindow.high
  rw [regionOf, hhdmPhysToVirt, BitVec.toNat_add, toNat_ofNat_of_lt (by omega)]
  omega

@[simp] theorem hhdmVirtToPhys_regionOf (g : Span) :
    hhdmVirtToPhys hhdmBase (regionOf hhdmBase g) = BitVec.ofNat 64 g.base :=
  Limine.hhdmVirtToPhys_hhdmPhysToVirt hhdmBase _

/-- The word at an offset lies in the header. -/
theorem within_header (hg : g.base + 24 ≤ 2 ^ 64) {offset x : U64} (hoffset : offset.toNat ≤ 16)
    (hx : Within x (hhdmVirtToPhys hhdmBase (regionOf hhdmBase g) + offset) 8) :
    x.toNat ∈ header g := by
  have hbase : (BitVec.ofNat 64 g.base).toNat = g.base := toNat_ofNat_of_lt (by omega)
  have hsum : (BitVec.ofNat 64 g.base + offset).toNat = g.base + offset.toNat := by
    rw [BitVec.toNat_add, hbase]
    omega
  rw [hhdmVirtToPhys_regionOf, within_iff (by omega), hsum] at hx
  rw [header, mem_def]
  dsimp only
  omega

theorem setField_frame (hg : g.base + 24 ≤ 2 ^ 64) {offset v x : U64} (hoffset : offset.toNat ≤ 16)
    (hx : x.toNat ∉ header g) : setField hhdmBase m (regionOf hhdmBase g) offset v x = m x :=
  store64_apply_of_not_within (mt (within_header hg hoffset) hx)

theorem headerAt_congr (hg : g.base + 24 ≤ 2 ^ 64)
    (h : ∀ x : U64, x.toNat ∈ header g → m' x = m x) :
    headerAt hhdmBase m' (regionOf hhdmBase g) = headerAt hhdmBase m (regionOf hhdmBase g) := by
  have hfield : ∀ offset : U64, offset.toNat ≤ 16 →
      field hhdmBase m' (regionOf hhdmBase g) offset = field hhdmBase m (regionOf hhdmBase g) offset :=
    fun offset hoffset => load64_congr fun x hx => h x (within_header hg hoffset hx)
  rw [headerAt, headerAt, hfield 0 (by decide), hfield 8 (by decide), hfield 16 (by decide)]

theorem field_setField_same {offset v : U64} {region : U64} :
    field hhdmBase (setField hhdmBase m region offset v) region offset = v :=
  load64_store64_same _ _ _

/-- The three words of a header do not overlap. -/
theorem field_setField (hg : g.base + 24 ≤ 2 ^ 64) {offset offset' v : U64}
    (hoffset : offset.toNat ≤ 16) (hoffset' : offset'.toNat ≤ 16)
    (hapart : offset.toNat + 8 ≤ offset'.toNat ∨ offset'.toNat + 8 ≤ offset.toNat) :
    field hhdmBase (setField hhdmBase m (regionOf hhdmBase g) offset v) (regionOf hhdmBase g) offset' =
      field hhdmBase m (regionOf hhdmBase g) offset' := by
  have hbase : (BitVec.ofNat 64 g.base).toNat = g.base := toNat_ofNat_of_lt (by omega)
  have hsum : ∀ o : U64, o.toNat ≤ 16 → (BitVec.ofNat 64 g.base + o).toNat = g.base + o.toNat := by
    intro o ho
    rw [BitVec.toNat_add, hbase]
    omega
  apply load64_store64_apart
  rw [hhdmVirtToPhys_regionOf]
  have hat := hsum offset hoffset
  have hat' := hsum offset' hoffset'
  exact apart_of_le (by omega) (by omega) (by omega)

theorem headerAt_setCurr (hg : g.base + 24 ≤ 2 ^ 64) (v : U64) :
    headerAt hhdmBase (setField hhdmBase m (regionOf hhdmBase g) 8 v) (regionOf hhdmBase g) =
      { headerAt hhdmBase m (regionOf hhdmBase g) with curr := v } := by
  rw [headerAt, field_setField_same, field_setField hg (by decide) (by decide) (by decide),
    field_setField hg (by decide) (by decide) (by decide)]
  rfl

theorem headerAt_setNext (hg : g.base + 24 ≤ 2 ^ 64) (v : U64) :
    headerAt hhdmBase (setField hhdmBase m (regionOf hhdmBase g) 16 v) (regionOf hhdmBase g) =
      { headerAt hhdmBase m (regionOf hhdmBase g) with next := v } := by
  rw [headerAt, field_setField_same, field_setField hg (by decide) (by decide) (by decide),
    field_setField hg (by decide) (by decide) (by decide)]
  rfl

theorem headerAt_openRegion (hg : g.base + 24 ≤ 2 ^ 64) (size : U64) :
    headerAt hhdmBase (openRegion hhdmBase m (regionOf hhdmBase g) size) (regionOf hhdmBase g) =
      ⟨regionOf hhdmBase g + size, regionOf hhdmBase g + sizeofRegion, 0⟩ := by
  rw [openRegion, headerAt_setNext hg, headerAt_setCurr hg, headerAt, field_setField_same]

theorem openRegion_frame (hg : g.base + 24 ≤ 2 ^ 64) {size x : U64} (hx : x.toNat ∉ header g) :
    openRegion hhdmBase m (regionOf hhdmBase g) size x = m x := by
  rw [openRegion, setField_frame hg (by decide) hx, setField_frame hg (by decide) hx,
    setField_frame hg (by decide) hx]

end Map

/-- An allocator whose headers in memory are those of the state `st`. -/
structure Tracks (hhdmBase blockBuf : U64) (top : Nat) (w : Pmm.World) (a : Arena)
    (ranges : List Span) (st : State) : Prop where
  placed : Placed blockBuf top w
  list : st.regionList = a.regionList
  current : st.currentRegion = a.currentRegion
  obtained : st.obtained = ranges.map (lift hhdmBase)
  headers : ∀ g ∈ ranges,
    st.headers (regionOf hhdmBase g) = headerAt hhdmBase w.st.mem (regionOf hhdmBase g)
  granted : ∀ g ∈ ranges, g ∈ w.grants
  long : ∀ g ∈ ranges, 4096 ≤ g.length
  fresh : Fresh st.obtained

/-- What a call does to the rest of memory: it takes ranges, of which it writes to the headers
only, and writes to the headers of its own regions and to `BLOCK_BUF`. -/
structure Grows (blockBuf : U64) (w : Pmm.World) (ranges : List Span) (w' : Pmm.World)
    (new : List Span) : Prop where
  grants : w'.grants = new ++ w.grants
  zero : ∀ g ∈ new, ∀ x : U64, x.toNat ∈ g → x.toNat ∉ header g → w'.st.mem x = 0
  frame : ∀ x : U64, (∀ g ∈ new, x.toNat ∉ g) → (∀ g ∈ ranges, x.toNat ∉ header g) →
    ¬ Within x blockBuf bufBytes → w'.st.mem x = w.st.mem x

section Tracks

variable {hhdmBase blockBuf : U64} {top : Nat} {w w' : Pmm.World} {a : Arena}
  {ranges : List Span} {st : State} {g g' : Span} {m' : Mem}

theorem Placed.withMem (h : Placed blockBuf top w) (hg : g ∈ w.grants)
    (hframe : ∀ x : U64, x.toNat ∉ g → m' x = w.st.mem x) : Placed blockBuf top (w.withMem m') :=
  ⟨h.managed.store hg hframe, h.pos, h.high⟩

theorem Placed.taken (h : Placed blockBuf top w) (htaken : Taken blockBuf w w' g) :
    Placed blockBuf top w' :=
  ⟨htaken.managed, htaken.offered ▸ h.pos, htaken.offered ▸ h.high⟩

theorem Tracks.room (h : Tracks hhdmBase blockBuf top w a ranges st)
    (hwindow : Window hhdmBase top) (hg : g ∈ ranges) : g.base + 24 ≤ 2 ^ 64 ∧ g.base ≤ top := by
  have hhigh := (h.placed.grant (h.granted g hg)).2
  have hlong := h.long g hg
  have htop := hwindow.high
  omega

theorem header_inside (hlong : 4096 ≤ g.length) {x : Nat} (hx : x ∈ header g) : x ∈ g := by
  rw [header, mem_def] at hx
  rw [mem_def]
  dsimp only at hx
  omega

theorem Tracks.regionOf_ne (h : Tracks hhdmBase blockBuf top w a ranges st)
    (hwindow : Window hhdmBase top) (hg : g ∈ ranges) (hg' : g' ∈ ranges) (hne : g' ≠ g) :
    regionOf hhdmBase g' ≠ regionOf hhdmBase g := by
  intro heq
  have hbase := regionOf_toNat hwindow (h.room hwindow hg').2
  rw [heq, regionOf_toNat hwindow (h.room hwindow hg).2] at hbase
  have hlong := h.long g hg
  have hlong' := h.long g' hg'
  exact h.placed.managed.apart (h.granted g' hg') (h.granted g hg) hne g.base
    ⟨by omega, by omega⟩ ⟨by omega, by omega⟩

/-- A region's header is written. -/
theorem Tracks.set (h : Tracks hhdmBase blockBuf top w a ranges st)
    (hwindow : Window hhdmBase top) (hg : g ∈ ranges) {new : Region}
    (hnew : headerAt hhdmBase m' (regionOf hhdmBase g) = new)
    (hframe : ∀ x : U64, x.toNat ∉ header g → m' x = w.st.mem x) :
    Tracks hhdmBase blockBuf top (w.withMem m') a ranges (st.setHeader (regionOf hhdmBase g) new) := by
  have hlong := h.long g hg
  refine ⟨h.placed.withMem (h.granted g hg) fun x hx => hframe x fun hin => hx (header_inside hlong hin),
    h.list, h.current, h.obtained, fun g' hg' => ?_, h.granted, h.long, h.fresh⟩
  by_cases heq : g' = g
  · rw [heq]
    exact (Function.update_self ..).trans hnew.symm
  · refine (Function.update_of_ne (h.regionOf_ne hwindow hg hg' heq) ..).trans ?_
    refine (h.headers g' hg').trans (headerAt_congr (h.room hwindow hg').1 fun x hx => ?_).symm
    exact hframe x fun hin => h.placed.managed.apart (h.granted g' hg') (h.granted g hg) heq x.toNat
      (header_inside (h.long g' hg') hx) (header_inside hlong hin)

/-- A range granted elsewhere. -/
theorem Tracks.taken (h : Tracks hhdmBase blockBuf top w a ranges st)
    (hwindow : Window hhdmBase top) (htaken : Taken blockBuf w w' g) :
    Tracks hhdmBase blockBuf top w' a ranges st := by
  refine ⟨h.placed.taken htaken, h.list, h.current, h.obtained, fun g' hg' => ?_, fun g' hg' => ?_,
    h.long, h.fresh⟩
  · refine (h.headers g' hg').trans (headerAt_congr (h.room hwindow hg').1 fun x hx => ?_).symm
    have hin := header_inside (h.long g' hg') hx
    exact htaken.frame x (fun hgx => htaken.fresh g' (h.granted g' hg') x.toNat hgx hin)
      (h.placed.managed.apart_buf (h.granted g' hg') hin)
  · rw [htaken.grants]
    exact List.mem_cons_of_mem g (h.granted g' hg')

/-- The region's header is set up in a new range, which becomes the current region. -/
theorem Tracks.opened (h : Tracks hhdmBase blockBuf top w a ranges st)
    (hwindow : Window hhdmBase top) (hg : g ∈ w.grants) (hnew : ∀ g' ∈ ranges, Disjoint g g')
    (hbase : 4096 ∣ g.base) (hlength : 4096 ∣ g.length) (hpos : 0 < g.length) {size : U64}
    (hsize : size.toNat = g.length) {list : U64} {st' : State} (hlist : st'.regionList = list)
    (hcurrent : st'.currentRegion = regionOf hhdmBase g)
    (hobtained : st'.obtained = ⟨(regionOf hhdmBase g).toNat, size.toNat⟩ :: st.obtained)
    (hheaders : st'.headers = Function.update st.headers (regionOf hhdmBase g)
      ⟨regionOf hhdmBase g + size, regionOf hhdmBase g + sizeofRegion, 0⟩) :
    Tracks hhdmBase blockBuf top
      (w.withMem (openRegion hhdmBase w.st.mem (regionOf hhdmBase g) size))
      ⟨list, regionOf hhdmBase g⟩ (g :: ranges) st' := by
  have htop := hwindow.high
  obtain ⟨hgpos, hghigh⟩ := h.placed.grant hg
  have hlong : 4096 ≤ g.length := Nat.le_of_dvd hpos hlength
  have hregion := regionOf_toNat (g := g) hwindow (by omega)
  have hlift : lift hhdmBase g = ⟨(regionOf hhdmBase g).toNat, size.toNat⟩ := by
    rw [lift, hregion, hsize]
  have hframe : ∀ x : U64, x.toNat ∉ header g →
      openRegion hhdmBase w.st.mem (regionOf hhdmBase g) size x = w.st.mem x :=
    fun x hx => openRegion_frame (by omega) hx
  refine ⟨h.placed.withMem hg fun x hx => hframe x fun hin => hx (header_inside hlong hin), hlist,
    hcurrent, ?_, ?_, ?_, ?_, ?_⟩
  · rw [hobtained, h.obtained, List.map_cons, hlift]
  · intro g' hg'
    rw [hheaders]
    rcases List.mem_cons.mp hg' with rfl | hg'
    · exact (Function.update_self ..).trans (headerAt_openRegion (by omega) size).symm
    · have hne : regionOf hhdmBase g' ≠ regionOf hhdmBase g := by
        intro heq
        have hbase' := regionOf_toNat hwindow (h.room hwindow hg').2
        rw [heq, hregion] at hbase'
        have hlong' := h.long g' hg'
        exact hnew g' hg' g.base ⟨by omega, by omega⟩ ⟨by omega, by omega⟩
      refine (Function.update_of_ne hne ..).trans ((h.headers g' hg').trans ?_)
      refine (headerAt_congr (h.room hwindow hg').1 fun x hx => hframe x fun hin => ?_).symm
      exact hnew g' hg' x.toNat (header_inside hlong hin) (header_inside (h.long g' hg') hx)
  · exact List.forall_mem_cons.mpr ⟨hg, h.granted⟩
  · exact List.forall_mem_cons.mpr ⟨hlong, h.long⟩
  · rw [hobtained, ← hlift]
    refine ⟨List.forall_mem_cons.mpr ⟨⟨Nat.dvd_add hwindow.aligned hbase, hlength⟩, h.fresh.aligned⟩,
      List.forall_mem_cons.mpr ⟨by rw [lift]; dsimp only; omega, h.fresh.pos⟩,
      List.forall_mem_cons.mpr ⟨by rw [lift]; dsimp only; omega, h.fresh.fits⟩,
      List.pairwise_cons.mpr ⟨?_, h.fresh.disjoint⟩⟩
    intro s hs x hx hxs
    rw [h.obtained] at hs
    obtain ⟨g', hg', rfl⟩ := List.mem_map.mp hs
    rw [lift, mem_def] at hx hxs
    dsimp only at hx hxs
    exact hnew g' hg' (x - hhdmBase.toNat) ⟨by omega, by omega⟩ ⟨by omega, by omega⟩

end Tracks

end Octiron.Bump.Arenas
