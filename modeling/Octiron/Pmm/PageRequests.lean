import Octiron.Lib.Cursors
import Octiron.Pmm.Overlap

/-! The manager of a kernel that asks for memory by `pmm::alloc` only.  Then every
allocation comes off the front of a region, no descriptor is ever needed for a tail,
and the manager is a row of cursors. -/
namespace Octiron.Pmm

open Lib Lib.Word Lib.ByteMemory Lib.Span Lib.Cursors Exec

inductive PageCall where
  | addRegion (base size : U64)
  | alloc (size : U64) (ret : Option U64)

/-- A call with its error and the word its out-pointer designates on return;
`add_region` has none. -/
def PageCall.perform (st : State) : PageCall → Exec (Error × Option U64 × State)
  | .addRegion base size => do
    let (err, st) ← Pmm.addRegion st base size
    return (err, none, st)
  | .alloc size ret => Pmm.alloc st size ret

def performAll (st : State) : List PageCall → Exec (List (Error × Option U64) × State)
  | [] => .ok ([], st)
  | call :: rest => do
    let (err, ret, st) ← call.perform st
    let (replies, st) ← performAll st rest
    return ((err, ret) :: replies, st)

/-- A region offered consists of whole pages apart from `BLOCK_BUF`.  Nothing is asked
of an allocation. -/
def PageCall.Sound (blockBuf : U64) : PageCall → Prop
  | .addRegion base size =>
    WholePages base size ∧ Disjoint ⟨base.toNat, size.toNat⟩ (bufSpan blockBuf)
  | .alloc _ _ => True

/-- What the manager stands for: how far each region is handed out, and the ranges
handed out, newest first. -/
structure Front where
  cursors : List Cursor
  granted : List Span

def Front.serve (front : Front) (size : U64) : Error × Option U64 × Front :=
  match Cursors.serve (alignUp size pageSize).toNat front.cursors with
  | none => (.ofCode .pmmOutOfMem, some 0, front)
  | some (a, cursors) => (.ofCode .success, some (BitVec.ofNat 64 a),
      ⟨cursors, ⟨a, (alignUp size pageSize).toNat⟩ :: front.granted⟩)

def Front.reply (front : Front) : PageCall → Error × Option U64 × Front
  | .addRegion base size =>
    if regionCountMax ≤ front.cursors.length then (.ofCode .pmmRegionListFull, none, front)
    else if ∃ c ∈ front.cursors, c.base ≤ base.toNat ∧ base.toNat ≤ c.stop then
      (.ofCode .pmmRegionManaged, none, front)
    else (.ofCode .success, none,
      { front with cursors := front.cursors ++ [.fresh base.toNat size.toNat] })
  | .alloc _ none => (.ofCode .nullArgument, none, front)
  | .alloc size (some _) => front.serve size

def Front.replies (front : Front) : List PageCall → List (Error × Option U64) × Front
  | [] => ([], front)
  | call :: rest =>
    let (err, ret, front) := front.reply call
    let (replies, front) := front.replies rest
    ((err, ret) :: replies, front)

/-- Memory with the given ranges cleared. -/
def cleared (m : Mem) (spans : List Span) : Mem :=
  fun x => if ∃ s ∈ spans, x.toNat ∈ s then 0 else m x

/-- A region entered as the `i`-th: its block, held by the second of the descriptors
taken for it, is the part behind the cursor. -/
structure Row (blockBuf : U64) (m : Mem) (i : Nat) (region : MemoryRegion) (c : Cursor) :
    Prop where
  pages : WholePages region.base region.length
  buf : Disjoint (regionSpan region) (bufSpan blockBuf)
  base : c.base = region.base.toNat
  stop : c.stop = region.base.toNat + region.length.toNat
  next_dvd : pageBytes ∣ c.next
  free : region.freeBytes.toNat = c.room
  blocks : region.freeBlocks = if c.room = 0 then 0 else descriptor blockBuf (2 * i + 1)
  held : 0 < c.room → blockSpan m (descriptor blockBuf (2 * i + 1)) = ⟨c.next, c.room⟩
  last : blockNext m (descriptor blockBuf (2 * i + 1)) = 0

structure Refines (blockBuf : U64) (m₀ : Mem) (st : State) (front : Front) : Prop where
  slab : SlabInv blockBuf st.blockAllocator st.mem (2 * front.cursors.length)
  pol : st.pol = .firstFit
  length_le : front.cursors.length ≤ regionCountMax
  length_eq : st.regions.length = front.cursors.length
  row : ∀ i region c, st.regions[i]? = some region → front.cursors[i]? = some c →
    Row blockBuf st.mem i region c
  free : st.freeBytes.toNat = room front.cursors
  total : st.totalBytes.toNat = capacity front.cursors
  outside : ∀ x, ¬ Within x blockBuf bufBytes → st.mem x = cleared m₀ front.granted x

section Row

variable {blockBuf : U64} {m m' : Mem} {i : Nat} {region : MemoryRegion} {c : Cursor}

theorem Row.congr (h : Row blockBuf m i region c) (hfit : blockBuf.toNat + bufBytes < 2 ^ 64)
    (hi : 2 * i + 1 < 64)
    (hsame : ∀ x, Within x (descriptor blockBuf (2 * i + 1)) 24 → m' x = m x) :
    Row blockBuf m' i region c := by
  obtain ⟨hspan, hnext⟩ := fields_congr hfit hi hsame
  exact { h with
    held := fun hroom => hspan.trans (h.held hroom)
    last := hnext.trans h.last }

theorem Row.stop_le (h : Row blockBuf m i region c) : c.stop ≤ 2 ^ 56 := by
  rw [h.stop]
  exact h.pages.high

theorem Row.next_pos (h : Row blockBuf m i region c) : 0 < c.next := by
  have hle := c.base_le
  have hne : region.base.toNat ≠ 0 := fun hzero => h.pages.base_ne (BitVec.eq_of_toNat_eq hzero)
  have hbase := h.base
  omega

theorem Row.room_dvd (h : Row blockBuf m i region c) : pageBytes ∣ c.room := by
  have hstop : pageBytes ∣ c.stop := by
    rw [h.stop]
    exact Nat.dvd_add h.pages.base_aligned h.pages.size_aligned
  exact Nat.dvd_sub hstop h.next_dvd

/-- The search looks into the regions whose cursor takes the request. -/
theorem Row.hasRoom_iff (h : Row blockBuf m i region c) (hfit : blockBuf.toNat + bufBytes < 2 ^ 64)
    (hi : 2 * i + 1 < 64) (size : U64) : hasRoom size region = true ↔ c.Takes size.toNat := by
  have hne := descriptor_ne_zero hfit hi.le
  rw [hasRoom_eq_true, BitVec.lt_def, h.free, Nat.not_lt, h.blocks, Cursor.Takes]
  by_cases hroom : c.room = 0
  · simp [hroom]
  · rw [if_neg hroom]
    exact ⟨fun ⟨hsize, _⟩ => ⟨Nat.pos_of_ne_zero hroom, hsize⟩, fun ⟨_, hsize⟩ => ⟨hsize, hne⟩⟩

end Row

/-- A cut at the very front of a block takes no descriptor. -/
theorem exists_splitBlock_front (st : State) {head : U64} (hhead : head ≠ 0) (b n size : U64) :
    ∃ split, splitBlock st head 0 head b n b size = .ok split ∧
      split.slab = st.blockAllocator := by
  unfold splitBlock
  simp only [deref_of_ne hhead, ok_bind, ne_eq, not_true_eq_false, false_and, if_false, if_true]
  split
  · exact ⟨_, rfl, rfl⟩
  · exact ⟨_, rfl, rfl⟩

theorem SlabInv.used_unique {blockBuf : U64} {s : Slab.SlabAlloc} {m m' : Mem} {used used' : Nat}
    (h : SlabInv blockBuf s m used) (h' : SlabInv blockBuf s m' used') : used' = used := by
  have hle := h.used_le
  have hle' := h'.used_le
  have heq := congrArg BitVec.toNat (h'.free_eq.symm.trans h.free_eq)
  rw [toNat_ofNat_of_lt (by omega), toNat_ofNat_of_lt (by omega)] at heq
  omega

/-- The cut of a region's block at its front: the rest stays where it is, or the list
becomes empty. -/
theorem splitBlock_front_spec {blockBuf : U64} {st : State} {used k : Nat} {base length size : U64}
    (hslab : SlabInv blockBuf st.blockAllocator st.mem used) (hused : used < 64) (hk : k < used)
    (hnext : blockNext st.mem (descriptor blockBuf k) = 0)
    (hbase : blockBase st.mem (descriptor blockBuf k) = base)
    (hlength : blockLength st.mem (descriptor blockBuf k) = length)
    (hfits : size.toNat ≤ length.toNat) (hend : base.toNat + length.toNat < 2 ^ 64) :
    ∃ split, splitBlock st (descriptor blockBuf k) 0 (descriptor blockBuf k) base length base
        size = .ok split ∧ split.slab = st.blockAllocator ∧
      SplitOk blockBuf st.mem used k ⟨base.toNat, size.toNat⟩ split used := by
  subst hbase hlength
  obtain ⟨split, hsplit, hsame⟩ := exists_splitBlock_front st
    (descriptor_ne_zero hslab.fits (hk.trans hused).le) (blockBase st.mem (descriptor blockBuf k))
    (blockLength st.mem (descriptor blockBuf k)) size
  obtain ⟨used', hok⟩ := splitBlock_spec hslab hused hk hnext le_rfl (by omega) hend hsplit
  have hslab' := hok.slab
  rw [hsame] at hslab'
  obtain rfl := hslab.used_unique hslab'
  exact ⟨split, hsplit, hsame, hok⟩

/-- The state after a grant: the split's, with the granted range zeroed. -/
def grantState (st : State) (i : Nat) (region : MemoryRegion) (split : SplitResult) (a size : U64) :
    State :=
  { cutState st i region split size with mem := Memory.fill split.mem a 0 size.toNat }

theorem grantState_apply {st : State} {i : Nat} {region : MemoryRegion} {split : SplitResult}
    {a size : U64} (hrange : a.toNat + size.toNat ≤ 2 ^ 64) (x : U64) :
    (grantState st i region split a size).mem x =
      if x.toNat ∈ (⟨a.toNat, size.toNat⟩ : Span) then 0 else split.mem x := by
  change Memory.fill split.mem a 0 size.toNat x = _
  rw [Memory.fill_eq_setRange _ _ _ size.isLt.le]
  simp only [setRange, within_iff hrange, mem_def]

section Grant

variable {blockBuf : U64} {st : State} {used i : Nat} {region : MemoryRegion} {c : Cursor}
  {size : U64}

/-- A region whose cursor takes the request grants from the cursor on. -/
theorem Row.grants (h : Row blockBuf st.mem i region c) (htakes : c.Takes size.toNat)
    (hslab : SlabInv blockBuf st.blockAllocator st.mem used) (hused : used < 64)
    (hi : 2 * i + 1 < used) :
    ∃ split, SplitOk blockBuf st.mem used (2 * i + 1) ⟨c.next, size.toNat⟩ split used ∧
      split.slab = st.blockAllocator ∧
      allocFromRegion st i region size pageSize = .ok (.ofCode .success,
        some (BitVec.ofNat 64 c.next), grantState st i region split (BitVec.ofNat 64 c.next) size) := by
  obtain ⟨hpos, hsize⟩ := htakes
  have hblocks : region.freeBlocks = descriptor blockBuf (2 * i + 1) := by
    rw [h.blocks, if_neg (Nat.ne_of_gt hpos)]
  obtain ⟨hbaseNat, hlength⟩ := Span.mk.inj (h.held hpos)
  have hstop := h.stop_le
  have hnextLe := c.next_le
  have hroom : c.room = c.stop - c.next := rfl
  have hnext : (BitVec.ofNat 64 c.next).toNat = c.next := toNat_ofNat_of_lt (by omega)
  have hbase : blockBase st.mem (descriptor blockBuf (2 * i + 1)) = BitVec.ofNat 64 c.next :=
    BitVec.eq_of_toNat_eq (by rw [hnext, hbaseNat])
  obtain ⟨split, hsplit, hsame, hok⟩ := splitBlock_front_spec hslab hused hi h.last hbase rfl
    (by omega : size.toNat ≤ _) (by omega)
  have haligned : alignUp (BitVec.ofNat 64 c.next) pageSize = BitVec.ofNat 64 c.next :=
    alignUp_pageSize_of_dvd (by rw [hnext]; exact h.next_dvd) (by omega)
  have hfits : ¬ BitVec.ofNat 64 c.next + blockLength st.mem (descriptor blockBuf (2 * i + 1)) <
      BitVec.ofNat 64 c.next + size := by
    rw [BitVec.lt_def, BitVec.toNat_add, BitVec.toNat_add, Nat.mod_eq_of_lt (by omega),
      Nat.mod_eq_of_lt (by omega)]
    omega
  have hderef : derefBytes (BitVec.ofNat 64 c.next) size = .ok () := by
    have hfirst := h.next_pos
    have hne : BitVec.ofNat 64 c.next ≠ 0 := by
      intro hzero
      rw [hzero, show (0 : U64).toNat = 0 from rfl] at hnext
      omega
    rw [derefBytes, deref_of_ne hne, ite_self]
  rw [hnext] at hok
  refine ⟨split, hok, hsame, ?_⟩
  unfold allocFromRegion
  simp only [hblocks, hbase, haligned, hfits, if_false, hsplit, ok_bind, hderef]
  rfl

/-- The region's entry after the grant. -/
theorem Row.granted {split : SplitResult} {m' : Mem} (h : Row blockBuf st.mem i region c)
    (htakes : c.Takes size.toNat) (hfit : blockBuf.toNat + bufBytes < 2 ^ 64)
    (hi : 2 * i + 1 < 64) (hdvd : pageBytes ∣ size.toNat)
    (hok : SplitOk blockBuf st.mem used (2 * i + 1) ⟨c.next, size.toNat⟩ split used)
    (hsame : ∀ x, Within x (descriptor blockBuf (2 * i + 1)) 24 → m' x = split.mem x) :
    Row blockBuf m' i (cutRegion region split.freeBlocks size)
      (c.advance size.toNat htakes) := by
  have hne := descriptor_ne_zero hfit hi.le
  have hheld := hok.held
  obtain ⟨hspan, hnext⟩ := fields_congr hfit hi hsame
  rw [h.held htakes.1, keptByCut, if_neg (Nat.lt_irrefl _)] at hheld
  have hroom := Cursor.room_advance htakes
  have hsize := htakes.2
  have hfree : (region.freeBytes - size).toNat = (c.advance size.toNat htakes).room := by
    have hold := h.free
    rw [BitVec.toNat_sub_of_le (by rw [BitVec.le_def]; omega)]
    omega
  refine ⟨h.pages, h.buf, h.base, h.stop, Nat.dvd_add h.next_dvd hdvd, hfree, ?_, ?_, ?_⟩
  · dsimp only [cutRegion]
    rcases hok.freeBlocks with hkept | hempty
    · rw [hkept] at hheld ⊢
      rw [heldAt_of_ne hne] at hheld
      split at hheld
      · rw [if_neg (by dsimp only at *; omega)]
      · cases hheld
    · rw [hempty] at hheld ⊢
      rw [heldAt_zero] at hheld
      split at hheld
      · cases hheld
      · rw [if_pos (by dsimp only at *; omega)]
  · intro hpos
    rw [hspan]
    rw [if_pos (by dsimp only; omega)] at hheld
    rcases hok.freeBlocks with hkept | hempty
    · rw [hkept, heldAt_of_ne hne] at hheld
      rw [List.singleton_inj.mp hheld, hroom]
      dsimp only [Cursor.advance]
      congr 1
      omega
    · rw [hempty, heldAt_zero] at hheld
      cases hheld
  · rw [hnext, hok.next]
    exact h.last

/-- The search goes on until a cursor takes the request. -/
theorem searchRegions_eq {rest : List MemoryRegion} {cs : List Cursor}
    (hfit : blockBuf.toNat + bufBytes < 2 ^ 64) (hlength : rest.length = cs.length)
    (hcount : 2 * (i + cs.length) ≤ 64)
    (hrow : ∀ j region c, rest[j]? = some region → cs[j]? = some c →
      Row blockBuf st.mem (i + j) region c) :
    (Cursors.serve size.toNat cs = none ∧
        searchRegions st size pageSize i rest = .ok (.ofCode .pmmOutOfMem, some 0, st)) ∨
      ∃ j region c, ∃ htakes : c.Takes size.toNat, rest[j]? = some region ∧ cs[j]? = some c ∧
        Cursors.serve size.toNat cs = some (c.next, cs.set j (c.advance size.toNat htakes)) ∧
        searchRegions st size pageSize i rest =
          allocFromRegion st (i + j) region size pageSize := by
  induction rest generalizing i cs with
  | nil =>
    obtain rfl : cs = [] := List.eq_nil_of_length_eq_zero hlength.symm
    exact .inl ⟨rfl, rfl⟩
  | cons region rest ih =>
    obtain ⟨c, cs, rfl⟩ := List.exists_cons_of_length_eq_add_one hlength.symm
    rw [List.length_cons] at hcount
    have hfirst := hrow 0 region c rfl rfl
    have hroom := hfirst.hasRoom_iff hfit (by omega) size
    rw [hasRoom_eq_true] at hroom
    by_cases htakes : c.Takes size.toNat
    · obtain ⟨hbytes, hblocks⟩ := hroom.mpr htakes
      refine .inr ⟨0, region, c, htakes, rfl, rfl, serve_cons_of_takes htakes, ?_⟩
      rw [searchRegions, if_neg hbytes, if_neg hblocks]
      rfl
    · have hskip : searchRegions st size pageSize i (region :: rest) =
          searchRegions st size pageSize (i + 1) rest := by
        rw [searchRegions]
        split
        · rfl
        · rename_i hbytes
          have hblocks : region.freeBlocks = 0 := by
            by_contra hne
            exact htakes (hroom.mp ⟨hbytes, hne⟩)
          rw [if_pos hblocks]
      rw [hskip, serve_cons_of_not_takes htakes]
      have hrest := ih (i := i + 1) (Nat.succ.inj hlength) (by omega)
        fun j region' c' hj hj' => by
          rw [Nat.add_right_comm]
          exact hrow (j + 1) region' c' hj hj'
      rcases hrest with ⟨hnone, hsearch⟩ | ⟨j, region', c', htakes', hj, hj', hserve, hsearch⟩
      · exact .inl ⟨by rw [hnone]; rfl, hsearch⟩
      · refine .inr ⟨j + 1, region', c', htakes', hj, hj', by rw [hserve]; rfl, ?_⟩
        rw [hsearch, Nat.add_right_comm]
        rfl

end Grant

section Cleared

variable {m : Mem} {s : Span} {spans : List Span} {x : U64}

theorem cleared_cons_of_mem (h : x.toNat ∈ s) : cleared m (s :: spans) x = 0 :=
  if_pos ⟨s, List.mem_cons_self, h⟩

theorem cleared_cons_of_not_mem (h : x.toNat ∉ s) : cleared m (s :: spans) x = cleared m spans x := by
  simp only [cleared, List.mem_cons, exists_eq_or_imp, h, false_or]

end Cleared

section Refines

variable {blockBuf : U64} {m₀ : Mem} {st : State} {front : Front}

theorem Refines.row_of_cursor (h : Refines blockBuf m₀ st front) {i : Nat} {c : Cursor}
    (hi : front.cursors[i]? = some c) :
    ∃ region, st.regions[i]? = some region ∧ Row blockBuf st.mem i region c := by
  obtain ⟨hlt, -⟩ := List.getElem?_eq_some_iff.mp hi
  have hlt' : i < st.regions.length := h.length_eq ▸ hlt
  exact ⟨st.regions[i], List.getElem?_eq_getElem hlt',
    h.row i _ c (List.getElem?_eq_getElem hlt') hi⟩

theorem Refines.capacity_bound (h : Refines blockBuf m₀ st front) :
    capacity front.cursors ≤ 16 * 2 ^ 56 := by
  have hcount : front.cursors.length ≤ 16 := h.length_le
  have hone : ∀ c ∈ front.cursors, c.capacity ≤ 2 ^ 56 := by
    intro c hc
    obtain ⟨i, hi⟩ := List.mem_iff_getElem?.mp hc
    obtain ⟨region, -, hrow⟩ := h.row_of_cursor hi
    exact (Nat.sub_le _ _).trans hrow.stop_le
  exact (capacity_le hone).trans (Nat.mul_le_mul_right _ hcount)

/-- A grant advances its cursor and clears its range. -/
theorem Refines.grant (h : Refines blockBuf m₀ st front) {i : Nat} {region : MemoryRegion}
    {c : Cursor} {size : U64} {split : SplitResult} (hi : st.regions[i]? = some region)
    (hi' : front.cursors[i]? = some c) (htakes : c.Takes size.toNat)
    (hdvd : pageBytes ∣ size.toNat)
    (hok : SplitOk blockBuf st.mem (2 * front.cursors.length) (2 * i + 1) ⟨c.next, size.toNat⟩
      split (2 * front.cursors.length)) :
    Refines blockBuf m₀ (grantState st i region split (BitVec.ofNat 64 c.next) size)
      ⟨front.cursors.set i (c.advance size.toNat htakes), ⟨c.next, size.toNat⟩ :: front.granted⟩ := by
  have hfit := h.slab.fits
  have hrow := h.row i region c hi hi'
  have hroomLe := room_le_room (List.mem_of_getElem? hi')
  have hroomSet := room_set hi' htakes
  have hsize := htakes.2
  have hstop := hrow.stop_le
  have hnextLe := c.next_le
  have hroom : c.room = c.stop - c.next := rfl
  have hcount : front.cursors.length ≤ 16 := h.length_le
  obtain ⟨hlt, -⟩ := List.getElem?_eq_some_iff.mp hi'
  have hnext : (BitVec.ofNat 64 c.next).toNat = c.next := toNat_ofNat_of_lt (by omega)
  have hmem : ∀ x, (grantState st i region split (BitVec.ofNat 64 c.next) size).mem x =
      if x.toNat ∈ (⟨c.next, size.toNat⟩ : Span) then 0 else split.mem x := by
    intro x
    rw [grantState_apply (by omega), hnext]
  have hinRegion : Inside ⟨c.next, size.toNat⟩ (regionSpan region) := by
    have hbase := c.base_le
    have hstopEq := hrow.stop
    have hbaseEq := hrow.base
    constructor <;> dsimp only [regionSpan] <;> omega
  -- the range lies in the region, and so outside the buffer
  have hframe : ∀ x, Within x blockBuf bufBytes →
      (grantState st i region split (BitVec.ofNat 64 c.next) size).mem x = split.mem x := by
    intro x hx
    rw [within_iff hfit.le] at hx
    rw [hmem, if_neg fun hgrant => hrow.buf x.toNat (hinRegion.mem hgrant) hx]
  have hdesc : ∀ j < 64, ∀ x, Within x (descriptor blockBuf j) 24 →
      (grantState st i region split (BitVec.ofNat 64 c.next) size).mem x = split.mem x :=
    fun j hj x hx => hframe x (within_buf_of_descriptor hfit hj hx)
  refine ⟨?_, h.pol, ?_, ?_, ?_, ?_, ?_, ?_⟩
  · rw [List.length_set]
    exact hok.slab.congr (fun x hx => hframe x (within_buf_of_header hfit hx))
      fun j _ hj => hdesc j hj
  · rw [List.length_set]
    exact h.length_le
  · rw [List.length_set, ← h.length_eq]
    exact List.length_set
  · intro j region' c' hj hj'
    rcases getElem?_set_cases hj with ⟨rfl, rfl⟩ | ⟨hne, hj⟩
    · rw [List.getElem?_set_self hlt] at hj'
      obtain rfl := Option.some.inj hj'
      exact hrow.granted htakes hfit (by omega) hdvd hok (hdesc _ (by omega))
    · rw [List.getElem?_set_ne (Ne.symm hne)] at hj'
      obtain ⟨hjlt, -⟩ := List.getElem?_eq_some_iff.mp hj'
      apply (h.row j region' c' hj hj').congr hfit (by omega)
      intro x hx
      rw [hdesc _ (by omega) x hx]
      exact hok.frameOthers _ (by omega) (by omega) x hx
  · change (st.freeBytes - size).toNat = room (front.cursors.set i (c.advance size.toNat htakes))
    have hfree := h.free
    rw [BitVec.toNat_sub_of_le (by rw [BitVec.le_def]; omega)]
    omega
  · change st.totalBytes.toNat = capacity (front.cursors.set i (c.advance size.toNat htakes))
    rw [capacity_set hi']
    exact h.total
  · intro x hx
    rw [hmem]
    split
    · rename_i hgrant
      rw [cleared_cons_of_mem hgrant]
    · rename_i hgrant
      rw [cleared_cons_of_not_mem hgrant, hok.frameBuf x hx, h.outside x hx]

/-- Enough descriptors stay free, whatever has been entered. -/
theorem Refines.descriptors (h : Refines blockBuf m₀ st front) :
    ¬ st.blockAllocator.free < 16 := by
  have hcount : front.cursors.length ≤ 16 := h.length_le
  rw [h.slab.free_eq, BitVec.lt_def, toNat_ofNat_of_lt (by omega)]
  simp
  omega

theorem Refines.alloc (h : Refines blockBuf m₀ st front) (size old : U64) :
    ∃ st', Pmm.alloc st size (some old) =
        .ok ((front.serve size).1, (front.serve size).2.1, st') ∧
      Refines blockBuf m₀ st' (front.serve size).2.2 := by
  have hcount : front.cursors.length ≤ 16 := h.length_le
  have hbad : badAlignment pageSize = false := by decide
  rw [Pmm.alloc, allocAligned]
  simp only [Option.isNone_some, Bool.false_eq_true, if_false, hbad, h.descriptors, h.pol, ne_eq,
    not_true_eq_false]
  set pages := alignUp size pageSize with hpages
  have hdvd : pageBytes ∣ pages.toNat := dvd_alignUp pageSize_toNat
  rcases @searchRegions_eq blockBuf st 0 pages _ _ h.slab.fits h.length_eq (by omega)
      fun j region c hj hj' => by
        rw [Nat.zero_add]
        exact h.row j region c hj hj' with
    ⟨hnone, hsearch⟩ | ⟨i, region, c, htakes, hi, hi', hserve, hsearch⟩
  · rw [Front.serve, ← hpages, hnone, hsearch, ite_self]
    exact ⟨st, rfl, h⟩
  · have hroom := room_le_room (List.mem_of_getElem? hi')
    have hfree : ¬ st.freeBytes < pages := by
      have hsize := htakes.2
      rw [BitVec.lt_def, h.free]
      omega
    obtain ⟨hlt, -⟩ := List.getElem?_eq_some_iff.mp hi'
    obtain ⟨split, hok, -, hgrant⟩ := (h.row i region c hi hi').grants htakes h.slab
      (by omega) (by omega)
    rw [Front.serve, ← hpages, hserve, hsearch, if_neg hfree, Nat.zero_add, hgrant]
    exact ⟨_, rfl, h.grant hi hi' htakes hdvd hok⟩

/-- The overlap test of the code is the one on cursors. -/
theorem Refines.any_managesBase_iff (h : Refines blockBuf m₀ st front) (base : U64) :
    st.regions.any (managesBase · base) = true ↔
      ∃ c ∈ front.cursors, c.base ≤ base.toNat ∧ base.toNat ≤ c.stop := by
  have hone : ∀ i region c, Row blockBuf st.mem i region c →
      (managesBase region base = true ↔ c.base ≤ base.toNat ∧ base.toNat ≤ c.stop) := by
    intro i region c hrow
    have hhigh := hrow.pages.high
    rw [managesBase, Bool.and_eq_true, decide_eq_true_eq, decide_eq_true_eq, BitVec.le_def,
      BitVec.le_def, BitVec.toNat_add, Nat.mod_eq_of_lt (by omega), hrow.base, hrow.stop]
  rw [List.any_eq_true]
  constructor
  · rintro ⟨region, hregion, hmanages⟩
    obtain ⟨i, hi⟩ := List.mem_iff_getElem?.mp hregion
    have hlt' : i < front.cursors.length := h.length_eq ▸ (List.getElem?_eq_some_iff.mp hi).1
    have hi' := List.getElem?_eq_getElem hlt'
    exact ⟨_, List.mem_of_getElem? hi', (hone i region _ (h.row i region _ hi hi')).mp hmanages⟩
  · rintro ⟨c, hc, hin⟩
    obtain ⟨i, hi⟩ := List.mem_iff_getElem?.mp hc
    obtain ⟨region, hi', hrow⟩ := h.row_of_cursor hi
    exact ⟨region, List.mem_of_getElem? hi', (hone i region c hrow).mpr hin⟩

/-- Entering a region appends a cursor at its base. -/
theorem Refines.entered (h : Refines blockBuf m₀ st front) {base size : U64} {st' : State}
    (hroom : front.cursors.length < regionCountMax)
    (hsound : PageCall.Sound blockBuf (.addRegion base size))
    (hinsert : insertRegion st base size = .ok (.ofCode .success, st')) :
    Refines blockBuf m₀ st'
      { front with cursors := front.cursors ++ [.fresh base.toNat size.toNat] } := by
  obtain ⟨hpages, hbuf⟩ := hsound
  have hfit := h.slab.fits
  rw [regionCountMax] at hroom
  obtain ⟨-, hused, hslab, hframe, hsame, hspan, hnext, hst'⟩ := insertRegion_spec h.slab hinsert
  have hregions : st'.regions = st.regions ++
      [⟨base, size, size, descriptor blockBuf (2 * front.cursors.length + 1)⟩] := by
    rw [hst']
  have hhigh := hpages.high
  have hsum : room front.cursors + size.toNat < 2 ^ 64 ∧
      capacity front.cursors + size.toNat < 2 ^ 64 := by
    have hbound := h.capacity_bound
    have hle := room_le_capacity front.cursors
    constructor <;> omega
  refine ⟨?_, by rw [hst']; exact h.pol, ?_, ?_, ?_, ?_, ?_, ?_⟩
  · rw [List.length_append, List.length_singleton, Nat.mul_succ]
    exact hslab
  · rw [List.length_append, List.length_singleton, regionCountMax]
    omega
  · rw [hregions, List.length_append, List.length_append, h.length_eq]
    rfl
  · intro i region c hi hi'
    rw [hregions] at hi
    rcases getElem?_concat hi with hold | ⟨hlast, rfl⟩
    · obtain ⟨hlt, -⟩ := List.getElem?_eq_some_iff.mp hold
      rw [h.length_eq] at hlt
      rw [List.getElem?_append_left hlt] at hi'
      exact (h.row i region c hold hi').congr hfit (by omega)
        fun x hx => hsame (2 * i + 1) (by omega) x hx
    · rw [h.length_eq] at hlast
      subst hlast
      rw [List.getElem?_append_right (Nat.le_refl _), Nat.sub_self] at hi'
      obtain rfl := Option.some.inj hi'
      refine ⟨hpages, hbuf, rfl, rfl, hpages.base_aligned, (Cursor.room_fresh _ _).symm, ?_, ?_, hnext⟩
      · rw [Cursor.room_fresh, if_neg (Nat.ne_of_gt hpages.size_pos)]
      · intro _
        rw [Cursor.room_fresh]
        exact hspan
  · rw [hst']
    change (st.freeBytes + size).toNat = _
    rw [BitVec.toNat_add, h.free, Nat.mod_eq_of_lt hsum.1, room_append]
    simp [room]
  · rw [hst']
    change (st.totalBytes + size).toNat = _
    rw [BitVec.toNat_add, h.total, Nat.mod_eq_of_lt hsum.2, capacity_append]
    simp [capacity]
  · intro x hx
    rw [hframe x hx]
    exact h.outside x hx

theorem Refines.addRegion (h : Refines blockBuf m₀ st front) {base size : U64}
    (hsound : PageCall.Sound blockBuf (.addRegion base size)) :
    ∃ st', Pmm.addRegion st base size = .ok ((front.reply (.addRegion base size)).1, st') ∧
      (front.reply (.addRegion base size)).2.1 = none ∧
      Refines blockBuf m₀ st' (front.reply (.addRegion base size)).2.2 := by
  have hpages := hsound.1
  rw [Front.reply]
  by_cases hfull : regionCountMax ≤ front.cursors.length
  · have hrefused : Pmm.addRegion st base size = .ok (.ofCode .pmmRegionListFull, st) := by
      unfold Pmm.addRegion
      simp only [hpages.base_ne, if_false, h.length_eq, ge_iff_le, hfull, if_true]
    rw [hrefused, if_pos hfull]
    exact ⟨st, rfl, rfl, h⟩
  have hroom : front.cursors.length < regionCountMax := Nat.lt_of_not_le hfull
  have hcall := @addRegion_of_sizes st base size hpages.base_ne (h.length_eq ▸ hroom) hpages.sizeTests
  rw [hpages.alignUp_base, hpages.alignedLength] at hcall
  rw [if_neg hfull]
  by_cases hmanaged : ∃ c ∈ front.cursors, c.base ≤ base.toNat ∧ base.toNat ≤ c.stop
  · rw [if_pos ((h.any_managesBase_iff base).mpr hmanaged)] at hcall
    rw [if_pos hmanaged, hcall]
    exact ⟨st, rfl, rfl, h⟩
  · rw [if_neg (mt (h.any_managesBase_iff base).mp hmanaged)] at hcall
    rw [regionCountMax] at hroom
    obtain ⟨st', hinsert⟩ := @insertRegion_returns st base size _ _ h.slab (by omega)
    rw [if_neg hmanaged, hcall, hinsert]
    exact ⟨st', rfl, rfl, h.entered hroom hsound hinsert⟩

/-- Every call returns, with the reply of the cursors. -/
theorem Refines.perform (h : Refines blockBuf m₀ st front) {call : PageCall}
    (hsound : call.Sound blockBuf) :
    ∃ st', call.perform st = .ok ((front.reply call).1, (front.reply call).2.1, st') ∧
      Refines blockBuf m₀ st' (front.reply call).2.2 := by
  cases call with
  | addRegion base size =>
    obtain ⟨st', hcall, hret, h'⟩ := h.addRegion hsound
    refine ⟨st', ?_, h'⟩
    rw [PageCall.perform, hcall, hret]
    rfl
  | alloc size ret =>
    cases ret with
    | none => exact ⟨st, rfl, h⟩
    | some old => exact h.alloc size old

/-- What the owners store outside the buffer does not matter. -/
theorem Refines.rebase (h : Refines blockBuf m₀ st front) {m' : Mem}
    (hsame : ∀ x, Within x blockBuf bufBytes → m' x = st.mem x) :
    Refines blockBuf m' { st with mem := m' } ⟨front.cursors, []⟩ := by
  have hfit := h.slab.fits
  have hcount : front.cursors.length ≤ 16 := h.length_le
  have hdesc : ∀ j < 64, ∀ x, Within x (descriptor blockBuf j) 24 → m' x = st.mem x :=
    fun j hj x hx => hsame x (within_buf_of_descriptor hfit hj hx)
  refine { h with
    slab := h.slab.congr (fun x hx => hsame x (within_buf_of_header hfit hx)) fun j _ hj => hdesc j hj
    row := fun i region c hi hi' => ?_
    outside := fun x _ => by simp [cleared] }
  obtain ⟨hlt, -⟩ := List.getElem?_eq_some_iff.mp hi'
  dsimp only at hlt
  exact (h.row i region c hi hi').congr hfit (by omega) (hdesc _ (by omega))

/-- All that is free is whole pages. -/
theorem Refines.room_dvd (h : Refines blockBuf m₀ st front) :
    ∀ c ∈ front.cursors, pageBytes ∣ c.room := by
  intro c hc
  obtain ⟨i, hi⟩ := List.mem_iff_getElem?.mp hc
  obtain ⟨region, -, hrow⟩ := h.row_of_cursor hi
  exact hrow.room_dvd

theorem Refines.performAll (h : Refines blockBuf m₀ st front) {calls : List PageCall}
    (hsound : ∀ call ∈ calls, call.Sound blockBuf) :
    ∃ st', Pmm.performAll st calls = .ok ((front.replies calls).1, st') ∧
      Refines blockBuf m₀ st' (front.replies calls).2 := by
  induction calls generalizing st front with
  | nil => exact ⟨st, rfl, h⟩
  | cons call rest ih =>
    obtain ⟨hfirst, hrest⟩ := List.forall_mem_cons.mp hsound
    obtain ⟨st₁, hcall, h₁⟩ := h.perform hfirst
    obtain ⟨st₂, hcalls, h₂⟩ := ih h₁ hrest
    refine ⟨st₂, ?_, h₂⟩
    simp only [Pmm.performAll, hcall, ok_bind, hcalls, Front.replies]
    rfl

end Refines

/-- Right after `initialize` there is no cursor. -/
theorem refines_init {blockBuf : U64} {mem : Mem} {st : State}
    (hobject : blockBuf.toNat + bufBytes ≤ 2 ^ 64)
    (hinit : pmmInitialize { mem := mem } blockBuf .firstFit = .ok st) :
    Refines blockBuf st.mem st ⟨[], []⟩ := by
  obtain ⟨hst, hslab⟩ := pmmInitialize_spec rfl hobject hinit
  refine ⟨hslab, by rw [hst], Nat.zero_le _, by rw [hst]; rfl, ?_, by rw [hst]; rfl,
    by rw [hst]; rfl, ?_⟩
  · intro i region c _ hi
    cases hi
  · intro x _
    simp [cleared]

/-- After `initialize`, any calls of `add_region` with whole pages and of `alloc` with any
size return what the cursors reply.  The totals are the cursors' lengths and rests, and
outside `BLOCK_BUF` memory has changed only in that the granted ranges are zeroed. -/
theorem performAll_refines {blockBuf : U64} {mem : Mem} {st : State}
    (hobject : blockBuf.toNat + bufBytes ≤ 2 ^ 64)
    (hinit : pmmInitialize { mem := mem } blockBuf .firstFit = .ok st) {calls : List PageCall}
    (hsound : ∀ call ∈ calls, call.Sound blockBuf) :
    let replies := Front.replies ⟨[], []⟩ calls
    ∃ st', performAll st calls = .ok (replies.1, st') ∧
      (totalMemory st').toNat = capacity replies.2.cursors ∧
      (freeMemory st').toNat = room replies.2.cursors ∧
      ∀ x, ¬ Within x blockBuf bufBytes → st'.mem x = cleared st.mem replies.2.granted x := by
  obtain ⟨st', hcalls, h⟩ := (refines_init hobject hinit).performAll hsound
  exact ⟨st', hcalls, h.total, h.free, h.outside⟩

/-- Whole pages low in memory, with `BLOCK_BUF` in the kernel image. -/
theorem sound_of_pages {base size : U64} (hpages : WholePages base size) :
    PageCall.Sound 0xffffffff80100000 (.addRegion base size) := by
  have hhigh := hpages.high
  refine ⟨hpages, (Span.disjoint_iff hpages.size_pos (by decide)).mpr (.inl ?_)⟩
  change base.toNat + size.toNat ≤ 0xffffffff80100000
  omega

/-- The regions at `0x4000` and `0x8000`, and two requests: the first is granted from the
first region, and what it leaves there is too little for the second. -/
theorem performAll_refines_twoRegions :
    ∃ st st', pmmInitialize { mem := fun _ => 0 } 0xffffffff80100000 .firstFit = .ok st ∧
      performAll st [.addRegion 0x4000 0x3000, .addRegion 0x8000 0x2000, .alloc 0x1001 (some 0),
        .alloc 0x2000 (some 0)] = .ok ([(.ofCode .success, none), (.ofCode .success, none),
          (.ofCode .success, some 0x4000), (.ofCode .success, some 0x8000)], st') ∧
      (totalMemory st').toNat = 0x5000 ∧ (freeMemory st').toNat = 0x1000 := by
  obtain ⟨st, hinit⟩ := exists_initialize
  have hsound : ∀ call ∈ ([.addRegion 0x4000 0x3000, .addRegion 0x8000 0x2000,
      .alloc 0x1001 (some 0), .alloc 0x2000 (some 0)] : List PageCall),
      call.Sound 0xffffffff80100000 := by
    simp only [List.forall_mem_cons]
    exact ⟨sound_of_pages ⟨by decide, by decide, by decide, by decide, by decide⟩,
      sound_of_pages ⟨by decide, by decide, by decide, by decide, by decide⟩, trivial, trivial,
      by simp⟩
  obtain ⟨st', hcalls, htotal, hfree, -⟩ := performAll_refines (by decide) hinit hsound
  exact ⟨st, st', hinit, hcalls, htotal, hfree⟩

section Pages

/-- What a caller gets for an answer of the cursors. -/
def pageReply : Option Nat → Error × Option U64
  | none => (.ofCode .pmmOutOfMem, some 0)
  | some a => (.ofCode .success, some (BitVec.ofNat 64 a))

theorem alignUp_eq_pageSize {size : U64} (hpos : 0 < size.toNat) (hle : size.toNat ≤ pageBytes) :
    alignUp size pageSize = pageSize := by
  apply BitVec.eq_of_toNat_eq
  rw [pageBytes] at hle
  rw [alignUp_toNat pageSize_toNat (by omega), pageSize_toNat]
  omega

theorem Front.replies_alloc (front : Front) (size old : U64) (count : Nat) :
    (front.replies (List.replicate count (.alloc size (some old)))).1 =
      (serveEach (alignUp size pageSize).toNat count front.cursors).map pageReply := by
  induction count generalizing front with
  | zero => rfl
  | succ count ih =>
    rw [List.replicate_succ, Front.replies, serveEach]
    dsimp only
    rw [ih, Front.reply, Front.serve]
    cases Cursors.serve (alignUp size pageSize).toNat front.cursors with
    | none => rfl
    | some served => rfl

/-- Whatever has been entered and granted before, requests for one page get the pages
left, region after region in ascending order, and once these are used up every further
request is refused. -/
theorem pages_in_order {blockBuf : U64} {mem : Mem} {st : State} {calls : List PageCall}
    (hobject : blockBuf.toNat + bufBytes ≤ 2 ^ 64)
    (hinit : pmmInitialize { mem := mem } blockBuf .firstFit = .ok st)
    (hsound : ∀ call ∈ calls, call.Sound blockBuf) {size : U64} (hpos : 0 < size.toNat)
    (hle : size.toNat ≤ pageBytes) (old : U64) (count : Nat) :
    let pages := units pageBytes (Front.replies ⟨[], []⟩ calls).2.cursors
    ∃ replies st₁ st₂, performAll st calls = .ok (replies, st₁) ∧
      pageBytes * pages.length = (freeMemory st₁).toNat ∧
      performAll st₁ (List.replicate count (.alloc size (some old))) =
        .ok ((pages.take count).map (fun page => (.ofCode .success, some (BitVec.ofNat 64 page))) ++
          List.replicate (count - pages.length) (.ofCode .pmmOutOfMem, some 0), st₂) := by
  intro pages
  obtain ⟨st₁, hcalls, h₁⟩ := (refines_init hobject hinit).performAll hsound
  have hallocs : ∀ call ∈ List.replicate count (PageCall.alloc size (some old)),
      call.Sound blockBuf := by
    intro call hcall
    rw [List.eq_of_mem_replicate hcall]
    trivial
  obtain ⟨st₂, hpages, -⟩ := h₁.performAll hallocs
  have hwhole := h₁.room_dvd
  refine ⟨_, st₁, st₂, hcalls, ?_, ?_⟩
  · rw [freeMemory, h₁.free]
    exact length_units pageBytes hwhole
  · rw [hpages, Front.replies_alloc, alignUp_eq_pageSize hpos hle,
      show pageSize.toNat = pageBytes from rfl, serveEach_unit (by decide) count hwhole,
      List.map_append, List.map_map, List.map_replicate]
    rfl

/-- Two regions of one page each: the third request finds nothing. -/
theorem pages_in_order_twoPages :
    ∃ st replies st₁ st₂, pmmInitialize { mem := fun _ => 0 } 0xffffffff80100000 .firstFit =
        .ok st ∧
      performAll st [.addRegion 0x8000 0x1000, .addRegion 0x4000 0x1000] = .ok (replies, st₁) ∧
      performAll st₁ (List.replicate 3 (.alloc 0x10 (some 7))) =
        .ok ([(.ofCode .success, some 0x8000), (.ofCode .success, some 0x4000),
          (.ofCode .pmmOutOfMem, some 0)], st₂) := by
  obtain ⟨st, hinit⟩ := exists_initialize
  have hsound : ∀ call ∈ ([.addRegion 0x8000 0x1000, .addRegion 0x4000 0x1000] : List PageCall),
      call.Sound 0xffffffff80100000 := by
    simp only [List.forall_mem_cons]
    exact ⟨sound_of_pages ⟨by decide, by decide, by decide, by decide, by decide⟩,
      sound_of_pages ⟨by decide, by decide, by decide, by decide, by decide⟩, by simp⟩
  obtain ⟨replies, st₁, st₂, hcalls, -, hpages⟩ := pages_in_order (by decide) hinit hsound
    (show 0 < (0x10 : U64).toNat by decide) (by decide) 7 3
  exact ⟨st, replies, st₁, st₂, hinit, hcalls, hpages⟩

end Pages

end Octiron.Pmm
