import Octiron.Pmm.WornRuns

/-! How much a successful request gets.  The size is rounded up before any test, so
a size within a page of `2 ^ 64` is served as a request of no bytes at all. -/
namespace Octiron.Pmm

open Lib Lib.Word Lib.ByteMemory Lib.Span Exec

/-- A region's block lies in the region, unless its base has been zeroed. -/
def HeadContained (m : Mem) (region : MemoryRegion) : Prop :=
  region.freeBlocks = 0 ∨ blockBase m region.freeBlocks = 0 ∨
    Inside (blockSpan m region.freeBlocks) (regionSpan region)

structure Contained (st : State) : Prop where
  high : ∀ region ∈ st.regions, region.base.toNat + region.length.toNat ≤ 2 ^ 64
  free_le : ∀ region ∈ st.regions, region.freeBytes.toNat ≤ region.length.toNat
  heads : ∀ region ∈ st.regions, HeadContained st.mem region

/-- The search settles on this region, and its head's block passes everything the
call does with it. -/
structure Settles (st : State) (size alignment : U64) (ret : Option U64) (region : MemoryRegion) :
    Prop where
  reaches : Reaches st size alignment ret region
  fits :
    let base := blockBase st.mem region.freeBlocks
    ¬ base + blockLength st.mem region.freeBlocks <
      alignUp base alignment + alignUp size pageSize
  /-- `mem::fill` writes through null otherwise. -/
  nonnull : alignUp size pageSize = 0 ∨ alignUp (blockBase st.mem region.freeBlocks) alignment ≠ 0
  /-- A cut out of the middle takes a descriptor from a slab whose header is intact. -/
  descriptor :
    let base := blockBase st.mem region.freeBlocks
    base ≠ alignUp base alignment →
    base + blockLength st.mem region.freeBlocks >
      alignUp base alignment + alignUp size pageSize →
    load64 st.mem (st.blockAllocator.regions + 8) ≠ 0 ∧
      load64 st.mem (st.blockAllocator.regions + 16) ≠ 0

/-- What the tests let through on wrapped sums is right of the sums themselves: a
region entered ends by `2 ^ 64`, and a cut lies in the block it is made from. -/
def SoundSums (st : State) : Call → Prop
  | .addRegion base size => Admitted st base size →
      (alignUp base pageSize).toNat + (alignedLength base size).toNat ≤ 2 ^ 64
  | .allocAligned size alignment ret => ∀ region, Settles st size alignment ret region →
      let base := blockBase st.mem region.freeBlocks
      base.toNat ≤ (alignUp base alignment).toNat ∧
        (alignUp base alignment).toNat + (alignUp size pageSize).toNat ≤
          base.toNat + (blockLength st.mem region.freeBlocks).toNat

section Zeroed

variable {blockBuf : U64} {m : Mem} {region : MemoryRegion}

/-- Zeroing words of the buffer leaves a block in its region. -/
theorem HeadContained.fill {a : U64} {n k : Nat} (h : HeadContained m region)
    (hdesc : region.freeBlocks = descriptor blockBuf k) (haligned : 8 ∣ blockBuf.toNat)
    (hfit : blockBuf.toNat + bufBytes < 2 ^ 64) (hk : k < 64) (ha : 8 ∣ a.toNat) (hn : 8 ∣ n) :
    HeadContained (setRange m a n 0) region := by
  obtain ⟨hbase, hlength, -, -⟩ := descriptor_layout hfit hk
  rw [HeadContained, hdesc] at h ⊢
  rcases h with hzero | hnull | hin
  · exact .inl hzero
  · rcases @worn_setRange m a (descriptor blockBuf k) n ha (by omega) hn with hworn | hsame
    · exact .inr (.inl hworn)
    · exact .inr (.inl (hsame.trans hnull))
  · rcases @worn_setRange m a (descriptor blockBuf k) n ha (by omega) hn with hworn | hsame
    · exact .inr (.inl hworn)
    · obtain ⟨hlow, hhigh⟩ := hin
      rw [blockSpan] at hlow hhigh
      refine .inr (.inr ⟨?_, ?_⟩) <;> rw [blockSpan, blockBase, hsame]
      · exact hlow
      · rcases @worn_setRange m a (descriptor blockBuf k + 8) n ha (by omega) hn with hworn | hsame'
        · rw [blockLength, hworn]
          exact (Nat.add_le_add_left (Nat.zero_le _) _).trans hhigh
        · rw [blockLength, hsame']
          exact hhigh

/-- So does any change that keeps the descriptor's bytes. -/
theorem HeadContained.congr {m' : Mem} {k : Nat} (h : HeadContained m region)
    (hdesc : region.freeBlocks = descriptor blockBuf k)
    (hfit : blockBuf.toNat + bufBytes < 2 ^ 64) (hk : k < 64)
    (hsame : ∀ x, Within x (descriptor blockBuf k) 24 → m' x = m x) :
    HeadContained m' region := by
  have hspan := (fields_congr hfit hk hsame).1
  have hbase : blockBase m' (descriptor blockBuf k) = blockBase m (descriptor blockBuf k) :=
    BitVec.eq_of_toNat_eq (Span.mk.inj hspan).1
  rw [HeadContained, hdesc] at h ⊢
  rwa [hspan, hbase]

end Zeroed

theorem alignUp_zero (alignment : U64) : alignUp 0 alignment = 0 := by
  rw [alignUp, show (0 : U64) + alignment - 1 = alignment - 1 by simp, BitVec.and_not_self]

section Cut

variable {blockBuf : U64} {st : State} {used : Nat}

/-- The part of a block in front of a cut. -/
theorem inside_front {b n a size : U64} (hcut : Inside ⟨a.toNat, size.toNat⟩ ⟨b.toNat, n.toNat⟩) :
    Inside ⟨b.toNat, (a - b).toNat⟩ ⟨b.toNat, n.toNat⟩ := by
  obtain ⟨hlow, hhigh⟩ := hcut
  dsimp only at hlow hhigh
  refine ⟨le_rfl, ?_⟩
  dsimp only
  rw [BitVec.toNat_sub_of_le (by rw [BitVec.le_def]; exact hlow)]
  omega

/-- The part behind it.  Behind a block that ends at `2 ^ 64` the code sees none. -/
theorem inside_back {b n a size : U64} (hcut : Inside ⟨a.toNat, size.toNat⟩ ⟨b.toNat, n.toNat⟩)
    (hend : b.toNat + n.toNat ≤ 2 ^ 64) (hlast : b + n > a + size) :
    Inside ⟨(a + size).toNat, (b + n - (a + size)).toNat⟩ ⟨b.toNat, n.toNat⟩ := by
  obtain ⟨hlow, hhigh⟩ := hcut
  dsimp only at hlow hhigh
  rw [gt_iff_lt, BitVec.lt_def, BitVec.toNat_add, BitVec.toNat_add] at hlast
  have hlt : b.toNat + n.toNat < 2 ^ 64 := by
    refine lt_of_le_of_ne hend fun heq => ?_
    rw [heq, Nat.mod_self] at hlast
    omega
  have hcutEnd : (a + size).toNat = a.toNat + size.toNat := by
    rw [BitVec.toNat_add, Nat.mod_eq_of_lt (by omega)]
  have hblockEnd : (b + n).toNat = b.toNat + n.toNat := by
    rw [BitVec.toNat_add, Nat.mod_eq_of_lt hlt]
  refine ⟨?_, ?_⟩ <;> dsimp only <;> rw [hcutEnd]
  · omega
  · rw [BitVec.toNat_sub_of_le (by rw [BitVec.le_def, hcutEnd, hblockEnd]; exact hhigh),
      hblockEnd, hcutEnd]
    omega

/-- What a search that returns found: a block whose base has been zeroed and an empty
request, or a block of the region around the whole cut. -/
def CutsHead (st : State) (region : MemoryRegion) (a size : U64) : Prop :=
  (blockBase st.mem region.freeBlocks = 0 ∧ a = 0 ∧ size = 0) ∨
    (Inside (blockSpan st.mem region.freeBlocks) (regionSpan region) ∧
      Inside ⟨a.toNat, size.toNat⟩ (blockSpan st.mem region.freeBlocks))

/-- What stays of the block stays in the region. -/
theorem WornSplit.headContained {k used' : Nat} {region : MemoryRegion} {a size : U64}
    {split : SplitResult} (hsplit : WornSplit blockBuf st.mem used k a size split used')
    (hdesc : region.freeBlocks = descriptor blockBuf k) (hcuts : CutsHead st region a size)
    (hhigh : region.base.toNat + region.length.toNat ≤ 2 ^ 64) :
    HeadContained split.mem (cutRegion region split.freeBlocks size) := by
  rw [CutsHead, hdesc] at hcuts
  rcases hsplit.freeBlocks with hsame | hzero
  · refine .inr ?_
    rw [cutRegion, hsame]
    rcases hcuts with ⟨hnull, ha, hsize⟩ | ⟨hin, hcut⟩
    · rcases hsplit.kept hsame with ⟨hfront, -⟩ | ⟨-, -, hspan⟩
      · exact absurd (hnull.trans ha.symm) hfront
      · refine .inl (BitVec.eq_of_toNat_eq ((Span.mk.inj hspan).1.trans ?_))
        rw [ha, hsize]
        rfl
    · rcases hsplit.kept hsame with ⟨-, hspan⟩ | ⟨-, hlast, hspan⟩
      · exact .inr (hspan ▸ (inside_front hcut).trans hin)
      · exact .inr (hspan ▸ (inside_back hcut (hin.2.trans hhigh) hlast).trans hin)
  · exact .inl hzero

/-- After the head has been shortened the slab has a descriptor exactly when its header
is intact. -/
theorem WornSlab.alloc_iff {s : Slab.SlabAlloc} {m : Mem} {k : Nat} {v : U64}
    (h : WornSlab blockBuf s m used) (hk : k < used) (hused : used < 64) :
    (∃ extra slab m', extra ≠ 0 ∧ Slab.alloc memoryBlock s
        (setBlockLength m (descriptor blockBuf k) v) = .ok (extra, slab, m')) ↔
      load64 m (blockBuf + 8) ≠ 0 ∧ load64 m (blockBuf + 16) ≠ 0 := by
  have hfit := h.fits
  have hk64 : k < 64 := hk.trans hused
  obtain ⟨h8, h16, -, hend⟩ := header_layout hfit
  obtain ⟨-, -, hnext, honly⟩ := setBlockLength_spec hfit (m := m) hk64 v
  have hslab := h.onlyDescriptor hk honly (hnext.trans (h.next k hk))
  rw [← honly.load hfit hk64 (a := blockBuf + 8) (by omega) (by omega),
    ← honly.load hfit hk64 (a := blockBuf + 16) (by omega) (by omega)]
  constructor
  · rintro ⟨extra, slab, m', hextra, halloc⟩
    obtain ⟨-, -, -, -, hfree, -⟩ := slabAlloc_cases hslab halloc hextra
    refine ⟨hfree, fun hzero => ?_⟩
    rw [slabAlloc_stops hslab hused hfree hzero] at halloc
    cases halloc
  · rintro ⟨hfree, hblocks⟩
    obtain ⟨slab, m', halloc, -⟩ := slabAlloc_worn hslab hused hfree hblocks
    exact ⟨_, slab, m', descriptor_ne_zero hfit hused.le, halloc⟩

/-- With sixteen descriptors left there is a next one. -/
theorem WornSlab.used_lt {s : Slab.SlabAlloc} {m : Mem} (h : WornSlab blockBuf s m used)
    (hfree : ¬ s.free < 16) : used < 64 := by
  refine lt_of_le_of_ne h.used_le fun heq => hfree ?_
  rw [h.free_eq, heq]
  decide

/-- A search that returns has settled on its region. -/
theorem settles_of_returns {i : Nat} {region : MemoryRegion} {size alignment : U64} {err : Error}
    {ret ret' : Option U64} {st' : State} (h : WornInv blockBuf st used)
    (hreach : Reaches st size alignment ret region) (hi : st.regions[i]? = some region)
    (hcall : allocFromRegion st i region (alignUp size pageSize) alignment = .ok (err, ret', st')) :
    Settles st size alignment ret region := by
  have hhead := hreach.room.2
  obtain ⟨hfits, -, hnonnull, k, -, -, hk, hdesc, -, -⟩ := allocFromRegion_worn h hi hhead hcall
  refine ⟨hreach, hfits, hnonnull, ?_⟩
  obtain ⟨split, hsplit, -⟩ := bind_eq_ok.mp hcall
  rw [if_neg hfits, if_neg hfits] at hsplit
  intro base hfront htail
  obtain ⟨-, hmiddle | ⟨-, hnot, -⟩ | ⟨hsame, -⟩ | ⟨hsame, -⟩⟩ := splitBlock_cases hsplit
  · obtain ⟨-, -, extra, slab, m, hextra, halloc, -⟩ := hmiddle
    rw [h.slab.regions_eq]
    rw [hdesc] at halloc
    exact (h.slab.alloc_iff hk (h.slab.used_lt hreach.descriptors)).mp ⟨_, _, _, hextra, halloc⟩
  · exact absurd htail hnot
  · exact absurd hsame hfront
  · exact absurd hsame hfront

/-- A search that settles on a region cuts its head, when the sums are sound. -/
theorem Settles.cutsHead {region : MemoryRegion} {size alignment : U64} {ret : Option U64}
    (h : Settles st size alignment ret region) (hcontained : Contained st)
    (hcall : SoundSums st (.allocAligned size alignment ret)) :
    CutsHead st region (alignUp (blockBase st.mem region.freeBlocks) alignment)
      (alignUp size pageSize) := by
  have hregion := List.mem_of_find?_eq_some h.reaches.found
  have hhead := h.reaches.room.2
  by_cases hnull : blockBase st.mem region.freeBlocks = 0
  · have hzero := h.nonnull
    rw [hnull, alignUp_zero] at hzero ⊢
    exact .inl ⟨hnull, rfl, hzero.resolve_right fun hne => hne rfl⟩
  · have hin := ((hcontained.heads region hregion).resolve_left hhead).resolve_left hnull
    exact .inr ⟨hin, hcall region h⟩

/-- A grant and its zeroing leave every block in its region. -/
theorem Contained.granted {i k used' : Nat} {region : MemoryRegion} {a size : U64}
    {split : SplitResult} (hcontained : Contained st) (h : WornInv blockBuf st used)
    (hi : st.regions[i]? = some region) (hhead : region.freeBlocks ≠ 0)
    (hdesc : region.freeBlocks = descriptor blockBuf k) (hk : k < used)
    (hsplit : WornSplit blockBuf st.mem used k a size split used')
    (hcuts : CutsHead st region a size) (hsize : ¬ region.freeBytes < size) (ha : 8 ∣ a.toNat)
    (hwords : 8 ∣ size.toNat) : Contained (grantedState st i region split a size) := by
  have hfit := h.slab.fits
  have hused := h.slab.used_le
  have hmem := List.mem_of_getElem? hi
  have hnew : ∀ r ∈ (grantedState st i region split a size).regions,
      r = cutRegion region split.freeBlocks size ∨
        ∃ n, n ≠ i ∧ st.regions[n]? = some r := by
    intro r hr
    obtain ⟨n, hn⟩ := List.getElem?_of_mem hr
    rcases getElem?_set_cases hn with ⟨-, hcut⟩ | ⟨hni, hold⟩
    · exact .inl hcut
    · exact .inr ⟨n, hni, hold⟩
  refine ⟨?_, ?_, ?_⟩
  · intro r hr
    rcases hnew r hr with rfl | ⟨n, -, hold⟩
    · exact hcontained.high region hmem
    · exact hcontained.high r (List.mem_of_getElem? hold)
  · intro r hr
    rcases hnew r hr with rfl | ⟨n, -, hold⟩
    · have hle := hcontained.free_le region hmem
      rw [BitVec.lt_def, Nat.not_lt] at hsize
      dsimp only [cutRegion]
      rw [BitVec.toNat_sub_of_le (by rw [BitVec.le_def]; exact hsize)]
      omega
    · exact hcontained.free_le r (List.mem_of_getElem? hold)
  · intro r hr
    rcases hnew r hr with rfl | ⟨n, hni, hold⟩
    · rcases hsplit.freeBlocks with hsame | hzero
      · exact (hsplit.headContained hdesc hcuts (hcontained.high region hmem)).fill hsame h.slab.aligned hfit
          (hk.trans_le hused) ha hwords
      · exact .inl hzero
    · rcases h.heads r (List.mem_of_getElem? hold) with hzero | ⟨j, hj, hr⟩
      · exact .inl hzero
      · have hother : j ≠ k := by
          rintro rfl
          rcases h.lists n i r region hold hi hni with hzero | hdiff
          · exact hhead (hdesc.trans (hr.symm.trans hzero))
          · exact hdiff (hr.trans hdesc.symm)
        have hj64 : j < 64 := hj.trans_le hused
        exact ((hcontained.heads r (List.mem_of_getElem? hold)).congr hr hfit hj64
          (hsplit.others j hj hother)).fill hr h.slab.aligned hfit hj64 ha hwords

/-- Entering a region that ends by `2 ^ 64`. -/
theorem Contained.entered {st' : State} {base size : U64} {err : Error} (hcontained : Contained st)
    (h : WornInv blockBuf st used)
    (hhigh : (alignUp base pageSize).toNat + (alignedLength base size).toNat ≤ 2 ^ 64)
    (hcall : insertRegion st (alignUp base pageSize) (alignedLength base size) = .ok (err, st')) :
    Contained st' := by
  have hfit := h.slab.fits
  have hused := h.slab.used_le
  obtain ⟨hused', -, hsame, hspan, hregions⟩ := insertRegion_worn h hcall
  have hnew : ∀ r ∈ st'.regions, r ∈ st.regions ∨ r = ⟨alignUp base pageSize,
      alignedLength base size, alignedLength base size, descriptor blockBuf (used + 1)⟩ := by
    intro r hr
    rwa [hregions, List.mem_append, List.mem_singleton] at hr
  refine ⟨?_, ?_, ?_⟩
  · intro r hr
    rcases hnew r hr with hold | rfl
    · exact hcontained.high r hold
    · exact hhigh
  · intro r hr
    rcases hnew r hr with hold | rfl
    · exact hcontained.free_le r hold
    · exact le_rfl
  · intro r hr
    rcases hnew r hr with hold | rfl
    · rcases h.heads r hold with hzero | ⟨j, hj, hr⟩
      · exact .inl hzero
      · exact (hcontained.heads r hold).congr hr hfit (hj.trans_le hused) (hsame j hj)
    · refine .inr (.inr ?_)
      rw [hspan]
      exact ⟨le_rfl, le_rfl⟩

theorem eight_dvd_pages (size : U64) : 8 ∣ (alignUp size pageSize).toNat :=
  (by decide : 8 ∣ 2 ^ 12).trans (dvd_alignUp pageSize_toNat)

theorem Contained.step {st' : State} {call : Call} (hcontained : Contained st)
    (h : WornInv blockBuf st used) (hcall : SoundSums st call) (hreturns : Returns st call st') :
    Contained st' := by
  rcases hreturns.cases with rfl | ⟨base, size, rfl, hadmitted, hinsert⟩ |
    ⟨size, alignment, ret, i, region, ret', rfl, hi, hreach, hsearch⟩
  · exact hcontained
  · exact hcontained.entered h (hcall hadmitted) hinsert
  · obtain ⟨hbytes, hhead⟩ := hreach.room
    have hcuts := (settles_of_returns h hreach hi hsearch).cutsHead hcontained hcall
    obtain ⟨-, -, -, k, used', split, hk, hdesc, hsplit, rfl⟩ :=
      allocFromRegion_worn h hi hhead hsearch
    exact hcontained.granted h hi hhead hdesc hk hsplit hcuts hbytes
      (eight_dvd_alignUp hreach.alignment _) (eight_dvd_pages size)

/-- The sums of a region of physical memory are sound. -/
theorem soundSums_of_below {size alignment : U64} {ret : Option U64} (hcontained : Contained st)
    (hbelow : ∀ region ∈ st.regions, region.base.toNat + region.length.toNat ≤ 2 ^ 56) :
    SoundSums st (.allocAligned size alignment ret) := by
  intro region hsettles
  have hreach := hsettles.reaches
  have hfits := hsettles.fits
  obtain ⟨k, hk⟩ := exponent_of_badAlignment hreach.alignment
  obtain ⟨hbytes, hhead⟩ := hreach.room
  have hregion := List.mem_of_find?_eq_some hreach.found
  have hhigh := hbelow region hregion
  have hfree := hcontained.free_le region hregion
  rw [BitVec.lt_def, Nat.not_lt] at hbytes
  dsimp only at hfits ⊢
  by_cases hnull : blockBase st.mem region.freeBlocks = 0
  · have hzero := hsettles.nonnull
    rw [hnull, alignUp_zero] at hzero ⊢
    rw [hzero.resolve_right fun hne => hne rfl, show (0 : U64).toNat = 0 from rfl]
    omega
  · have hin := ((hcontained.heads region hregion).resolve_left hhead).resolve_left hnull
    have hend : (blockBase st.mem region.freeBlocks).toNat +
        (blockLength st.mem region.freeBlocks).toNat ≤ 2 ^ 56 := hin.2.trans hhigh
    have hpow := exponent_le hk
    have hup := @alignUp_lt (blockBase st.mem region.freeBlocks) _ _ hk (by omega)
    refine ⟨le_alignUp hk (by omega), ?_⟩
    rwa [BitVec.lt_def, BitVec.toNat_add, BitVec.toNat_add, Nat.mod_eq_of_lt (by omega),
      Nat.mod_eq_of_lt (by omega), Nat.not_lt] at hfits

end Cut

section Serve

variable {blockBuf : U64} {st : State} {used : Nat} {size alignment old : U64}

end Serve

end Octiron.Pmm
