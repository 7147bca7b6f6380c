import Octiron.Pmm.Overlap
import Octiron.Pmm.WornRuns

/-! The second descriptor of `add_region` is never tested.  When the first one was
the last of the slab, the region's block is written through null. -/
namespace Octiron.Pmm

open Lib Lib.Word Lib.ByteMemory Lib.Span Exec

/-- Past its tests the call gets a first descriptor and null for the region's
block, and ends by writing to it. -/
def WritesThroughNull (st : State) (base size : U64) : Prop :=
  Admitted st base size ∧ addRegion st base size = .error .nullDeref ∧
    ∃ first slab₁ m₁ slab m₂, first ≠ 0 ∧
      Slab.alloc memoryBlock st.blockAllocator st.mem = .ok (first, slab₁, m₁) ∧
      Slab.alloc memoryBlock slab₁ m₁ = .ok (0, slab, m₂)

/-- One descriptor is left, and no grant has zeroed the slab's header. -/
structure LastDescriptor (st : State) : Prop where
  free : st.blockAllocator.free = 1
  header_free : load64 st.mem (st.blockAllocator.regions + 8) ≠ 0
  header_blocks : load64 st.mem (st.blockAllocator.regions + 16) ≠ 0

section Exhausted

variable {blockBuf : U64} {st : State} {used : Nat} {base size : U64}

theorem ofNat_eq_one_iff (hused : used ≤ 64) : BitVec.ofNat 64 (64 - used) = 1 ↔ used = 63 := by
  rw [← BitVec.toNat_inj, BitVec.toNat_ofNat, Nat.mod_eq_of_lt (by omega),
    show (1 : U64).toNat = 1 from rfl]
  omega

theorem WornInv.lastDescriptor_iff (h : WornInv blockBuf st used) :
    LastDescriptor st ↔ used = 63 ∧ load64 st.mem (blockBuf + 8) ≠ 0 ∧
      load64 st.mem (blockBuf + 16) ≠ 0 := by
  have hused := h.slab.used_le
  constructor
  · rintro ⟨hfree, hcount, hblocks⟩
    rw [h.slab.free_eq, ofNat_eq_one_iff hused] at hfree
    rw [h.slab.regions_eq] at hcount hblocks
    exact ⟨hfree, hcount, hblocks⟩
  · rintro ⟨hlast, hcount, hblocks⟩
    refine ⟨?_, ?_, ?_⟩
    · rw [h.slab.free_eq, ofNat_eq_one_iff hused, hlast]
    · rw [h.slab.regions_eq]
      exact hcount
    · rw [h.slab.regions_eq]
      exact hblocks

/-- With one descriptor left an admitted call writes through null. -/
theorem WornInv.writesThroughNull (h : WornInv blockBuf st used)
    (hadmitted : Admitted st base size) (hlast : LastDescriptor st) :
    WritesThroughNull st base size := by
  obtain ⟨hused, hcount, hblocks⟩ := h.lastDescriptor_iff.mp hlast
  subst hused
  obtain ⟨slab₁, m₁, halloc₁, hslab₁, -, -⟩ := slabAlloc_worn h.slab (by decide) hcount hblocks
  have halloc₂ := slabAlloc_null hslab₁ (.inl rfl)
  have hfirst := descriptor_ne_zero h.slab.fits (k := 63) (by decide)
  refine ⟨hadmitted, ?_, _, slab₁, m₁, slab₁, m₁, hfirst, halloc₁, halloc₂⟩
  have hassert : (descriptor blockBuf 63 != 0) = true := bne_iff_ne.mpr hfirst
  rw [hadmitted.addRegion, insertRegion]
  simp only [halloc₁, ok_bind, hassert, kassert_true, halloc₂, deref_zero, error_bind]

/-- The second answer is null only when the first took the last descriptor. -/
theorem WornInv.lastDescriptor_of_null (h : WornInv blockBuf st used) {first : U64}
    {slab₁ slab : Slab.SlabAlloc} {m₁ m₂ : Mem} (hfirst : first ≠ 0)
    (halloc₁ : Slab.alloc memoryBlock st.blockAllocator st.mem = .ok (first, slab₁, m₁))
    (halloc₂ : Slab.alloc memoryBlock slab₁ m₁ = .ok (0, slab, m₂)) : LastDescriptor st := by
  obtain ⟨hused, -, hslab₁, -, hcount, hcount₁⟩ := slabAlloc_cases h.slab halloc₁ hfirst
  have hblocks : load64 st.mem (blockBuf + 16) ≠ 0 := by
    intro hzero
    rw [slabAlloc_stops h.slab hused hcount hzero] at halloc₁
    cases halloc₁
  refine h.lastDescriptor_iff.mpr ⟨?_, hcount, hblocks⟩
  by_contra hmore
  have hused₁ : used + 1 < 64 := by omega
  have hcount₁' : load64 m₁ (blockBuf + 8) ≠ 0 := hcount₁ ▸ ofNat_ne_zero hused₁
  by_cases hblocks₁ : load64 m₁ (blockBuf + 16) = 0
  · rw [slabAlloc_stops hslab₁ hused₁ hcount₁' hblocks₁] at halloc₂
    cases halloc₂
  · obtain ⟨_, _, halloc, -⟩ := slabAlloc_worn hslab₁ hused₁ hcount₁' hblocks₁
    rw [halloc] at halloc₂
    exact descriptor_ne_zero hslab₁.fits hused₁.le (ok_pair_inj halloc₂).1

end Exhausted

/-- From any reachable state, `add_region` stays off the missing descriptor exactly
when it is refused or the slab is not down to its last one. -/
theorem not_writesThroughNull_iff {blockBuf : U64} {st : State} (hrun : Reachable blockBuf st)
    (base size : U64) :
    ¬ WritesThroughNull st base size ↔ ¬ (Admitted st base size ∧ LastDescriptor st) := by
  obtain ⟨used, hinv⟩ := hrun.wornInv
  refine not_congr ⟨?_, fun ⟨hadmitted, hlast⟩ => hinv.writesThroughNull hadmitted hlast⟩
  rintro ⟨hadmitted, -, first, slab₁, m₁, slab, m₂, hfirst, halloc₁, halloc₂⟩
  exact ⟨hadmitted, hinv.lastDescriptor_of_null hfirst halloc₁ halloc₂⟩

/-- A fresh slab is not down to its last descriptor. -/
theorem not_writesThroughNull_iff_fresh :
    ∃ st, Reachable 0xffffffff80100000 st ∧ ¬ WritesThroughNull st 0x1000 0x3000 := by
  obtain ⟨st, hinit⟩ := exists_initialize
  have hstart : Initialized 0xffffffff80100000 st := ⟨by decide, _, _, hinit⟩
  have hrun : Reachable 0xffffffff80100000 st := .start hstart
  refine ⟨st, hrun, (not_writesThroughNull_iff hrun 0x1000 0x3000).mpr ?_⟩
  rintro ⟨-, hlast⟩
  exact absurd (hstart.wornInv.lastDescriptor_iff.mp hlast).1 (by decide)

section Exhaust

variable {blockBuf : U64} {st : State} {i : Nat}

/-- One region of `2 ^ 48 - 0x1000` bytes, whose block has been cut down `i` times. -/
structure CutDown (blockBuf : U64) (st : State) (i : Nat) : Prop where
  slab : SlabInv blockBuf st.blockAllocator st.mem (2 + i)
  pol : st.pol = .firstFit
  regions : st.regions = [⟨0x1000, 0xfffffffff000, 0xfffffffff000, descriptor blockBuf 1⟩]
  block : blockSpan st.mem (descriptor blockBuf 1) = ⟨0x1000, 2 ^ (48 - i) - 0x1000⟩
  next : blockNext st.mem (descriptor blockBuf 1) = 0

/-- Where the next cut is made. -/
def cutAt (i : Nat) : U64 := BitVec.ofNat 64 (2 ^ (47 - i))

theorem cutAlignment_valid :
    ∀ i < 33, badAlignment (cutAt i) = false ∧ alignUp 0x1000 (cutAt i) = cutAt i := by
  decide

theorem CutDown.head (h : CutDown blockBuf st i) :
    blockBase st.mem (descriptor blockBuf 1) = 0x1000 ∧
      (blockLength st.mem (descriptor blockBuf 1)).toNat = 2 ^ (48 - i) - 0x1000 := by
  have hspan := Span.mk.inj h.block
  exact ⟨BitVec.eq_of_toNat_eq hspan.1, hspan.2⟩

theorem cutAt_toNat (hi : i < 33) :
    (cutAt i).toNat = 2 ^ (47 - i) ∧ 2 ^ (48 - i) = 2 * (cutAt i).toNat ∧
      2 ^ 15 ≤ (cutAt i).toNat ∧ (cutAt i).toNat ≤ 2 ^ 47 := by
  have hlow : 2 ^ 15 ≤ 2 ^ (47 - i) := Nat.pow_le_pow_right (by decide) (by omega)
  have hhigh : 2 ^ (47 - i) ≤ 2 ^ 47 := Nat.pow_le_pow_right (by decide) (by omega)
  have hnat : (cutAt i).toNat = 2 ^ (47 - i) := toNat_ofNat_of_lt (by omega)
  rw [hnat, show 48 - i = 47 - i + 1 by omega, Nat.pow_succ']
  exact ⟨rfl, rfl, hlow, hhigh⟩

/-- The cut lies inside the block: something is left before it and behind it. -/
theorem CutDown.middle (h : CutDown blockBuf st i) (hi : i < 33) :
    let n := blockLength st.mem (descriptor blockBuf 1)
    (0x1000 : U64) ≠ cutAt i ∧ 0x1000 + n > cutAt i + 0 ∧ ¬ 0x1000 + n < cutAt i + 0 := by
  intro n
  obtain ⟨-, hpow, hlow, hhigh⟩ := cutAt_toNat hi
  have hend : (0x1000 + n).toNat = 2 ^ (48 - i) := by
    rw [BitVec.toNat_add, h.head.2, show (0x1000 : U64).toNat = 4096 from rfl,
      Nat.mod_eq_of_lt (by omega)]
    omega
  have hsum : cutAt i + 0 = cutAt i := by simp
  rw [hsum]
  refine ⟨fun heq => ?_, ?_, ?_⟩
  · rw [← heq, show (0x1000 : U64).toNat = 4096 from rfl] at hlow
    omega
  · rw [gt_iff_lt, BitVec.lt_def, hend]
    omega
  · rw [BitVec.lt_def, hend]
    omega

/-- A cut of no bytes in the middle of the block takes one descriptor. -/
theorem CutDown.split (h : CutDown blockBuf st i) (hi : i < 33) :
    ∃ split, splitBlock st (descriptor blockBuf 1) 0 (descriptor blockBuf 1) 0x1000
        (blockLength st.mem (descriptor blockBuf 1)) (cutAt i) 0 = .ok split ∧
      SplitOk blockBuf st.mem (2 + i) 1 ⟨(cutAt i).toNat, 0⟩ split (2 + i + 1) ∧
      split.freeBlocks = descriptor blockBuf 1 ∧
      blockSpan split.mem (descriptor blockBuf 1) = ⟨0x1000, (cutAt i).toNat - 0x1000⟩ := by
  have hfit := h.slab.fits
  have hne := descriptor_ne_zero hfit (k := 1) (by decide)
  obtain ⟨hbase, hlength⟩ := h.head
  obtain ⟨-, hpow, hlow, hhigh⟩ := cutAt_toNat hi
  obtain ⟨hpre, hpost, -⟩ := h.middle hi
  obtain ⟨-, -, -, honly⟩ :=
    setBlockLength_spec hfit (m := st.mem) (k := 1) (by decide) (cutAt i - 0x1000)
  obtain ⟨slab, m₂, halloc, hslab₂, -⟩ :=
    slabAlloc_spec (h.slab.onlyDescriptor (by omega) honly) (by omega)
  obtain ⟨split, hsplit, hsame⟩ := @splitBlock_returns st _ 0x1000
    (blockLength st.mem (descriptor blockBuf 1)) (cutAt i) 0 _ _ _ hne
    (descriptor_ne_zero hfit (by omega)) halloc
  have hcut := hsplit
  rw [← hbase] at hcut
  obtain ⟨used', hok⟩ := splitBlock_spec h.slab (by omega) (by omega) h.next
    (by rw [hbase, show (0x1000 : U64).toNat = 4096 from rfl]; omega)
    (by rw [hbase, hlength, show (0x1000 : U64).toNat = 4096 from rfl]; simp; omega)
    (by rw [hbase, hlength, show (0x1000 : U64).toNat = 4096 from rfl]; omega) hcut
  have hcount : used' = 2 + i + 1 := by
    have hfree := hok.slab.free_eq
    rw [hsame hpre hpost, hslab₂.free_eq, ← BitVec.toNat_inj, BitVec.toNat_ofNat,
      BitVec.toNat_ofNat, Nat.mod_eq_of_lt (by omega), Nat.mod_eq_of_lt (by omega)] at hfree
    have hused' := hok.slab.used_le
    omega
  subst hcount
  have hheld := hok.held
  rw [h.block, keptByCut, if_pos (by dsimp only; omega)] at hheld
  have hhead : split.freeBlocks = descriptor blockBuf 1 := by
    rcases hok.freeBlocks with hsame | hzero
    · exact hsame
    · rw [hzero, heldAt_zero] at hheld
      cases hheld
  rw [hhead, heldAt_of_ne hne] at hheld
  exact ⟨split, hsplit, hok, hhead, (List.cons.inj hheld).1⟩

/-- A request of no bytes at that place returns, and leaves the block cut down once more. -/
theorem CutDown.step (h : CutDown blockBuf st i) (hi : i < 33) :
    ∃ st', Returns st (.allocAligned 0 (cutAt i) (some 0)) st' ∧ CutDown blockBuf st' (i + 1) := by
  obtain ⟨hvalid, hup⟩ := cutAlignment_valid i hi
  obtain ⟨split, hsplit, hok, hhead, hspan⟩ := h.split hi
  obtain ⟨-, -, hfits⟩ := h.middle hi
  have hbase := h.head.1
  have hne := descriptor_ne_zero h.slab.fits (k := 1) (by decide)
  have hzero : ∀ v : U64, ¬ v < 0 := by simp [BitVec.lt_def]
  let region : MemoryRegion := ⟨0x1000, 0xfffffffff000, 0xfffffffff000, descriptor blockBuf 1⟩
  have hsearch : allocFromRegion st 0 region 0 (cutAt i) =
      .ok (.ofCode .success, some (cutAt i), cutState st 0 region split 0) := by
    unfold allocFromRegion
    simp only [region, hbase, hup, hfits, if_false, hsplit, ok_bind]
    rfl
  refine ⟨cutState st 0 region split 0, ⟨.ofCode .success, some (cutAt i), ?_⟩, hok.slab, h.pol,
    ?_, ?_, hok.next.trans h.next⟩
  · have hfree : ¬ st.blockAllocator.free < 16 := by
      rw [h.slab.free_eq, BitVec.lt_def, BitVec.toNat_ofNat, Nat.mod_eq_of_lt (by omega),
        show (16 : U64).toNat = 16 from rfl]
      omega
    rw [perform, allocAligned, show alignUp 0 pageSize = 0 by decide, if_neg (by decide), hvalid,
      if_neg (by decide), if_neg (hzero _), if_neg hfree, if_neg (not_not.mpr h.pol),
      h.regions, searchRegions, if_neg (hzero _), if_neg hne]
    exact hsearch
  · rw [cutState, h.regions, hhead]
    simp [cutRegion, region]
  · refine hspan.trans ?_
    rw [(cutAt_toNat hi).1, show 48 - (i + 1) = 47 - i by omega]

/-- `33` cuts, and `i` regions entered since, one page each. -/
structure FilledUp (blockBuf : U64) (st : State) (i : Nat) : Prop where
  slab : SlabInv blockBuf st.blockAllocator st.mem (35 + 2 * i)
  count : st.regions.length = 1 + i
  below : ∀ region ∈ st.regions, region.base.toNat + region.length.toNat < 2 ^ 50 + i * 2 ^ 13

def nextBase (i : Nat) : U64 := BitVec.ofNat 64 (2 ^ 50 + i * 2 ^ 13)

theorem nextBase_toNat (hi : i < 15) : (nextBase i).toNat = 2 ^ 50 + i * 2 ^ 13 :=
  toNat_ofNat_of_lt (by omega)

/-- The next page is above every region, with a page to spare. -/
theorem FilledUp.admitted (h : FilledUp blockBuf st i) (hi : i < 15) :
    WholePages (nextBase i) 0x1000 ∧ Admitted st (nextBase i) 0x1000 := by
  have hbase := nextBase_toNat hi
  have hpages : WholePages (nextBase i) 0x1000 := by
    refine ⟨fun hzero => ?_, ?_, by decide, by decide, ?_⟩
    · rw [hzero] at hbase
      simp at hbase
      omega
    · rw [hbase, pageBytes]
      omega
    · rw [hbase, show (0x1000 : U64).toNat = 4096 from rfl]
      omega
  refine ⟨hpages, hpages.base_ne, ?_, hpages.sizeTests, ?_⟩
  · rw [h.count, regionCountMax]
    omega
  · rw [hpages.alignUp_base, List.any_eq_false]
    intro region hregion
    have hbelow := h.below region hregion
    rw [managesBase, Bool.and_eq_true, decide_eq_true_eq, decide_eq_true_eq, BitVec.le_def,
      BitVec.le_def, BitVec.toNat_add, Nat.mod_eq_of_lt (by omega), hbase]
    omega

/-- Another region takes two descriptors. -/
theorem FilledUp.step (h : FilledUp blockBuf st i) (hi : i < 14) :
    ∃ st', Returns st (.addRegion (nextBase i) 0x1000) st' ∧ FilledUp blockBuf st' (i + 1) := by
  obtain ⟨hpages, hadmitted⟩ := h.admitted (Nat.lt_succ_of_lt hi)
  obtain ⟨st', hinsert⟩ := @insertRegion_returns st (nextBase i) 0x1000 _ _ h.slab (by omega)
  have hcall := hadmitted.addRegion
  rw [hpages.alignUp_base, hpages.alignedLength, hinsert] at hcall
  obtain ⟨-, -, hslab, -, -, -, -, hst'⟩ := insertRegion_spec h.slab hinsert
  have hregions : st'.regions = st.regions ++
      [⟨nextBase i, 0x1000, 0x1000, descriptor blockBuf (35 + 2 * i + 1)⟩] := by
    rw [hst']
  have hnext : 2 ^ 50 + i * 2 ^ 13 < 2 ^ 50 + (i + 1) * 2 ^ 13 := by omega
  refine ⟨st', returns_addRegion hcall, hslab, ?_, ?_⟩
  · rw [hregions, List.length_append, List.length_singleton, h.count, Nat.add_assoc]
  · intro region hregion
    rw [hregions, List.mem_append, List.mem_singleton] at hregion
    rcases hregion with hold | rfl
    · exact (h.below region hold).trans hnext
    · dsimp only
      rw [nextBase_toNat (by omega), show (0x1000 : U64).toNat = 4096 from rfl]
      omega

theorem exists_cutDown (hstart : Reachable blockBuf st) (h : CutDown blockBuf st 0) :
    ∀ i ≤ 33, ∃ st, Reachable blockBuf st ∧ CutDown blockBuf st i := by
  intro i hi
  induction i with
  | zero => exact ⟨st, hstart, h⟩
  | succ i ih =>
    obtain ⟨st, hrun, hcut⟩ := ih (Nat.le_of_succ_le hi)
    obtain ⟨st', hreturns, hcut'⟩ := hcut.step hi
    exact ⟨st', Runs.RunWhere.next hrun trivial hreturns, hcut'⟩

theorem exists_filledUp (hstart : Reachable blockBuf st) (h : FilledUp blockBuf st 0) :
    ∀ i ≤ 14, ∃ st, Reachable blockBuf st ∧ FilledUp blockBuf st i := by
  intro i hi
  induction i with
  | zero => exact ⟨st, hstart, h⟩
  | succ i ih =>
    obtain ⟨st, hrun, hfilled⟩ := ih (Nat.le_of_succ_le hi)
    obtain ⟨st', hreturns, hfilled'⟩ := hfilled.step hi
    exact ⟨st', Runs.RunWhere.next hrun trivial hreturns, hfilled'⟩

end Exhaust

/-- One region, 33 empty requests cut out of its middle and 14 regions more leave
one descriptor; the next page offered is written through null. -/
theorem exists_writesThroughNull :
    ∃ st, Reachable 0xffffffff80100000 st ∧ WholePages (nextBase 14) 0x1000 ∧
      addRegion st (nextBase 14) 0x1000 = .error .nullDeref ∧
      WritesThroughNull st (nextBase 14) 0x1000 := by
  obtain ⟨st₀, hinit⟩ := exists_initialize
  obtain ⟨hst₀, hslab₀⟩ := pmmInitialize_spec rfl (by decide) hinit
  have hempty : st₀.regions = [] := by rw [hst₀]
  have hpages : WholePages 0x1000 0xfffffffff000 :=
    ⟨by decide, by decide, by decide, by decide, by decide⟩
  have hadmitted : Admitted st₀ 0x1000 0xfffffffff000 :=
    ⟨hpages.base_ne, by rw [hempty]; decide, hpages.sizeTests, by rw [hempty]; rfl⟩
  obtain ⟨st₁, hinsert⟩ := @insertRegion_returns st₀ 0x1000 0xfffffffff000 _ _ hslab₀ (by decide)
  have hcall := hadmitted.addRegion
  rw [hpages.alignUp_base, hpages.alignedLength, hinsert] at hcall
  have hrun₁ : Reachable 0xffffffff80100000 st₁ :=
    Runs.RunWhere.next (.start ⟨by decide, _, _, hinit⟩) trivial (returns_addRegion hcall)
  obtain ⟨-, -, hslab, -, -, hspan, hnext, hst₁⟩ := insertRegion_spec hslab₀ hinsert
  have hcut : CutDown 0xffffffff80100000 st₁ 0 :=
    ⟨hslab, by rw [hst₁, hst₀], by rw [hst₁, hempty]; rfl, hspan, hnext⟩
  obtain ⟨st₂, hrun₂, hcut⟩ := exists_cutDown hrun₁ hcut 33 le_rfl
  have hfilled : FilledUp 0xffffffff80100000 st₂ 0 := by
    refine ⟨hcut.slab, by rw [hcut.regions]; rfl, ?_⟩
    intro region hregion
    rw [hcut.regions, List.mem_singleton] at hregion
    rw [hregion]
    decide
  obtain ⟨st, hrun, hfilled⟩ := exists_filledUp hrun₂ hfilled 14 le_rfl
  obtain ⟨used, hinv⟩ := hrun.wornInv
  obtain ⟨hpages, hadmitted⟩ := hfilled.admitted (by decide)
  have hlast : LastDescriptor st := by
    have hblocks := hfilled.slab.header_blocks
    rw [← hfilled.slab.regions_eq] at hblocks
    refine ⟨hfilled.slab.free_eq, ?_, ?_⟩
    · rw [hfilled.slab.regions_eq, hfilled.slab.header_free]
      decide
    · rw [hblocks]
      exact descriptor_ne_zero (by rw [hfilled.slab.regions_eq]; exact hfilled.slab.fits) (by decide)
  have hnull := hinv.writesThroughNull hadmitted hlast
  exact ⟨st, hrun, hpages, hnull.2.1, hnull⟩

end Octiron.Pmm
