import Octiron.Pmm.WornRuns
import Octiron.Pmm.Counters
import Octiron.Lib.FirstFit

/-! What `alloc_aligned` owes its caller when lists may have any number of blocks:
first fit.  It looks at the head of the first list with enough bytes, and when that
is too small it goes on with the head's base and the next block's descriptor. -/
namespace Octiron.Pmm

open Lib Lib.Word Lib.ByteMemory Lib.Span Exec

/-- A region whose list links blocks that start at pages, their descriptors clear of
what the slab keeps in `BLOCK_BUF`. -/
structure Listed (blockBuf : U64) (m : Mem) (used : Nat) (region : MemoryRegion)
    (blocks : List U64) : Prop where
  linked : Linked m region.freeBlocks blocks
  header : ∀ block ∈ blocks, Apart block 24 blockBuf 32
  free : ∀ block ∈ blocks, ∀ k, used ≤ k → k < 64 → Apart block 24 (descriptor blockBuf k) 24
  pages : ∀ block ∈ blocks, pageBytes ∣ (blockSpan m block).base ∧
    0 < (blockSpan m block).length
  inside : ∀ block ∈ blocks, Inside (blockSpan m block) (regionSpan region)
  disjoint : (blocks.map (blockSpan m)).Pairwise Disjoint
  high : (regionSpan region).last ≤ 2 ^ 56
  free_eq : region.freeBytes.toNat = total (blocks.map (blockSpan m))

/-- The states the search is for. -/
structure Searchable (blockBuf : U64) (st : State) (used : Nat)
    (blocksOf : MemoryRegion → List U64) : Prop where
  slab : SlabInv blockBuf st.blockAllocator st.mem used
  room : used + 16 ≤ 64
  pol : st.pol = .firstFit
  listed : ∀ region ∈ st.regions, Listed blockBuf st.mem used region (blocksOf region)
  free_eq : st.freeBytes.toNat = freeSum st.regions

/-- The free blocks, regions in table order and blocks in list order. -/
def listedBlocks (st : State) (blocksOf : MemoryRegion → List U64) : List Span :=
  st.regions.flatMap fun region => (blocksOf region).map (blockSpan st.mem)

structure Request (size alignment : U64) : Prop where
  size_pos : 0 < size.toNat
  size_le : size.toNat ≤ 2 ^ 64 - pageBytes
  alignment : ∃ k, 12 ≤ k ∧ alignment.toNat = 2 ^ k

/-- The call returns: the first fit, or that nothing fits. -/
def FirstFitAnswer (st : State) (size alignment ret : U64) (blocks : List Span) : Prop :=
  ∃ err ret' st', allocAligned st size alignment (some ret) = .ok (err, ret', st') ∧
    ((err = .ofCode .success ∧ ∃ a : U64, ret' = some a ∧
        FirstFit (roundUp size.toNat pageBytes) alignment.toNat blocks a.toNat) ∨
      (err = .ofCode .pmmOutOfMem ∧ ret' = some 0 ∧
        ∀ s ∈ blocks, ¬ CanHold s (roundUp size.toNat pageBytes) alignment.toNat))

/-- The head of the region's list holds the grant; or it does not, its base rounded up
is the first fit all the same, and it has a successor. -/
def DecidedBy (st : State) (region : MemoryRegion) (length alignment : Nat) (blocks : List Span) :
    Prop :=
  let head := blockSpan st.mem region.freeBlocks
  let a := roundUp head.base alignment
  (CanHold head length alignment ∧ a ≠ 0) ∨
    (¬ CanHold head length alignment ∧ head.base ≠ a ∧
      blockNext st.mem region.freeBlocks ≠ 0 ∧ FirstFit length alignment blocks a)

/-- So it is with the region that the search settles on, if any. -/
def HeadDecides (st : State) (size alignment : U64) (blocks : List Span) : Prop :=
  ∀ region, st.regions.find? (hasRoom (alignUp size pageSize)) = some region →
    DecidedBy st region (roundUp size.toNat pageBytes) alignment.toNat blocks

section Request

variable {size alignment : U64}

theorem Request.toNat_alignUp (h : Request size alignment) :
    (alignUp size pageSize).toNat = roundUp size.toNat pageBytes :=
  alignUp_toNat pageSize_toNat (by
    have hle := h.size_le
    rw [pageBytes] at hle
    omega)

theorem Request.length_pos (h : Request size alignment) : 0 < roundUp size.toNat pageBytes :=
  h.size_pos.trans_le (le_roundUp (by decide))

theorem Request.badAlignment (h : Request size alignment) : badAlignment alignment = false := by
  obtain ⟨k, hpage, hk⟩ := h.alignment
  have hlarge : ¬ alignment < pageSize := by
    rw [BitVec.lt_def, hk, pageSize_toNat, Nat.not_lt]
    exact Nat.pow_le_pow_right (by decide) hpage
  have hpos : 0 < alignment.toNat := hk ▸ Nat.two_pow_pos k
  have hpow : alignment &&& (alignment - 1) = 0 := by
    apply BitVec.eq_of_toNat_eq
    rw [BitVec.toNat_and, toNat_sub_one _ hpos, hk, Nat.and_two_pow_sub_one_eq_mod, Nat.mod_self]
    rfl
  rw [Pmm.badAlignment, Bool.or_eq_false_iff, decide_eq_false_iff_not, bne_eq_false_iff_eq]
  exact ⟨hlarge, hpow⟩

end Request

section Lists

variable {blockBuf : U64} {m : Mem} {used : Nat} {region : MemoryRegion} {blocks : List U64}

theorem Linked.eq_nil (h : Linked m 0 blocks) : blocks = [] := by
  cases h with
  | nil => rfl
  | cons hne => exact absurd rfl hne

theorem Linked.eq_cons {p : U64} (h : Linked m p blocks) (hne : p ≠ 0) :
    ∃ rest, blocks = p :: rest := by
  cases h with
  | nil => exact absurd rfl hne
  | cons => exact ⟨_, rfl⟩

theorem Listed.free_le (h : Listed blockBuf m used region blocks) :
    region.freeBytes.toNat ≤ 2 ^ 56 := by
  have hinside : ∀ s ∈ blocks.map (blockSpan m), Inside s (regionSpan region) := by
    intro s hs
    obtain ⟨block, hblock, rfl⟩ := List.mem_map.mp hs
    exact h.inside block hblock
  have htotal := total_le_of_disjoint h.disjoint hinside
  have hhigh := h.high
  rw [last] at hhigh
  rw [h.free_eq]
  omega

/-- A list too short for the size in total has no block that can hold it. -/
theorem Listed.not_canHold {size : U64} {alignment : Nat}
    (h : Listed blockBuf m used region blocks) (hroom : ¬ hasRoom size region = true) :
    ∀ s ∈ blocks.map (blockSpan m), ¬ CanHold s size.toNat alignment := by
  intro s hs
  apply not_canHold_of_short
  have hle := length_le_total hs
  rw [← h.free_eq] at hle
  rw [hasRoom_eq_true, not_and_or, not_not, not_not, BitVec.lt_def] at hroom
  rcases hroom with hshort | hempty
  · exact hle.trans_lt hshort
  · have hlinked := h.linked
    rw [hempty] at hlinked
    rw [hlinked.eq_nil] at hs
    cases hs

theorem freeBytes_le_freeSum {regions : List MemoryRegion} (h : region ∈ regions) :
    region.freeBytes.toNat ≤ freeSum regions := by
  induction regions with
  | nil => cases h
  | cons first rest ih =>
    rw [freeSum]
    rcases List.mem_cons.mp h with rfl | hrest
    · exact Nat.le_add_right _ _
    · exact Nat.le_trans (ih hrest) (Nat.le_add_left _ _)

end Lists

section Answer

variable {st st' : State} {size alignment ret a length : U64} {blocks : List Span} {stop : Stop}

theorem not_firstFitAnswer_of_stop
    (hcall : allocAligned st size alignment (some ret) = .error stop) :
    ¬ FirstFitAnswer st size alignment ret blocks := by
  rintro ⟨err, ret', st', hok, -⟩
  rw [hcall] at hok
  cases hok

/-- A call that gets to the fill answers right when it grants the first fit, and that
is not page zero. -/
theorem firstFitAnswer_iff_of_grant (hlength : length ≠ 0)
    (hcall : allocAligned st size alignment (some ret) = do
      derefBytes a length
      return (.ofCode .success, some a, st')) :
    FirstFitAnswer st size alignment ret blocks ↔
      a ≠ 0 ∧ FirstFit (roundUp size.toNat pageBytes) alignment.toNat blocks a.toNat := by
  rw [derefBytes, if_neg hlength] at hcall
  by_cases hzero : a = 0
  · rw [hzero, deref_zero, error_bind] at hcall
    exact iff_of_false (not_firstFitAnswer_of_stop hcall) fun h => h.1 hzero
  · rw [deref_of_ne hzero, ok_bind] at hcall
    constructor
    · rintro ⟨err, ret', st'', hok, hanswer⟩
      obtain ⟨rfl, rfl, rfl⟩ := ok_triple_inj (hcall.symm.trans hok)
      rcases hanswer with ⟨-, a', ha', hfirst⟩ | ⟨herr, -⟩
      · obtain rfl := Option.some.inj ha'
        exact ⟨hzero, hfirst⟩
      · exact absurd herr (by decide)
    · rintro ⟨-, hfirst⟩
      exact ⟨_, _, _, hcall, .inl ⟨rfl, a, rfl, hfirst⟩⟩

end Answer

section Search

variable {blockBuf : U64} {st : State} {used : Nat} {blocksOf : MemoryRegion → List U64}
  {size alignment ret : U64} {region : MemoryRegion} {pre post : List MemoryRegion}

theorem searchRegions_append {i : Nat} {rest : List MemoryRegion}
    (h : ∀ r ∈ pre, ¬ hasRoom size r = true) :
    searchRegions st size alignment i (pre ++ rest) =
      searchRegions st size alignment (i + pre.length) rest := by
  induction pre generalizing i with
  | nil => rfl
  | cons first pre ih =>
    obtain ⟨hfirst, hpre⟩ := List.forall_mem_cons.mp h
    rw [hasRoom_eq_true, not_and_or, not_not, not_not] at hfirst
    have hskip : searchRegions st size alignment i (first :: (pre ++ rest)) =
        searchRegions st size alignment (i + 1) (pre ++ rest) := by
      rw [searchRegions]
      rcases hfirst with hbytes | hlist
      · rw [if_pos hbytes]
      · rw [if_pos hlist, ite_self]
    rw [List.cons_append, hskip, ih hpre, List.length_cons, Nat.add_assoc, Nat.add_comm 1]

theorem Searchable.allocAligned_eq (h : Searchable blockBuf st used blocksOf)
    (hrequest : Request size alignment) (hfree : ¬ st.freeBytes < alignUp size pageSize) :
    allocAligned st size alignment (some ret) =
      searchRegions st (alignUp size pageSize) alignment 0 st.regions := by
  have hroom := h.room
  have hslab : ¬ st.blockAllocator.free < 16 := by
    rw [h.slab.free_eq, BitVec.lt_def, toNat_ofNat_of_lt (by omega),
      show (16 : U64).toNat = 16 from rfl]
    omega
  unfold allocAligned
  dsimp only
  rw [if_neg (by simp), hrequest.badAlignment, if_neg (by simp), if_neg hfree, if_neg hslab,
    if_neg (not_not.mpr h.pol)]

/-- No region has room, and no block can hold the size. -/
theorem Searchable.answer_of_none (h : Searchable blockBuf st used blocksOf)
    (hrequest : Request size alignment)
    (hnone : st.regions.find? (hasRoom (alignUp size pageSize)) = none) :
    FirstFitAnswer st size alignment ret (listedBlocks st blocksOf) := by
  have hcannot : ∀ s ∈ listedBlocks st blocksOf,
      ¬ CanHold s (roundUp size.toNat pageBytes) alignment.toNat := by
    intro s hs
    obtain ⟨region, hregion, hs⟩ := List.mem_flatMap.mp hs
    rw [← hrequest.toNat_alignUp]
    exact (h.listed region hregion).not_canHold (List.find?_eq_none.mp hnone region hregion) s hs
  have hcall : allocAligned st size alignment (some ret) =
      .ok (.ofCode .pmmOutOfMem, some 0, st) := by
    by_cases hfree : st.freeBytes < alignUp size pageSize
    · unfold allocAligned
      dsimp only
      rw [if_neg (by simp), hrequest.badAlignment, if_neg (by simp), if_pos hfree]
    · rw [h.allocAligned_eq hrequest hfree, searchRegions_of_find? hnone]
  exact ⟨_, _, _, hcall, .inr ⟨rfl, rfl, hcannot⟩⟩

/-- The region that the search settles on, and the blocks it has passed over. -/
theorem Searchable.found (h : Searchable blockBuf st used blocksOf)
    (hrequest : Request size alignment)
    (hfound : st.regions.find? (hasRoom (alignUp size pageSize)) = some region) :
    ∃ i passed rest, allocAligned st size alignment (some ret) =
        allocFromRegion st i region (alignUp size pageSize) alignment ∧
      listedBlocks st blocksOf = passed ++ (blockSpan st.mem region.freeBlocks :: rest) ∧
      ∀ s ∈ passed, ¬ CanHold s (roundUp size.toNat pageBytes) alignment.toNat := by
  obtain ⟨hroom, pre, post, hregions, hpre⟩ := List.find?_eq_some_iff_append.mp hfound
  have hmem : region ∈ st.regions := List.mem_of_find?_eq_some hfound
  have hpassed : ∀ r ∈ pre, ¬ hasRoom (alignUp size pageSize) r = true := by
    simpa using hpre
  obtain ⟨hbytes, hlist⟩ := hasRoom_eq_true.mp hroom
  obtain ⟨rest, hblocks⟩ := (h.listed region hmem).linked.eq_cons hlist
  have hfree : ¬ st.freeBytes < alignUp size pageSize := by
    rw [BitVec.lt_def, Nat.not_lt] at hbytes ⊢
    rw [h.free_eq]
    exact hbytes.trans (freeBytes_le_freeSum hmem)
  refine ⟨0 + pre.length, pre.flatMap fun r => (blocksOf r).map (blockSpan st.mem),
    rest.map (blockSpan st.mem) ++ post.flatMap fun r => (blocksOf r).map (blockSpan st.mem),
    ?_, ?_, ?_⟩
  · rw [h.allocAligned_eq hrequest hfree, hregions, searchRegions_append hpassed, searchRegions,
      if_neg hbytes, if_neg hlist]
  · rw [listedBlocks, hregions, List.flatMap_append, List.flatMap_cons, hblocks, List.map_cons]
    rfl
  · intro s hs
    obtain ⟨r, hr, hs⟩ := List.mem_flatMap.mp hs
    have hin : r ∈ st.regions := hregions ▸ List.mem_append_left _ hr
    rw [← hrequest.toNat_alignUp]
    exact (h.listed r hin).not_canHold (hpassed r hr) s hs

end Search

section Split

variable {blockBuf : U64} {st : State} {used i : Nat} {region : MemoryRegion} {blocks : List U64}
  {size alignment : U64}

theorem Listed.slab_setBlockLength {m : Mem} {s : Slab.SlabAlloc} {block : U64}
    (h : Listed blockBuf m used region blocks) (hslab : SlabInv blockBuf s m used)
    (hblock : block ∈ blocks) (v : U64) :
    SlabInv blockBuf s (setBlockLength m block v) used := by
  have hbytes : ∀ x, ¬ Within x block 24 → setBlockLength m block v x = m x := fun x hx =>
    store64_apply_of_not_within fun hin =>
      hx (within_of_offset (i := 8) (k := 24) (by decide) (by decide) hin)
  apply hslab.congr
  · exact fun x hx => hbytes x fun hin => h.header block hblock x hin hx
  · exact fun k hlow hk x hx => hbytes x fun hin => h.free block hblock k hlow hk x hin hx

/-- The split the search asks for. -/
def searchSplit (st : State) (head size alignment : U64) : Exec SplitResult :=
  let b := blockBase st.mem head
  let n := blockLength st.mem head
  let a := alignUp b alignment
  let tooSmall := b + n < a + size
  splitBlock st head (if tooSmall then head else 0)
    (if tooSmall then blockNext st.mem head else head) b n a size

/-- Whatever was split, the head's base rounded up is granted. -/
theorem allocFromRegion_grants {split : SplitResult}
    (hsplit : searchSplit st region.freeBlocks size alignment = .ok split) :
    ∃ st', allocFromRegion st i region size alignment = do
      derefBytes (alignUp (blockBase st.mem region.freeBlocks) alignment) size
      return (.ofCode .success, some (alignUp (blockBase st.mem region.freeBlocks) alignment),
        st') := by
  unfold searchSplit at hsplit
  unfold allocFromRegion
  dsimp only at hsplit ⊢
  rw [hsplit, ok_bind]
  exact ⟨_, rfl⟩

theorem allocFromRegion_stops {stop : Stop}
    (hsplit : searchSplit st region.freeBlocks size alignment = .error stop) :
    allocFromRegion st i region size alignment = .error stop := by
  unfold searchSplit at hsplit
  unfold allocFromRegion
  dsimp only at hsplit ⊢
  rw [hsplit, error_bind]

/-- A head that holds the grant is cut. -/
theorem Listed.searchSplit_fits (h : Listed blockBuf st.mem used region blocks)
    (hslab : SlabInv blockBuf st.blockAllocator st.mem used) (hused : used < 64)
    (hhead : region.freeBlocks ∈ blocks) (hne : region.freeBlocks ≠ 0)
    (hfits : ¬ blockBase st.mem region.freeBlocks + blockLength st.mem region.freeBlocks <
      alignUp (blockBase st.mem region.freeBlocks) alignment + size) :
    ∃ split, searchSplit st region.freeBlocks size alignment = .ok split := by
  obtain ⟨slab, m, halloc, -, -⟩ := slabAlloc_spec (h.slab_setBlockLength hslab hhead
    (alignUp (blockBase st.mem region.freeBlocks) alignment -
      blockBase st.mem region.freeBlocks)) hused
  obtain ⟨split, hsplit, -⟩ := splitBlock_returns hne (descriptor_ne_zero hslab.fits hused.le) halloc
  refine ⟨split, ?_⟩
  unfold searchSplit
  dsimp only
  rw [if_neg hfits, if_neg hfits]
  exact hsplit

/-- Past a head that is too small, the split is asked for the head's range with the
next block's descriptor. -/
theorem searchSplit_tooSmall {head : U64} (hhead : head ≠ 0)
    (hsmall : blockBase st.mem head + blockLength st.mem head <
      alignUp (blockBase st.mem head) alignment + size) :
    searchSplit st head size alignment =
      if blockNext st.mem head = 0 then .error .nullDeref
      else if blockBase st.mem head = alignUp (blockBase st.mem head) alignment then
        .error .assertion
      else .ok ⟨head, st.blockAllocator, setBlockLength st.mem (blockNext st.mem head)
        (alignUp (blockBase st.mem head) alignment - blockBase st.mem head)⟩ := by
  have hpost : ¬ blockBase st.mem head + blockLength st.mem head >
      alignUp (blockBase st.mem head) alignment + size := by
    rw [BitVec.lt_def] at hsmall
    rw [gt_iff_lt, BitVec.lt_def]
    omega
  have hfree : (Slab.free (blockNext st.mem head)).isOk = false := by
    unfold Slab.free
    decide
  unfold searchSplit splitBlock
  dsimp only
  rw [if_pos hsmall, if_pos hsmall]
  by_cases hnext : blockNext st.mem head = 0
  · rw [if_pos hnext, hnext]
    rfl
  · rw [deref_of_ne hnext, ok_bind, if_neg fun hboth => hpost hboth.2, if_neg hnext]
    by_cases hfront : blockBase st.mem head = alignUp (blockBase st.mem head) alignment
    · rw [if_neg (not_not.mpr hfront), if_neg hpost, if_neg hhead, if_pos hfront, hfree,
        kassert_false, error_bind]
    · rw [if_pos hfront, if_neg hfront]
      rfl

end Split

/-- On such a head the words of the code mean the numbers they stand for. -/
structure HeadWords (st : State) (region : MemoryRegion) (size alignment : U64) : Prop where
  length_ne : alignUp size pageSize ≠ 0
  power : ∃ k, alignment.toNat = 2 ^ k
  below : (blockBase st.mem region.freeBlocks).toNat + alignment.toNat ≤ 2 ^ 64
  round : (alignUp (blockBase st.mem region.freeBlocks) alignment).toNat =
    roundUp (blockBase st.mem region.freeBlocks).toNat alignment.toNat
  fits : CanHold (blockSpan st.mem region.freeBlocks) (roundUp size.toNat pageBytes)
      alignment.toNat ↔
    ¬ blockBase st.mem region.freeBlocks + blockLength st.mem region.freeBlocks <
      alignUp (blockBase st.mem region.freeBlocks) alignment + alignUp size pageSize

theorem Listed.headWords {blockBuf : U64} {st : State} {used : Nat} {region : MemoryRegion}
    {blocks : List U64} {size alignment : U64}
    (h : Listed blockBuf st.mem used region blocks) (hrequest : Request size alignment)
    (hhead : region.freeBlocks ∈ blocks) (hbytes : ¬ region.freeBytes < alignUp size pageSize) :
    HeadWords st region size alignment := by
  obtain ⟨k, -, hk⟩ := hrequest.alignment
  have hpow := exponent_le hk
  have hend : (blockBase st.mem region.freeBlocks).toNat +
      (blockLength st.mem region.freeBlocks).toNat ≤ 2 ^ 56 :=
    (h.inside _ hhead).2.trans h.high
  have hlength := hrequest.toNat_alignUp
  have hsize : (alignUp size pageSize).toNat ≤ 2 ^ 56 := by
    rw [BitVec.lt_def, Nat.not_lt] at hbytes
    exact hbytes.trans h.free_le
  have hround : (alignUp (blockBase st.mem region.freeBlocks) alignment).toNat =
      roundUp (blockBase st.mem region.freeBlocks).toNat alignment.toNat := by
    rw [hk]
    exact alignUp_toNat hk (by omega)
  refine ⟨fun hzero => ?_, ⟨k, hk⟩, by omega, hround, ?_⟩
  · rw [hzero] at hlength
    exact hrequest.length_pos.ne hlength
  · rw [headFits_iff hk hend hsize, hround, hlength]
    exact canHold_iff (hk ▸ Nat.two_pow_pos k)

section Answer

variable {blockBuf : U64} {st : State} {used i : Nat} {region : MemoryRegion}
  {size alignment ret : U64} {blocks : List Span} (hwords : HeadWords st region size alignment)
  (hcall : allocAligned st size alignment (some ret) =
    allocFromRegion st i region (alignUp size pageSize) alignment)
include hwords hcall

/-- A head that is too small: only by chance is its base rounded up the first fit. -/
theorem HeadWords.answer_of_tooSmall (hne : region.freeBlocks ≠ 0)
    (hnot : ¬ CanHold (blockSpan st.mem region.freeBlocks) (roundUp size.toNat pageBytes)
      alignment.toNat) :
    FirstFitAnswer st size alignment ret blocks ↔
      DecidedBy st region (roundUp size.toNat pageBytes) alignment.toNat blocks := by
  have hsplit := searchSplit_tooSmall hne (not_not.mp (mt hwords.fits.mpr hnot))
  by_cases hnext : blockNext st.mem region.freeBlocks = 0
  · rw [if_pos hnext] at hsplit
    refine iff_of_false (not_firstFitAnswer_of_stop (hcall.trans (allocFromRegion_stops hsplit))) ?_
    rintro (⟨hhold, -⟩ | ⟨-, -, hsucc, -⟩)
    · exact hnot hhold
    · exact hsucc hnext
  rw [if_neg hnext] at hsplit
  by_cases hfront : blockBase st.mem region.freeBlocks =
      alignUp (blockBase st.mem region.freeBlocks) alignment
  · rw [if_pos hfront] at hsplit
    refine iff_of_false (not_firstFitAnswer_of_stop (hcall.trans (allocFromRegion_stops hsplit))) ?_
    rintro (⟨hhold, -⟩ | ⟨-, hbase, -, -⟩)
    · exact hnot hhold
    · exact hbase ((congrArg BitVec.toNat hfront).trans hwords.round)
  · rw [if_neg hfront] at hsplit
    obtain ⟨st', hgrants⟩ := @allocFromRegion_grants _ i _ _ _ _ hsplit
    rw [firstFitAnswer_iff_of_grant hwords.length_ne (hcall.trans hgrants), hwords.round]
    constructor
    · rintro ⟨-, hfirst⟩
      refine .inr ⟨hnot, fun hbase => hfront ?_, hnext, hfirst⟩
      exact BitVec.eq_of_toNat_eq (hbase.trans hwords.round.symm)
    · rintro (⟨hhold, -⟩ | ⟨-, -, -, hfirst⟩)
      · exact absurd hhold hnot
      · obtain ⟨k, hk⟩ := hwords.power
        refine ⟨fun hzero => hfront ?_, hfirst⟩
        have hle := @le_alignUp (blockBase st.mem region.freeBlocks) _ _ hk (hk ▸ hwords.below)
        rw [hzero] at hle ⊢
        exact BitVec.eq_of_toNat_eq (Nat.le_zero.mp hle)

/-- A head that can hold the grant is the first block that can. -/
theorem HeadWords.answer_of_canHold {split : SplitResult}
    (hsplit : searchSplit st region.freeBlocks (alignUp size pageSize) alignment = .ok split)
    (hhold : CanHold (blockSpan st.mem region.freeBlocks) (roundUp size.toNat pageBytes)
      alignment.toNat)
    (hfirst : FirstFit (roundUp size.toNat pageBytes) alignment.toNat blocks
      (roundUp (blockBase st.mem region.freeBlocks).toNat alignment.toNat)) :
    FirstFitAnswer st size alignment ret blocks ↔
      DecidedBy st region (roundUp size.toNat pageBytes) alignment.toNat blocks := by
  obtain ⟨st', hgrants⟩ := @allocFromRegion_grants _ i _ _ _ _ hsplit
  rw [firstFitAnswer_iff_of_grant hwords.length_ne (hcall.trans hgrants), hwords.round]
  constructor
  · rintro ⟨hgrant, -⟩
    exact .inl ⟨hhold, fun hzero => hgrant (BitVec.eq_of_toNat_eq (hwords.round.trans hzero))⟩
  · rintro (⟨-, hgrant⟩ | ⟨hnot, -⟩)
    · exact ⟨fun hzero => hgrant (hwords.round.symm.trans (congrArg BitVec.toNat hzero)), hfirst⟩
    · exact absurd hhold hnot

end Answer

/-- What the search makes of the region it settles on. -/
theorem Searchable.answer_of_found {blockBuf : U64} {st : State} {used : Nat}
    {blocksOf : MemoryRegion → List U64} {size alignment ret : U64} {region : MemoryRegion}
    (h : Searchable blockBuf st used blocksOf) (hrequest : Request size alignment)
    (hfind : st.regions.find? (hasRoom (alignUp size pageSize)) = some region) :
    FirstFitAnswer st size alignment ret (listedBlocks st blocksOf) ↔
      DecidedBy st region (roundUp size.toNat pageBytes) alignment.toNat
        (listedBlocks st blocksOf) := by
  obtain ⟨i, passed, rest, hcall, hblocks, hpassed⟩ := @found _ _ _ _ _ _ ret _ h hrequest hfind
  obtain ⟨hbytes, hne⟩ := hasRoom_eq_true.mp (List.find?_some hfind)
  have hlisted := h.listed region (List.mem_of_find?_eq_some hfind)
  obtain ⟨others, hothers⟩ := hlisted.linked.eq_cons hne
  have hhead : region.freeBlocks ∈ blocksOf region := hothers ▸ List.mem_cons_self
  have hwords := hlisted.headWords hrequest hhead hbytes
  by_cases hhold : CanHold (blockSpan st.mem region.freeBlocks) (roundUp size.toNat pageBytes)
      alignment.toNat
  · have hused : used < 64 := by
      have hroom := h.room
      omega
    have hpos : 0 < alignment.toNat := by
      obtain ⟨k, hk⟩ := hwords.power
      exact hk ▸ Nat.two_pow_pos k
    obtain ⟨split, hsplit⟩ :=
      hlisted.searchSplit_fits h.slab hused hhead hne (hwords.fits.mp hhold)
    refine hwords.answer_of_canHold hcall hsplit hhold ?_
    rw [hblocks, firstFit_append hpassed]
    exact .here (lowestIn_roundUp hpos ((canHold_iff hpos).mp hhold))
  · exact hwords.answer_of_tooSmall hcall hne hhold

/-- The search is right exactly when it settles on a head that holds the grant, or on
one whose base leads to the first fit anyway. -/
theorem firstFitAnswer_iff {blockBuf : U64} {st : State} {used : Nat}
    {blocksOf : MemoryRegion → List U64} {size alignment : U64}
    (hstate : Searchable blockBuf st used blocksOf) (hrequest : Request size alignment)
    (ret : U64) :
    FirstFitAnswer st size alignment ret (listedBlocks st blocksOf) ↔
      HeadDecides st size alignment (listedBlocks st blocksOf) := by
  cases hfind : st.regions.find? (hasRoom (alignUp size pageSize)) with
  | none =>
    refine iff_of_true (hstate.answer_of_none hrequest hfind) fun region hfound => ?_
    rw [hfind] at hfound
    cases hfound
  | some region =>
    rw [hstate.answer_of_found hrequest hfind]
    constructor
    · intro hdecided region' hfound
      obtain rfl := Option.some.inj (hfind.symm.trans hfound)
      exact hdecided
    · exact fun hdecides => hdecides region hfind

section TwoBlocks

/-- A buffer at `0x100000` with 48 descriptors handed out: the first links one page to
the two pages of the second. -/
def twoBlockMem : Mem := fun x =>
  let word := (x.toNat - 0x100000) / 8
  let value := [64, 16, descriptor 0x100000 48, 0, 0x1000, 0x1000, descriptor 0x100000 1, 0x4000,
    0x2000, 0].getD word (if word % 3 = 1 then descriptor 0x100000 ((word - 4) / 3 + 1) else 0)
  value.extractLsb' (8 * (x.toNat % 8)) 8

def twoBlocks : State where
  totalBytes := 0x8000
  freeBytes := 0x3000
  regions := [⟨0x1000, 0x8000, 0x3000, descriptor 0x100000 0⟩]
  blockAllocator := ⟨0x100000, 64, 16⟩
  mem := twoBlockMem

theorem twoBlocks_slab : SlabInv 0x100000 twoBlocks.blockAllocator twoBlockMem 48 where
  nonnull := by decide
  fits := by decide
  used_le := by decide
  regions_eq := rfl
  total_eq := rfl
  free_eq := by decide
  header_free := by decide +kernel
  header_blocks := by decide +kernel
  link := by decide +kernel

theorem twoBlocks_linked : Linked twoBlockMem (descriptor 0x100000 0)
    [descriptor 0x100000 0, descriptor 0x100000 1] := by
  have hnext : blockNext twoBlockMem (descriptor 0x100000 0) = descriptor 0x100000 1 := by
    decide +kernel
  have hlast : blockNext twoBlockMem (descriptor 0x100000 1) = 0 := by decide +kernel
  refine .cons (by decide) ?_
  rw [hnext]
  refine .cons (by decide) ?_
  rw [hlast]
  exact .nil

theorem twoBlocks_spans : [descriptor 0x100000 0, descriptor 0x100000 1].map (blockSpan twoBlockMem) =
    [⟨0x1000, 0x1000⟩, ⟨0x4000, 0x2000⟩] := by
  decide +kernel

theorem twoBlocks_listed : Listed 0x100000 twoBlockMem 48
    ⟨0x1000, 0x8000, 0x3000, descriptor 0x100000 0⟩
    [descriptor 0x100000 0, descriptor 0x100000 1] := by
  have hfit := twoBlocks_slab.fits
  have hdescriptor : ∀ block ∈ [descriptor 0x100000 0, descriptor 0x100000 1],
      ∃ j < 48, block = descriptor 0x100000 j := by
    intro block hblock
    rcases List.mem_pair.mp hblock with rfl | rfl
    · exact ⟨0, by decide, rfl⟩
    · exact ⟨1, by decide, rfl⟩
  have hspan : ∀ block ∈ [descriptor 0x100000 0, descriptor 0x100000 1],
      blockSpan twoBlockMem block = ⟨0x1000, 0x1000⟩ ∨
        blockSpan twoBlockMem block = ⟨0x4000, 0x2000⟩ := by
    intro block hblock
    have hmem := List.mem_map_of_mem (f := blockSpan twoBlockMem) hblock
    rw [twoBlocks_spans] at hmem
    exact List.mem_pair.mp hmem
  refine ⟨twoBlocks_linked, ?_, ?_, ?_, ?_, ?_, ?_, ?_⟩
  · intro block hblock x hx hin
    obtain ⟨j, hj, rfl⟩ := hdescriptor block hblock
    exact not_within_of_header hfit (by omega) hin hx
  · intro block hblock k hlow hk x hx
    obtain ⟨j, hj, rfl⟩ := hdescriptor block hblock
    exact not_within_descriptor hfit (by omega) hk (by omega) hx
  · intro block hblock
    rcases hspan block hblock with h | h <;> rw [h] <;> decide
  · intro block hblock
    rcases hspan block hblock with h | h <;> rw [h] <;> decide
  · rw [twoBlocks_spans, List.pairwise_pair, disjoint_iff (by decide) (by decide)]
    decide
  · decide
  · rw [twoBlocks_spans]
    rfl

theorem twoBlocks_searchable : Searchable 0x100000 twoBlocks 48
    fun _ => [descriptor 0x100000 0, descriptor 0x100000 1] where
  slab := twoBlocks_slab
  room := by decide
  pol := rfl
  listed := by
    intro region hregion
    obtain rfl := List.mem_singleton.mp hregion
    exact twoBlocks_listed
  free_eq := by decide

/-- One page fits the head. -/
theorem firstFitAnswer_onePage : FirstFitAnswer twoBlocks 0x1000 0x1000 0
    (listedBlocks twoBlocks fun _ => [descriptor 0x100000 0, descriptor 0x100000 1]) := by
  refine (firstFitAnswer_iff twoBlocks_searchable ⟨by decide, by decide, 12, by decide, rfl⟩ 0).mpr ?_
  intro region hfound
  have hregion : region = ⟨0x1000, 0x8000, 0x3000, descriptor 0x100000 0⟩ :=
    List.mem_singleton.mp (List.mem_of_find?_eq_some hfound)
  have hspan : blockSpan twoBlockMem (descriptor 0x100000 0) = ⟨0x1000, 0x1000⟩ := by
    decide +kernel
  subst hregion
  refine .inl ⟨(canHold_iff (by decide)).mpr ?_, ?_⟩
  · change roundUp (blockSpan twoBlockMem (descriptor 0x100000 0)).base _ + _ ≤
      (blockSpan twoBlockMem (descriptor 0x100000 0)).base +
        (blockSpan twoBlockMem (descriptor 0x100000 0)).length
    rw [hspan]
    decide
  · change roundUp (blockSpan twoBlockMem (descriptor 0x100000 0)).base _ ≠ 0
    rw [hspan]
    decide

/-- Two pages are free behind a head of one page: the call stops at an assertion. -/
theorem exists_not_firstFitAnswer : ∃ st blocksOf, Searchable 0x100000 st 48 blocksOf ∧
    Request 0x2000 0x1000 ∧
    ¬ FirstFitAnswer st 0x2000 0x1000 0 (listedBlocks st blocksOf) := by
  refine ⟨twoBlocks, _, twoBlocks_searchable, ⟨by decide, by decide, 12, by decide, rfl⟩, ?_⟩
  rintro ⟨err, ret', st', hok, -⟩
  have hstops : (allocAligned twoBlocks 0x2000 0x1000 (some 0)).isOk = false := by decide +kernel
  rw [hok] at hstops
  cases hstops

end TwoBlocks
end Octiron.Pmm
