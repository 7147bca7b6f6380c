import Octiron.Pmm.Clients
import Octiron.Pmm.PageRequests

/-! The replies of the manager depend on the calls alone: not on what memory held when
it was initialized, and not on what the owners of granted ranges store. -/
namespace Octiron.Pmm

open Lib Lib.Word Lib.ByteMemory Lib.Span Exec

/-- The same globals, and the same blocks linked.  Memory may differ anywhere else. -/
structure Alike (st st' : State) : Prop where
  globals : st' = { st with mem := st'.mem }
  held : ∀ region ∈ st.regions, heldAt st'.mem region.freeBlocks = heldAt st.mem region.freeBlocks

def performCalls (st : State) : List Call → Exec (List (Error × Option U64) × State)
  | [] => .ok ([], st)
  | call :: rest => do
    let (err, ret, st) ← perform st call
    let (replies, st) ← performCalls st rest
    return ((err, ret) :: replies, st)

/-- The calls made to a manager that is alone on zeroed memory. -/
def replay (blockBuf : U64) (calls : List Call) : Exec (List (Error × Option U64) × State) := do
  let st ← pmmInitialize { mem := fun _ => 0 } blockBuf .firstFit
  performCalls st calls

section Globals

variable {st : State} {size alignment : U64} {ret : Option U64}

/-- Whether the search settles on a region, and on which, does not depend on memory. -/
theorem searchRegions_withMem (st : State) (size alignment : U64) (i : Nat)
    (rest : List MemoryRegion) :
    (∀ m, searchRegions { st with mem := m } size alignment i rest =
        .ok (.ofCode .pmmOutOfMem, some 0, { st with mem := m })) ∨
      ∃ j region, rest[j]? = some region ∧ hasRoom size region = true ∧
        ∀ m, searchRegions { st with mem := m } size alignment i rest =
          allocFromRegion { st with mem := m } (i + j) region size alignment := by
  induction rest generalizing i with
  | nil => exact .inl fun _ => rfl
  | cons region rest ih =>
    by_cases hroom : hasRoom size region = true
    · refine .inr ⟨0, region, rfl, hroom, fun m => ?_⟩
      obtain ⟨hbytes, hblocks⟩ := hasRoom_eq_true.mp hroom
      rw [searchRegions, if_neg hbytes, if_neg hblocks]
      rfl
    · have hskip : ∀ m, searchRegions { st with mem := m } size alignment i (region :: rest) =
          searchRegions { st with mem := m } size alignment (i + 1) rest := by
        intro m
        rw [searchRegions]
        split
        · rfl
        · rename_i hbytes
          have hblocks : region.freeBlocks = 0 := by
            by_contra hne
            exact hroom (hasRoom_eq_true.mpr ⟨hbytes, hne⟩)
          rw [if_pos hblocks]
      simp only [hskip]
      rcases ih (i + 1) with hnone | ⟨j, region', hj, hroom', hsearch⟩
      · exact .inl hnone
      · refine .inr ⟨j + 1, region', hj, hroom', fun m => ?_⟩
        rw [hsearch m, Nat.add_right_comm]
        rfl

theorem addRegion_withMem (st : State) (base size : U64) :
    (∃ err, ∀ m, addRegion { st with mem := m } base size = .ok (err, { st with mem := m })) ∨
      ∀ m, addRegion { st with mem := m } base size =
        insertRegion { st with mem := m } (alignUp base pageSize)
          (alignDown (size - (alignUp base pageSize - base)) pageSize) := by
  unfold addRegion
  dsimp only
  by_cases hbase : base = 0
  · simp only [hbase, if_true]
    exact .inl ⟨_, fun _ => rfl⟩
  by_cases hfull : st.regions.length ≥ regionCountMax
  · simp only [hbase, hfull, if_true, if_false]
    exact .inl ⟨_, fun _ => rfl⟩
  by_cases hsmall : ¬ alignUp base pageSize + alignDown (size - (alignUp base pageSize - base))
      pageSize ≤ base + size ∨
      ¬ alignDown (size - (alignUp base pageSize - base)) pageSize ≥ pageSize
  · simp only [hbase, hfull, hsmall, if_true, if_false]
    exact .inl ⟨_, fun _ => rfl⟩
  by_cases hmanaged : st.regions.any (managesBase · (alignUp base pageSize)) = true
  · simp only [hbase, hfull, hsmall, hmanaged, if_true, if_false]
    exact .inl ⟨_, fun _ => rfl⟩
  · simp only [hbase, hfull, hsmall, hmanaged, if_false]
    exact .inr fun _ => rfl

/-- A call is refused, or stops, or gets to a region, whatever memory holds. -/
theorem allocAligned_withMem (st : State) (size alignment : U64) (ret : Option U64) :
    (∃ err ret', ∀ m, allocAligned { st with mem := m } size alignment ret =
        .ok (err, ret', { st with mem := m })) ∨
      (∃ i region, st.regions[i]? = some region ∧ badAlignment alignment = false ∧
        ¬ st.blockAllocator.free < 16 ∧ hasRoom (alignUp size pageSize) region = true ∧
        ∀ m, allocAligned { st with mem := m } size alignment ret =
          allocFromRegion { st with mem := m } i region (alignUp size pageSize) alignment) ∨
      ∃ stop, ∀ m, allocAligned { st with mem := m } size alignment ret = .error stop := by
  unfold allocAligned
  dsimp only
  by_cases hret : ret.isNone = true
  · simp only [hret, if_true]
    exact .inl ⟨_, _, fun _ => rfl⟩
  by_cases halign : badAlignment alignment = true
  · simp only [hret, halign, if_true, if_false, Bool.false_eq_true]
    exact .inl ⟨_, _, fun _ => rfl⟩
  rw [Bool.not_eq_true] at halign
  by_cases hfree : st.freeBytes < alignUp size pageSize
  · simp only [hret, halign, hfree, if_true, if_false, Bool.false_eq_true]
    exact .inl ⟨_, _, fun _ => rfl⟩
  by_cases hblocks : st.blockAllocator.free < 16
  · simp only [hret, halign, hfree, hblocks, if_true, if_false, Bool.false_eq_true]
    exact .inr (.inr ⟨.todo, fun _ => rfl⟩)
  by_cases hpol : st.pol = .firstFit
  · simp only [hret, halign, hfree, hblocks, hpol, ne_eq, not_true_eq_false, if_false,
      Bool.false_eq_true]
    rcases searchRegions_withMem st (alignUp size pageSize) alignment 0 st.regions with
      hnone | ⟨j, region, hj, hroom, hsearch⟩
    · rw [← hpol]
      exact .inl ⟨_, _, hnone⟩
    · refine .inr (.inl ⟨j, region, hj, trivial, not_false, hroom, fun m => ?_⟩)
      rw [← hpol, hsearch m, Nat.zero_add]
  · simp only [hret, halign, hfree, hblocks, ne_eq, hpol, not_false_eq_true, if_true, if_false,
      Bool.false_eq_true]
    exact .inr (.inr ⟨.todo, fun _ => rfl⟩)

end Globals

/-- The slab's globals are settled by how many descriptors are handed out. -/
theorem SlabInv.globals_eq {blockBuf : U64} {s s' : Slab.SlabAlloc} {m m' : Mem} {used : Nat}
    (h : SlabInv blockBuf s m used) (h' : SlabInv blockBuf s' m' used) : s' = s := by
  obtain ⟨regions, total, free⟩ := s
  obtain ⟨regions', total', free'⟩ := s'
  have hregions := h'.regions_eq.trans h.regions_eq.symm
  have htotal := h'.total_eq.trans h.total_eq.symm
  have hfree := h'.free_eq.trans h.free_eq.symm
  dsimp only at hregions htotal hfree
  rw [hregions, htotal, hfree]

/-- A split with a descriptor to spare does not stop. -/
theorem exists_splitBlock {blockBuf : U64} {st : State} {used : Nat} {head b n a size : U64}
    (hhead : head ≠ 0) (hslab : ∀ v, SlabInv blockBuf st.blockAllocator
      (setBlockLength st.mem head v) used) (hused : used < 64) :
    ∃ split, splitBlock st head 0 head b n a size = .ok split := by
  unfold splitBlock
  simp only [deref_of_ne hhead, ok_bind]
  split
  · obtain ⟨s', m', halloc, -, -⟩ := slabAlloc_spec (hslab (a - b)) hused
    have hextra : (descriptor blockBuf used != 0) = true :=
      bne_iff_ne.mpr (descriptor_ne_zero (hslab 0).fits hused.le)
    simp only [halloc, ok_bind, hextra, kassert_true]
    exact ⟨_, rfl⟩
  · split
    · exact ⟨_, rfl⟩
    · split
      · exact ⟨_, rfl⟩
      · simp only [if_true]
        exact ⟨_, rfl⟩

/-- How many descriptors a split takes. -/
theorem splitBlock_slab {blockBuf : U64} {st : State} {used k : Nat} {b n a size : U64}
    {split : SplitResult} (hslab : SlabInv blockBuf st.blockAllocator st.mem used)
    (hused : used < 64) (hk : k < used)
    (h : splitBlock st (descriptor blockBuf k) 0 (descriptor blockBuf k) b n a size = .ok split) :
    ∃ m, SlabInv blockBuf split.slab m
      (if b ≠ a ∧ b + n > a + size then used + 1 else used) := by
  obtain ⟨-, ⟨hne, hgt, extra, slab, m, -, halloc, rfl⟩ | ⟨hne, hgt, rfl⟩ | ⟨heq, -, rfl⟩ |
    ⟨heq, -, rfl⟩⟩ := splitBlock_cases h
  · obtain ⟨-, -, -, honly⟩ := setBlockLength_spec hslab.fits (m := st.mem) (hk.trans hused) (a - b)
    obtain ⟨slab', m', halloc', hslab', -⟩ :=
      slabAlloc_spec (hslab.onlyDescriptor hk honly) hused
    obtain ⟨-, rfl, -⟩ := ok_triple_inj (halloc.symm.trans halloc')
    exact ⟨m', by rw [if_pos ⟨hne, hgt⟩]; exact hslab'⟩
  · exact ⟨st.mem, by rw [if_neg fun hboth => hgt hboth.2]; exact hslab⟩
  · exact ⟨st.mem, by rw [if_neg fun hboth => hboth.1 heq]; exact hslab⟩
  · exact ⟨st.mem, by rw [if_neg fun hboth => hboth.1 heq]; exact hslab⟩

/-- What a grant is made of: the cut of the head block, at its base rounded up. -/
structure GrantParts (blockBuf : U64) (st st' : State) (i : Nat) (region : MemoryRegion)
    (size alignment : U64) (used k used' : Nat) (split : SplitResult) : Prop where
  head : region.freeBlocks = descriptor blockBuf k
  head_lt : k < used
  last : blockNext st.mem region.freeBlocks = 0
  fits : ¬ blockBase st.mem region.freeBlocks + blockLength st.mem region.freeBlocks <
    alignUp (blockBase st.mem region.freeBlocks) alignment + size
  nonnull : derefBytes (alignUp (blockBase st.mem region.freeBlocks) alignment) size = .ok ()
  cut : splitBlock st region.freeBlocks 0 region.freeBlocks (blockBase st.mem region.freeBlocks)
    (blockLength st.mem region.freeBlocks) (alignUp (blockBase st.mem region.freeBlocks) alignment)
    size = .ok split
  spec : SplitOk blockBuf st.mem used k
    ⟨(alignUp (blockBase st.mem region.freeBlocks) alignment).toNat, size.toNat⟩ split used'
  result : st' = grantState st i region split
    (alignUp (blockBase st.mem region.freeBlocks) alignment) size
  outside : ∀ x, Within x blockBuf bufBytes → st'.mem x = split.mem x

section Parts

variable {blockBuf : U64} {w : World} {used : Nat} {lost : List Span} {i k : Nat}
  {region : MemoryRegion} {size alignment : U64}

/-- A block and a cut of it that the manager's invariant allows. -/
theorem Inv.cut_inside (h : Inv blockBuf w used lost) (hi : w.st.regions[i]? = some region)
    (hhead : region.freeBlocks ≠ 0) (hk : alignment.toNat = 2 ^ k)
    (hroom : hasRoom size region = true)
    (hfits : ¬ blockBase w.st.mem region.freeBlocks + blockLength w.st.mem region.freeBlocks <
      alignUp (blockBase w.st.mem region.freeBlocks) alignment + size) :
    Inside ⟨(alignUp (blockBase w.st.mem region.freeBlocks) alignment).toNat, size.toNat⟩
        (blockSpan w.st.mem region.freeBlocks) ∧
      Inside (blockSpan w.st.mem region.freeBlocks) (regionSpan region) := by
  have hregion := h.regions region (List.mem_of_getElem? hi)
  have hblock : Inside (blockSpan w.st.mem region.freeBlocks) (regionSpan region) :=
    (hregion.inside _ (by rw [heldAt_of_ne hhead]; exact List.mem_singleton_self _)).1
  have hend : (blockBase w.st.mem region.freeBlocks).toNat +
      (blockLength w.st.mem region.freeBlocks).toNat ≤ 2 ^ 56 := hblock.2.trans hregion.high
  have hfreeLe := hregion.free_le
  have hhigh := hregion.high
  have hsize := (hasRoom_eq_true.mp hroom).1
  rw [BitVec.lt_def, Nat.not_lt] at hsize
  exact ⟨inside_of_headFits hk hend (by omega) hfits, hblock⟩

/-- Zeroing a grant does not reach the buffer. -/
theorem Inv.grantState_outside (h : Inv blockBuf w used lost) {split : SplitResult} {a : U64}
    (hi : w.st.regions[i]? = some region)
    (hin : Inside ⟨a.toNat, size.toNat⟩ (regionSpan region)) {x : U64}
    (hx : Within x blockBuf bufBytes) :
    (grantState w.st i region split a size).mem x = split.mem x := by
  have hregion := h.regions region (List.mem_of_getElem? hi)
  have hhigh := hregion.high
  have hlast : a.toNat + size.toNat ≤ region.base.toNat + region.length.toNat := hin.2
  rw [grantState_apply (by omega), if_neg]
  intro hgrant
  rw [within_iff h.slab.fits.le] at hx
  exact hregion.buf x.toNat (hin.mem hgrant) hx

theorem Inv.grantParts (h : Inv blockBuf w used lost) (hused : used < 64)
    (hi : w.st.regions[i]? = some region) (hk : alignment.toNat = 2 ^ k)
    (hroom : hasRoom size region = true) {err : Error} {ret : Option U64} {st' : State}
    (hcall : allocFromRegion w.st i region size alignment = .ok (err, ret, st')) :
    err = .ofCode .success ∧
      ret = some (alignUp (blockBase w.st.mem region.freeBlocks) alignment) ∧
      ∃ j used' split, GrantParts blockBuf w.st st' i region size alignment used j used' split := by
  have hhead := (hasRoom_eq_true.mp hroom).2
  have hregion := h.regions region (List.mem_of_getElem? hi)
  obtain ⟨j, hj, hdesc, hnext⟩ := hregion.head.resolve_left hhead
  obtain ⟨split, hsplit, hcall⟩ := bind_eq_ok.mp hcall
  have hnext' : blockNext w.st.mem region.freeBlocks = 0 := by rw [hdesc]; exact hnext
  -- a head that is too small has no successor, and the split would dereference null
  have hfits : ¬ blockBase w.st.mem region.freeBlocks + blockLength w.st.mem region.freeBlocks <
      alignUp (blockBase w.st.mem region.freeBlocks) alignment + size := by
    intro hsmall
    rw [if_pos hsmall, if_pos hsmall, hnext'] at hsplit
    obtain ⟨_, hderef, _⟩ := bind_eq_ok.mp hsplit
    exact deref_eq_ok.mp hderef rfl
  rw [if_neg hfits, if_neg hfits] at hsplit
  obtain ⟨u, hderef, hcall⟩ := bind_eq_ok.mp hcall
  obtain ⟨rfl, hrest⟩ := Prod.mk.inj (pure_eq_ok.mp hcall)
  obtain ⟨rfl, hst'⟩ := Prod.mk.inj hrest
  obtain ⟨hcut, hblock⟩ := h.cut_inside hi hhead hk hroom hfits
  have hend : (blockBase w.st.mem region.freeBlocks).toNat +
      (blockLength w.st.mem region.freeBlocks).toNat ≤ 2 ^ 56 := hblock.2.trans hregion.high
  have hspec : ∃ used', SplitOk blockBuf w.st.mem used j
      ⟨(alignUp (blockBase w.st.mem region.freeBlocks) alignment).toNat, size.toNat⟩ split used' := by
    have hcut' := hcut
    have hsplit' := hsplit
    rw [hdesc] at hcut' hsplit' hend ⊢
    exact splitBlock_spec h.slab hused hj hnext hcut'.1 hcut'.2 (by omega) hsplit'
  obtain ⟨used', hspec⟩ := hspec
  refine ⟨rfl, rfl, j, used', split, hdesc, hj, hnext', hfits, hderef, hsplit, hspec, hst'.symm,
    fun x hx => ?_⟩
  rw [← hst']
  exact h.grantState_outside hi (hcut.trans hblock) hx

end Parts

section Alike

variable {blockBuf : U64} {w : World} {s : State} {used used' : Nat} {lost lost' : List Span}

theorem Alike.regions_eq {st st' : State} (h : Alike st st') : st'.regions = st.regions := by
  rw [h.globals]

/-- A linked block is the same word for word. -/
theorem Alike.block_eq {st st' : State} (h : Alike st st') {region : MemoryRegion}
    (hregion : region ∈ st.regions) (hne : region.freeBlocks ≠ 0) :
    blockBase st'.mem region.freeBlocks = blockBase st.mem region.freeBlocks ∧
      blockLength st'.mem region.freeBlocks = blockLength st.mem region.freeBlocks := by
  have hheld := h.held region hregion
  rw [heldAt_of_ne hne, heldAt_of_ne hne] at hheld
  obtain ⟨hbase, hlength⟩ := Span.mk.inj (List.singleton_inj.mp hheld)
  exact ⟨BitVec.eq_of_toNat_eq hbase, BitVec.eq_of_toNat_eq hlength⟩

/-- The region entered is the same, and the old lists are kept on either side. -/
theorem Inv.entered_alike (h : Inv blockBuf w used lost)
    (h' : Inv blockBuf { w with st := s } used lost') (halike : Alike w.st s) {base size : U64}
    {err : Error} {st' : State} (hcall : insertRegion w.st base size = .ok (err, st')) :
    ∃ s', insertRegion s base size = .ok (err, s') ∧ Alike st' s' := by
  have hfit := h.slab.fits
  obtain ⟨rfl, hused, hslab, -, hsame, hspan, -, hst'⟩ := insertRegion_spec h.slab hcall
  have hslab' : SlabInv blockBuf s.blockAllocator s.mem used := h'.slab
  obtain ⟨s', hcall'⟩ := @insertRegion_returns s base size _ _ hslab' hused
  obtain ⟨-, -, hslab₂, -, hsame', hspan', -, hs'⟩ := insertRegion_spec hslab' hcall'
  have hregions : st'.regions =
      w.st.regions ++ [⟨base, size, size, descriptor blockBuf (used + 1)⟩] := by rw [hst']
  refine ⟨s', hcall', ?_, ?_⟩
  · have hblocks := hslab.globals_eq hslab₂
    rw [hs', hst', halike.globals, ← hblocks]
  · intro region hregion
    rw [hregions, List.mem_append, List.mem_singleton] at hregion
    rcases hregion with hold | rfl
    · have hhead := (h.regions region hold).head
      have hhead' : Head blockBuf s.mem used region.freeBlocks :=
        (h'.regions region (halike.regions_eq.symm ▸ hold)).head
      obtain ⟨-, hheld⟩ := hhead.congr hfit h.slab.used_le le_rfl
        fun k hk _ => hsame k hk
      obtain ⟨-, hheld'⟩ := hhead'.congr hfit h.slab.used_le le_rfl
        fun k hk _ => hsame' k hk
      rw [hheld, hheld', halike.held region hold]
    · have hne : descriptor blockBuf (used + 1) ≠ 0 := descriptor_ne_zero hfit hused.le
      rw [heldAt_of_ne hne, heldAt_of_ne hne, hspan, hspan']

theorem heldAt_congr (hfit : blockBuf.toNat + bufBytes < 2 ^ 64) {m m' : Mem} {p : U64} {k : Nat}
    (hk : k < 64) (hp : p = descriptor blockBuf k ∨ p = 0)
    (hsame : ∀ x, Within x (descriptor blockBuf k) 24 → m' x = m x) : heldAt m' p = heldAt m p := by
  rcases hp with rfl | rfl
  · have hne := descriptor_ne_zero hfit hk.le
    rw [heldAt_of_ne hne, heldAt_of_ne hne, (fields_congr hfit hk hsame).1]
  · rw [heldAt_zero, heldAt_zero]

/-- Two splits that leave the same blocks leave the same list head. -/
theorem freeBlocks_eq {m m' : Mem} {used k used₁ used₁' : Nat} {cut : Span}
    {split split' : SplitResult} {m₁ m₁' : Mem} (hfit : blockBuf.toNat + bufBytes < 2 ^ 64)
    (hk : k < 64) (h : SplitOk blockBuf m used k cut split used₁)
    (h' : SplitOk blockBuf m' used k cut split' used₁')
    (hheld : heldAt m₁' split'.freeBlocks = heldAt m₁ split.freeBlocks) :
    split'.freeBlocks = split.freeBlocks := by
  have hne := descriptor_ne_zero hfit hk.le
  rcases h.freeBlocks with hblocks | hblocks <;> rcases h'.freeBlocks with hblocks' | hblocks'
  · rw [hblocks, hblocks']
  · rw [hblocks, hblocks', heldAt_of_ne hne, heldAt_zero] at hheld
    cases hheld
  · rw [hblocks, hblocks', heldAt_of_ne hne, heldAt_zero] at hheld
    cases hheld
  · rw [hblocks, hblocks']

/-- The grant is the same, and what it leaves on the lists. -/
theorem Inv.granted_alike (h : Inv blockBuf w used lost)
    (h' : Inv blockBuf { w with st := s } used lost') (halike : Alike w.st s) (hused : used < 64)
    {i n : Nat} {region : MemoryRegion} {size alignment : U64}
    (hi : w.st.regions[i]? = some region) (hn : alignment.toNat = 2 ^ n)
    (hroom : hasRoom size region = true) {err : Error} {ret : Option U64} {st' : State}
    (hcall : allocFromRegion w.st i region size alignment = .ok (err, ret, st')) :
    ∃ s', allocFromRegion s i region size alignment = .ok (err, ret, s') ∧ Alike st' s' := by
  have hfit := h.slab.fits
  have hmem := List.mem_of_getElem? hi
  have hne := (hasRoom_eq_true.mp hroom).2
  obtain ⟨hbase, hlength⟩ := halike.block_eq hmem hne
  obtain ⟨rfl, rfl, k, used₁, split, hparts⟩ := h.grantParts hused hi hn hroom hcall
  have hi' : s.regions[i]? = some region := by rw [halike.regions_eq]; exact hi
  have hslab' : SlabInv blockBuf s.blockAllocator s.mem used := h'.slab
  obtain ⟨split', hsplit'⟩ := @exists_splitBlock blockBuf s used region.freeBlocks
    (blockBase s.mem region.freeBlocks) (blockLength s.mem region.freeBlocks)
    (alignUp (blockBase s.mem region.freeBlocks) alignment) size hne (fun v => by
      rw [hparts.head]
      exact hslab'.onlyDescriptor hparts.head_lt
        (setBlockLength_spec hfit (hparts.head_lt.trans hused) v).2.2.2) hused
  have hcall' : allocFromRegion s i region size alignment = .ok (.ofCode .success,
      some (alignUp (blockBase w.st.mem region.freeBlocks) alignment),
      grantState s i region split' (alignUp (blockBase s.mem region.freeBlocks) alignment) size) := by
    have hfits := hparts.fits
    have hnonnull := hparts.nonnull
    rw [← hbase, ← hlength] at hfits
    rw [← hbase] at hnonnull ⊢
    unfold allocFromRegion
    simp only [hfits, if_false, hsplit', ok_bind, hnonnull]
    rfl
  obtain ⟨-, -, k', used₂, split₂, hparts'⟩ := h'.grantParts hused hi' hn hroom hcall'
  have hk : k < 64 := hparts.head_lt.trans hused
  obtain rfl : k' = k := descriptor_injective hfit (hparts'.head_lt.trans hused).le hk.le
    (hparts'.head.symm.trans hparts.head)
  obtain rfl : split₂ = split' := Except.ok.inj (hparts'.cut.symm.trans hsplit')
  have hspec := hparts.spec
  have hspec' := hparts'.spec
  have hcut := hparts.cut
  have hcut' := hparts'.cut
  dsimp only at hspec' hcut'
  rw [hbase] at hspec'
  rw [hbase, hlength] at hcut'
  rw [hparts.head] at hcut hcut'
  -- either both splits take a descriptor or neither does
  obtain ⟨m₁, hslab₁⟩ := splitBlock_slab h.slab hused hparts.head_lt hcut
  obtain ⟨m₂, hslab₂⟩ := splitBlock_slab hslab' hused hparts.head_lt hcut'
  have hsplitHeld : heldAt split₂.mem split₂.freeBlocks = heldAt split.mem split.freeBlocks := by
    have hheld := halike.held region hmem
    rw [hparts.head, heldAt_of_ne (descriptor_ne_zero hfit hk.le),
      heldAt_of_ne (descriptor_ne_zero hfit hk.le)] at hheld
    rw [hspec.held, hspec'.held, List.singleton_inj.mp hheld]
  have hblocks := freeBlocks_eq hfit hk hspec hspec' hsplitHeld
  refine ⟨_, hcall', ?_, ?_⟩
  · rw [hparts.result, hbase, grantState, grantState, cutState, cutState, hblocks,
      hslab₁.globals_eq hslab₂, halike.globals]
  · intro region' hregion'
    rw [hparts.result] at hregion'
    obtain ⟨j, hj⟩ := List.mem_iff_getElem?.mp hregion'
    have hout : ∀ l < 64, ∀ x, Within x (descriptor blockBuf l) 24 → st'.mem x = split.mem x :=
      fun l hl x hx => hparts.outside x (within_buf_of_descriptor hfit hl hx)
    have hout' := fun l (hl : l < 64) x hx =>
      hparts'.outside x (within_buf_of_descriptor hfit hl hx)
    rcases getElem?_set_cases hj with ⟨-, rfl⟩ | ⟨hji, hj⟩
    · dsimp only [cutRegion]
      rw [heldAt_congr hfit hk hspec.freeBlocks (hout k' hk), ← hsplitHeld,
        ← hblocks, heldAt_congr hfit hk hspec'.freeBlocks (hout' k' hk)]
    · have hold := List.mem_of_getElem? hj
      rcases (h.regions region' hold).head with hzero | ⟨l, hl, hdesc, -⟩
      · rw [hzero, heldAt_zero, heldAt_zero]
      · have hl64 : l < 64 := hl.trans hused
        have hlk : l ≠ k' := (h.separate j i region' region hj hi hji).other_head hparts.head hne hdesc
        have hkept : heldAt st'.mem region'.freeBlocks = heldAt w.st.mem region'.freeBlocks :=
          heldAt_congr hfit hl64 (.inl hdesc) fun x hx => by
            rw [hout l hl64 x hx, hspec.frameOthers l hl hlk x hx]
        rw [hkept, ← halike.held region' hold]
        exact heldAt_congr hfit hl64 (.inl hdesc) fun x hx => by
          rw [hout' l hl64 x hx, hspec'.frameOthers l hl hlk x hx]

/-- A call of a manager that is alike has the same reply. -/
theorem Inv.perform_alike (h : Inv blockBuf w used lost)
    (h' : Inv blockBuf { w with st := s } used' lost') (halike : Alike w.st s) {c : Call}
    {err : Error} {ret : Option U64} {st' : State} (hcall : perform w.st c = .ok (err, ret, st')) :
    ∃ s', perform s c = .ok (err, ret, s') ∧ Alike st' s' := by
  obtain ⟨m, rfl⟩ : ∃ m, s = { w.st with mem := m } := ⟨_, halike.globals⟩
  obtain rfl : used' = used := h.slab.used_unique h'.slab
  cases c with
  | addRegion base size =>
    obtain ⟨hadd, rfl⟩ := perform_addRegion_eq_ok.mp hcall
    rcases addRegion_withMem w.st base size with ⟨err', hrefused⟩ | hinsert
    · obtain ⟨rfl, rfl⟩ := ok_pair_inj (hadd.symm.trans (hrefused w.st.mem))
      exact ⟨_, perform_addRegion_eq_ok.mpr ⟨hrefused m, rfl⟩, halike⟩
    · obtain ⟨s', hcall', halike'⟩ :=
        h.entered_alike h' halike ((hinsert w.st.mem).symm.trans hadd)
      exact ⟨s', perform_addRegion_eq_ok.mpr ⟨(hinsert m).trans hcall', rfl⟩, halike'⟩
  | allocAligned size alignment ret₀ =>
    rcases allocAligned_withMem w.st size alignment ret₀ with ⟨err', ret', hrefused⟩ |
      ⟨i, region, hi, halign, hfree, hroom, hgrant⟩ | ⟨stop, hstops⟩
    · obtain ⟨rfl, rfl, rfl⟩ := ok_triple_inj (hcall.symm.trans (hrefused w.st.mem))
      exact ⟨_, hrefused m, halike⟩
    · obtain ⟨n, hn⟩ := exponent_of_badAlignment halign
      have hused : used' < 64 := by
        have hle := h.slab.used_le
        rw [h.slab.free_eq, BitVec.lt_def, toNat_ofNat_of_lt (by omega)] at hfree
        simp at hfree
        omega
      obtain ⟨s', hcall', halike'⟩ := h.granted_alike h' halike hused hi hn hroom
        ((hgrant w.st.mem).symm.trans hcall)
      exact ⟨s', (hgrant m).trans hcall', halike'⟩
    · cases hcall.symm.trans (hstops w.st.mem)

end Alike

section Replay

variable {blockBuf : U64}

theorem performCalls_concat {st st₁ st₂ : State} {calls : List Call} {c : Call}
    {replies : List (Error × Option U64)} {err : Error} {ret : Option U64}
    (h : performCalls st calls = .ok (replies, st₁)) (hcall : perform st₁ c = .ok (err, ret, st₂)) :
    performCalls st (calls ++ [c]) = .ok (replies ++ [(err, ret)], st₂) := by
  induction calls generalizing st replies with
  | nil =>
    obtain ⟨rfl, rfl⟩ := ok_pair_inj h
    rw [List.nil_append, performCalls, hcall]
    rfl
  | cons first rest ih =>
    obtain ⟨⟨err', ret', st'⟩, hfirst, h⟩ := bind_eq_ok.mp h
    obtain ⟨⟨replies', st''⟩, hrest, h⟩ := bind_eq_ok.mp h
    obtain ⟨rfl, rfl⟩ := Prod.mk.inj (pure_eq_ok.mp h)
    rw [List.cons_append, performCalls, hfirst, ok_bind]
    dsimp only
    rw [ih hrest]
    rfl

theorem replay_concat {st₁ st₂ : State} {calls : List Call} {c : Call}
    {replies : List (Error × Option U64)} {err : Error} {ret : Option U64}
    (h : replay blockBuf calls = .ok (replies, st₁))
    (hcall : perform st₁ c = .ok (err, ret, st₂)) :
    replay blockBuf (calls ++ [c]) = .ok (replies ++ [(err, ret)], st₂) := by
  obtain ⟨st, hinit, hcalls⟩ := bind_eq_ok.mp h
  rw [replay, hinit]
  exact performCalls_concat hcalls hcall

/-- Whether `initialize` returns does not depend on memory, and what it leaves is alike. -/
theorem initialize_alike {m : Mem} {st : State} (m' : Mem) (hobject : blockBuf.toNat + bufBytes ≤ 2 ^ 64)
    (hinit : pmmInitialize { mem := m } blockBuf .firstFit = .ok st) :
    ∃ st', pmmInitialize { mem := m' } blockBuf .firstFit = .ok st' ∧ Alike st st' := by
  obtain ⟨hst, hslab⟩ := pmmInitialize_spec rfl hobject hinit
  obtain ⟨⟨slab, mem⟩, hgrow, -⟩ := bind_eq_ok.mp hinit
  obtain ⟨hne, haligned, hsize, -⟩ := Slab.accepted_of_grow hgrow
  have hfit := hslab.fits
  have haccepted : Slab.Accepted memoryBlock blockBuf blockBufSize :=
    ⟨hne, haligned, hsize, by rw [blockBufSize_toNat]; exact hfit⟩
  obtain ⟨mem', hgrow', -⟩ := @Slab.grow_spec _ _ ({} : Slab.SlabAlloc) _ _ memoryBlock_layout
    haccepted (by
      rw [show (Slab.blockCount memoryBlock blockBufSize).toNat = 64 by decide]
      change blockBuf.toNat + 32 + 24 * 64 + 8 ≤ 2 ^ 64
      have hdvd := haccepted.eight_dvd
      rw [bufBytes] at hfit
      omega) m'
  have hinit' : ∃ st', pmmInitialize { mem := m' } blockBuf .firstFit = .ok st' := by
    rw [pmmInitialize, hgrow']
    exact ⟨_, rfl⟩
  obtain ⟨st', hinit'⟩ := hinit'
  obtain ⟨hst', hslab'⟩ := pmmInitialize_spec rfl hobject hinit'
  refine ⟨st', hinit', ?_, ?_⟩
  · rw [hst', hst, hslab.globals_eq hslab']
  · rw [hst]
    simp

/-- A manager that is alone, having been called as this one was. -/
def Alone (blockBuf : U64) (w : Clients) (s : State) : Prop :=
  replay blockBuf (w.replies.map Prod.fst) = .ok (w.replies.map Prod.snd, s) ∧
    Alike w.world.st s ∧ ∃ used lost, Inv blockBuf { w.world with st := s } used lost

theorem ClientsInitial.alone {w : Clients} (h : ClientsInitial blockBuf w) :
    ∃ s, Alone blockBuf w s := by
  obtain ⟨⟨hobject, hoffered, hgrants, mem, hinit⟩, -, hreplies⟩ := h
  obtain ⟨s, hinit', halike⟩ := initialize_alike (fun _ => 0) hobject hinit
  have hinitial : Initial blockBuf { w.world with st := s } :=
    ⟨hobject, hoffered, hgrants, _, hinit'⟩
  refine ⟨s, ?_, halike, 0, [], hinitial.inv⟩
  rw [hreplies, replay]
  exact bind_eq_ok.mpr ⟨s, hinit', rfl⟩

/-- A store outside the buffer leaves the lists alone. -/
theorem Alike.store {w : World} {s : State} {used : Nat} {lost : List Span} {m' : Mem}
    (h : Alike w.st s) (hinv : Inv blockBuf w used lost)
    (hframe : ∀ x, Within x blockBuf bufBytes → m' x = w.st.mem x) :
    Alike { w.st with mem := m' } s := by
  have hfit := hinv.slab.fits
  refine ⟨h.globals, fun region hregion => ?_⟩
  have hkept : heldAt m' region.freeBlocks = heldAt w.st.mem region.freeBlocks :=
    ((hinv.regions region hregion).head.congr hfit hinv.slab.used_le le_rfl fun k hk _ x hx =>
      hframe x (within_buf_of_descriptor hfit (hk.trans_le hinv.slab.used_le) hx)).2
  dsimp only
  rw [hkept]
  exact h.held region hregion

theorem ClientStep.alone {w w' : Clients} {action : Action} {s : State}
    (hinv : ClientInv blockBuf w) (h : Alone blockBuf w s) (hstep : ClientStep blockBuf w action w') :
    ∃ s', Alone blockBuf w' s' := by
  obtain ⟨hreplay, halike, used', lost', hinv'⟩ := h
  obtain ⟨used, lost, hmanager⟩ := hinv.manager
  cases hstep with
  | @call c err ret st' hoffers hcall =>
    obtain ⟨s', hcall', halike'⟩ := hmanager.perform_alike hinv' halike hcall
    have hworld : ∀ (w : World) st, ({ w with st := st } : World).after s' err ret c =
        { w.after st' err ret c with st := s' } := by
      intro w st
      cases c <;> rfl
    have hst : (w.world.after st' err ret c).st = st' := by cases c <;> rfl
    obtain ⟨used₂, lost₂, hinv₂⟩ :=
      hinv'.step (step_of_perform (w := { w.world with st := s }) hoffers hcall')
    rw [hworld] at hinv₂
    refine ⟨s', ?_, ?_, used₂, lost₂, hinv₂⟩
    · rw [List.map_append, List.map_append]
      exact replay_concat hreplay hcall'
    · dsimp only
      rw [hst]
      exact halike'
  | store howner hlength hholds hframe =>
    have hmem := List.mem_reverse.mp (List.mem_of_getElem? howner)
    refine ⟨s, hreplay, halike.store hmanager fun x hx => hframe x fun hin => ?_, used', lost', hinv'⟩
    exact hmanager.grant_disjoint_buf hmem x.toNat hin
      ((within_iff hmanager.slab.fits.le).mp hx)

end Replay

/-- The calls among any stores, over any contents of memory, are replied to as they are when
made alone over zeroed memory. -/
theorem replies_eq_replay {blockBuf : U64} {w : Clients} (hrun : ClientRun blockBuf w) :
    ∃ st, replay blockBuf (w.replies.map Prod.fst) = .ok (w.replies.map Prod.snd, st) := by
  have halone : ClientInv blockBuf w ∧ ∃ s, Alone blockBuf w s := by
    refine Runs.RunWhere.induction
      (Q := fun w => ClientInv blockBuf w ∧ ∃ s, Alone blockBuf w s) ?_ ?_ hrun
    · exact fun _ hinitial => ⟨hinitial.clientInv, hinitial.alone⟩
    · rintro w action w' - ⟨hinv, s, hs⟩ - hstep
      exact ⟨hinv.step hstep, hstep.alone hinv hs⟩
  obtain ⟨-, s, hreplay, -, -⟩ := halone
  exact ⟨s, hreplay⟩

/-- Two pages granted, and sevens stored in the first. -/
theorem replies_eq_replay_sevens : ∃ w st, ClientRun 0xffffffff80100000 w ∧
    replay 0xffffffff80100000 [.addRegion 0x1000 0x3000, .allocAligned 0x1000 0x1000 (some 0),
      .allocAligned 0x1000 0x1000 (some 0)] = .ok ([(.ofCode .success, none),
        (.ofCode .success, some 0x1000), (.ofCode .success, some 0x2000)], st) := by
  obtain ⟨w, hrun, -, -, hreplies⟩ := exists_clientRun_sevens
  obtain ⟨st, hreplay⟩ := replies_eq_replay hrun
  rw [hreplies] at hreplay
  exact ⟨w, st, hrun, hreplay⟩

end Octiron.Pmm
