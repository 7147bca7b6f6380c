import Octiron.Pmm.Worn
import Octiron.Pmm.Admission

/-! What any sequence of calls keeps, whatever their arguments: the slab is worn at
most, and every region's list is empty or one handed-out descriptor, no two the same. -/
namespace Octiron.Pmm

open Lib Lib.Word Lib.ByteMemory Lib.Span Exec

structure WornInv (blockBuf : U64) (st : State) (used : Nat) : Prop where
  slab : WornSlab blockBuf st.blockAllocator st.mem used
  heads : ∀ region ∈ st.regions, region.freeBlocks = 0 ∨
    ∃ k < used, region.freeBlocks = descriptor blockBuf k
  lists : ∀ (i j : Nat) (r r' : MemoryRegion), st.regions[i]? = some r →
    st.regions[j]? = some r' → i ≠ j → r.freeBlocks = 0 ∨ r.freeBlocks ≠ r'.freeBlocks
  /-- Entering a region takes two descriptors, and only regions are cut. -/
  taken : 2 * st.regions.length ≤ used
  empty : st.regions = [] → used = 0

/-- A split that needs no descriptor, or gets one, returns. -/
theorem splitBlock_returns {st : State} {head b n a size extra : U64} {slab : Slab.SlabAlloc}
    {m : Mem} (hhead : head ≠ 0) (hextra : extra ≠ 0)
    (halloc : Slab.alloc memoryBlock st.blockAllocator (setBlockLength st.mem head (a - b)) =
      .ok (extra, slab, m)) :
    ∃ split, splitBlock st head 0 head b n a size = .ok split ∧
      (b ≠ a → b + n > a + size → split.slab = slab) := by
  have hassert : (extra != 0) = true := bne_iff_ne.mpr hextra
  unfold splitBlock
  simp only [deref_of_ne hhead, ok_bind]
  split
  · simp only [halloc, ok_bind, hassert, kassert_true]
    exact ⟨_, rfl, fun _ _ => rfl⟩
  · rename_i hboth
    have hnot : b ≠ a → b + n > a + size → ∀ s : Slab.SlabAlloc, s = slab :=
      fun hfront htail => absurd ⟨hfront, htail⟩ hboth
    split
    · exact ⟨_, rfl, fun hfront htail => hnot hfront htail _⟩
    split
    · exact ⟨_, rfl, fun hfront htail => hnot hfront htail _⟩
    · exact ⟨_, rfl, fun hfront htail => hnot hfront htail _⟩

/-- What a split of the `k`-th descriptor's block leaves behind. -/
structure WornSplit (blockBuf : U64) (m : Mem) (used k : Nat) (a size : U64)
    (split : SplitResult) (used' : Nat) : Prop where
  used_le : used ≤ used'
  slab : WornSlab blockBuf split.slab split.mem used'
  others : FrameOthers blockBuf used k m split.mem
  freeBlocks : split.freeBlocks = descriptor blockBuf k ∨ split.freeBlocks = 0
  kept : split.freeBlocks = descriptor blockBuf k →
    let b := blockBase m (descriptor blockBuf k)
    let n := blockLength m (descriptor blockBuf k)
    (b ≠ a ∧ blockSpan split.mem (descriptor blockBuf k) = ⟨b.toNat, (a - b).toNat⟩) ∨
      (b = a ∧ b + n > a + size ∧ blockSpan split.mem (descriptor blockBuf k) =
        ⟨(a + size).toNat, (b + n - (a + size)).toNat⟩)

section Split

variable {blockBuf : U64} {st : State} {used k : Nat} {a size : U64} {split : SplitResult}

theorem splitBlock_worn (h : WornSlab blockBuf st.blockAllocator st.mem used) (hk : k < used)
    (hsplit : splitBlock st (descriptor blockBuf k) 0 (descriptor blockBuf k)
      (blockBase st.mem (descriptor blockBuf k)) (blockLength st.mem (descriptor blockBuf k))
      a size = .ok split) :
    ∃ used', WornSplit blockBuf st.mem used k a size split used' := by
  have hfit := h.fits
  have hused := h.used_le
  have hk64 : k < 64 := hk.trans_le hused
  have hne := descriptor_ne_zero hfit hk64.le
  have hnext := h.next k hk
  set b := blockBase st.mem (descriptor blockBuf k) with hb
  set n := blockLength st.mem (descriptor blockBuf k) with hn
  obtain ⟨-, hmiddle | hfront | htail | hexact⟩ := splitBlock_cases hsplit
  · obtain ⟨hcut, -, extra, slab, m₂, hextra, halloc, rfl⟩ := hmiddle
    obtain ⟨hbase, hlength, hnext₁, honly⟩ := setBlockLength_spec hfit (m := st.mem) hk64 (a - b)
    set m₁ := setBlockLength st.mem (descriptor blockBuf k) (a - b)
    have hslab₁ := h.onlyDescriptor hk honly (hnext₁.trans hnext)
    obtain ⟨hroom, rfl, hslab₂, hframe, -, -⟩ := slabAlloc_cases hslab₁ halloc hextra
    have hlast : used < used + 1 := Nat.lt_succ_self used
    obtain ⟨-, -, hnext₃, honly₃⟩ := setBlockBase_spec hfit (m := m₂) hroom (a + size)
    have hslab₃ := hslab₂.onlyDescriptor hlast honly₃ (hnext₃.trans (hslab₂.next used hlast))
    set m₃ := setBlockBase m₂ (descriptor blockBuf used) (a + size)
    obtain ⟨-, -, hnext₄, honly₄⟩ := setBlockLength_spec hfit (m := m₃) hroom (b + n - (a + size))
    have hslab₄ := hslab₃.onlyDescriptor hlast honly₄ (hnext₄.trans (hslab₃.next used hlast))
    set m₄ := setBlockLength m₃ (descriptor blockBuf used) (b + n - (a + size))
    obtain ⟨-, -, hnext₅, honly₅⟩ := setBlockNext_spec hfit (m := m₄) hroom
      (blockNext m₄ (descriptor blockBuf k))
    have hzero : blockNext m₄ (descriptor blockBuf k) = 0 := hslab₄.next k (hk.trans hlast)
    have hslab₅ := hslab₄.onlyDescriptor hlast honly₅ (hnext₅.trans hzero)
    have hextraOnly := (honly₃.trans honly₄).trans honly₅
    set m₅ := setBlockNext m₄ (descriptor blockBuf used) (blockNext m₄ (descriptor blockBuf k))
    have hsame : ∀ j < used, ∀ x, Within x (descriptor blockBuf j) 24 → m₅ x = m₁ x := by
      intro j hj x hx
      have hother := not_within_descriptor hfit (hj.trans_le hused) hroom hj.ne hx
      rw [hextraOnly x hother, hframe x (fun hin => not_within_of_header hfit
        (hj.trans_le hused) hin hx) hother]
    refine ⟨used + 1, Nat.le_succ used, hslab₅, ?_, .inl rfl, fun _ => .inl ⟨hcut, ?_⟩⟩
    · intro j hj hjk x hx
      exact (hsame j hj x hx).trans (honly.frameOthers hfit hk64 hused j hj hjk x hx)
    · dsimp only
      rw [(fields_congr hfit hk64 (hsame k hk)).1, blockSpan, hbase, hlength]
  · obtain ⟨hcut, -, rfl⟩ := hfront
    obtain ⟨hbase, hlength, hnext₁, honly⟩ := setBlockLength_spec hfit (m := st.mem) hk64 (a - b)
    refine ⟨used, le_rfl, h.onlyDescriptor hk honly (hnext₁.trans hnext),
      honly.frameOthers hfit hk64 hused, .inl rfl, fun _ => .inl ⟨hcut, ?_⟩⟩
    dsimp only
    rw [blockSpan, hbase, hlength]
  · obtain ⟨hcut, hlast, rfl⟩ := htail
    obtain ⟨hbase, -, hnext₁, honly⟩ := setBlockBase_spec hfit (m := st.mem) hk64 (a + size)
    set m₁ := setBlockBase st.mem (descriptor blockBuf k) (a + size)
    obtain ⟨hbase', hlength, hnext₂, honly'⟩ := setBlockLength_spec hfit (m := m₁) hk64
      (b + n - (a + size))
    refine ⟨used, le_rfl,
      h.onlyDescriptor hk (honly.trans honly') ((hnext₂.trans hnext₁).trans hnext),
      (honly.trans honly').frameOthers hfit hk64 hused, .inl rfl,
      fun _ => .inr ⟨hcut, hlast, ?_⟩⟩
    dsimp only
    rw [blockSpan, hbase', hbase, hlength]
  · obtain ⟨-, -, rfl⟩ := hexact
    refine ⟨used, le_rfl, h, fun j _ _ x _ => rfl, .inr hnext, fun hhead => ?_⟩
    exact absurd (hnext.symm.trans hhead).symm hne

end Split

theorem eight_dvd_alignUp {alignment : U64} (h : badAlignment alignment = false) (v : U64) :
    8 ∣ (alignUp v alignment).toNat := by
  obtain ⟨k, hk⟩ := exponent_of_badAlignment h
  have hlarge : (8 : Nat) ∣ 2 ^ k := by
    rw [badAlignment, Bool.or_eq_false_iff, decide_eq_false_iff_not, BitVec.lt_def,
      pageSize_toNat, hk, Nat.not_lt, Nat.pow_le_pow_iff_right (by decide)] at h
    exact Nat.pow_dvd_pow 2 (show 3 ≤ k by omega)
  exact hlarge.trans (dvd_alignUp hk)

/-- The state a successful search leaves: the cut state with the grant zeroed. -/
def grantedState (st : State) (i : Nat) (region : MemoryRegion) (split : SplitResult)
    (a size : U64) : State :=
  { cutState st i region split size with mem := setRange split.mem a size.toNat 0 }

section Step

variable {blockBuf : U64} {st st' : State} {used : Nat}

/-- Cutting one region's list keeps the others. -/
theorem WornInv.granted {i k : Nat} {region : MemoryRegion} {a size : U64} {split : SplitResult}
    {used' : Nat} (h : WornInv blockBuf st used) (hi : st.regions[i]? = some region)
    (hdesc : region.freeBlocks = descriptor blockBuf k) (hk : k < used)
    (hsplit : WornSplit blockBuf st.mem used k a size split used') (ha : 8 ∣ a.toNat)
    (hsize : 8 ∣ size.toNat) :
    WornInv blockBuf (grantedState st i region split a size) used' := by
  have hlen : i < st.regions.length := (List.getElem?_eq_some_iff.mp hi).1
  have hle := hsplit.used_le
  have hnew : ∀ (n : Nat) (r : MemoryRegion),
      (grantedState st i region split a size).regions[n]? = some r →
      (n = i ∧ r = cutRegion region split.freeBlocks size) ∨
        (n ≠ i ∧ st.regions[n]? = some r) :=
    fun _ _ => getElem?_set_cases
  refine ⟨hsplit.slab.fill ha hsize, ?_, ?_, ?_, ?_⟩
  · intro r hr
    obtain ⟨n, hn⟩ := List.getElem?_of_mem hr
    rcases hnew n r hn with ⟨-, rfl⟩ | ⟨-, hold⟩
    · rcases hsplit.freeBlocks with hsame | hzero
      · exact .inr ⟨k, hk.trans_le hle, hsame⟩
      · exact .inl hzero
    · rcases h.heads r (List.mem_of_getElem? hold) with hzero | ⟨j, hj, hr⟩
      · exact .inl hzero
      · exact .inr ⟨j, hj.trans_le hle, hr⟩
  · intro n n' r r' hn hn' hnn
    rcases hnew n r hn with ⟨rfl, rfl⟩ | ⟨hni, hold⟩ <;>
      rcases hnew n' r' hn' with ⟨rfl, rfl⟩ | ⟨hni', hold'⟩
    · exact absurd rfl hnn
    · rcases hsplit.freeBlocks with hsame | hzero
      · rw [cutRegion, hsame, ← hdesc]
        exact h.lists n n' region r' hi hold' hnn
      · exact .inl hzero
    · rcases hsplit.freeBlocks with hsame | hzero
      · rw [cutRegion, hsame, ← hdesc]
        exact h.lists n n' r region hold hi hnn
      · rw [cutRegion, hzero]
        by_cases hempty : r.freeBlocks = 0
        · exact .inl hempty
        · exact .inr hempty
    · exact h.lists n n' r r' hold hold' hnn
  · have hcount := h.taken
    rw [grantedState, cutState, List.length_set]
    omega
  · intro hnone
    rw [grantedState, cutState, List.set_eq_nil_iff] at hnone
    rw [hnone] at hlen
    exact absurd hlen (Nat.not_lt_zero i)

/-- A search that ends in a region found its only block large enough. -/
theorem allocFromRegion_worn {i : Nat} {region : MemoryRegion} {size alignment : U64}
    {err : Error} {ret : Option U64} (h : WornInv blockBuf st used)
    (hi : st.regions[i]? = some region) (hhead : region.freeBlocks ≠ 0)
    (hcall : allocFromRegion st i region size alignment = .ok (err, ret, st')) :
    let b := blockBase st.mem region.freeBlocks
    let n := blockLength st.mem region.freeBlocks
    let a := alignUp b alignment
    ¬ b + n < a + size ∧ ret = some a ∧ (size = 0 ∨ a ≠ 0) ∧
      ∃ k used' split, k < used ∧ region.freeBlocks = descriptor blockBuf k ∧
        WornSplit blockBuf st.mem used k a size split used' ∧
        st' = grantedState st i region split a size := by
  intro b n a
  obtain ⟨k, hk, hdesc⟩ := (h.heads region (List.mem_of_getElem? hi)).resolve_left hhead
  obtain ⟨split, hsplit, hcall⟩ := bind_eq_ok.mp hcall
  obtain ⟨_, hderef, hcall⟩ := bind_eq_ok.mp hcall
  obtain ⟨-, hrest⟩ := Prod.mk.inj (pure_eq_ok.mp hcall)
  obtain ⟨rfl, rfl⟩ := Prod.mk.inj hrest
  -- a head that is too small has no successor, and the split would dereference null
  have hfits : ¬ b + n < a + size := by
    intro hsmall
    rw [if_pos hsmall, if_pos hsmall, hdesc, h.slab.next k hk] at hsplit
    obtain ⟨_, hnull, _⟩ := bind_eq_ok.mp hsplit
    exact deref_eq_ok.mp hnull rfl
  rw [if_neg hfits, if_neg hfits, hdesc] at hsplit
  obtain ⟨used', hworn⟩ := splitBlock_worn h.slab hk hsplit
  rw [← hdesc] at hworn
  refine ⟨hfits, rfl, ?_, k, used', split, hk, hdesc, hworn, ?_⟩
  · by_cases hsize : size = 0
    · exact .inl hsize
    · rw [derefBytes, if_neg hsize] at hderef
      exact .inr (deref_eq_ok.mp hderef)
  · rw [grantedState, ← Memory.fill_eq_setRange _ _ _ size.isLt.le]
    rfl

/-- Entering a region found two descriptors. -/
theorem insertRegion_worn {base size : U64} {err : Error} (h : WornInv blockBuf st used)
    (hcall : insertRegion st base size = .ok (err, st')) :
    used + 1 < 64 ∧ WornInv blockBuf st' (used + 2) ∧
      (∀ j < used, ∀ x, Within x (descriptor blockBuf j) 24 → st'.mem x = st.mem x) ∧
      blockSpan st'.mem (descriptor blockBuf (used + 1)) = ⟨base.toNat, size.toNat⟩ ∧
      st'.regions = st.regions ++ [⟨base, size, size, descriptor blockBuf (used + 1)⟩] := by
  have hfit := h.slab.fits
  have hle := h.slab.used_le
  obtain ⟨-, first, slab₁, m₁, block, slab, m₂, hfirst, hblock, hcall₁, hcall₂, rfl⟩ :=
    insertRegion_parts hcall
  obtain ⟨hused, rfl, hslab₁, hframe₁, -, -⟩ := slabAlloc_cases h.slab hcall₁ hfirst
  obtain ⟨hused', rfl, hslab₂, hframe₂, -, -⟩ := slabAlloc_cases hslab₁ hcall₂ hblock
  obtain ⟨hspan, hnext, honly⟩ := fillBlock_spec hfit (m := m₂) hused' base size
  have hlast := Nat.lt_succ_self (used + 1)
  have hkept : ∀ j < used, ∀ x, Within x (descriptor blockBuf j) 24 → _ = st.mem x :=
    fun j hj x hx => ((honly x (not_within_descriptor hfit (by omega) hused' (by omega) hx)).trans
      (hframe₂.other hfit (by omega) hused' (by omega) hx)).trans
      (hframe₁.other hfit (by omega) hused (by omega) hx)
  refine ⟨hused', ⟨hslab₂.onlyDescriptor hlast honly hnext, ?_, ?_, ?_, ?_⟩, hkept, hspan, rfl⟩
  · intro r hr
    rcases List.mem_append.mp hr with hold | hnew
    · rcases h.heads r hold with hzero | ⟨k, hk, hdesc⟩
      · exact .inl hzero
      · exact .inr ⟨k, by omega, hdesc⟩
    · rw [List.mem_singleton.mp hnew]
      exact .inr ⟨used + 1, by omega, rfl⟩
  · have hfresh : ∀ r ∈ st.regions, r.freeBlocks = 0 ∨
        r.freeBlocks ≠ descriptor blockBuf (used + 1) := by
      intro r hr
      rcases h.heads r hr with hzero | ⟨k, hk, hdesc⟩
      · exact .inl hzero
      · refine .inr fun heq => ?_
        have := descriptor_injective hfit (by omega) hused'.le (hdesc.symm.trans heq)
        omega
    refine forall_ne_concat h.lists fun r hr => ⟨hfresh r hr, .inr fun heq => ?_⟩
    rcases hfresh r hr with hzero | hdiff
    · exact hblock (heq.trans hzero)
    · exact hdiff heq.symm
  · have hcount := h.taken
    rw [List.length_append, List.length_singleton]
    omega
  · intro hnone
    exact absurd hnone (by simp)

theorem Initialized.wornInv (h : Initialized blockBuf st) : WornInv blockBuf st 0 := by
  have hregions := h.regions_eq
  obtain ⟨hobject, mem, p, hcall⟩ := h
  obtain ⟨-, hslab⟩ := pmmInitialize_spec rfl hobject hcall
  obtain ⟨⟨slab, mem'⟩, hgrow, hpure⟩ := bind_eq_ok.mp hcall
  obtain ⟨_, _, hgrow⟩ := bind_eq_ok.mp hgrow
  obtain ⟨_, haligned, hgrow⟩ := bind_eq_ok.mp hgrow
  obtain ⟨_, _, hgrow⟩ := bind_eq_ok.mp hgrow
  obtain ⟨mLinked, _, hgrow⟩ := bind_eq_ok.mp hgrow
  obtain ⟨-, hmem⟩ := Prod.mk.inj (pure_eq_ok.mp hgrow)
  have hnext : load64 st.mem (blockBuf + 24) = 0 := by
    rw [← pure_eq_ok.mp hpure]
    dsimp only
    rw [← hmem]
    exact load64_store64_same _ _ _
  have hwords : 8 ∣ blockBuf.toNat := by
    have heq := kassert_eq_ok.mp haligned
    rw [beq_iff_eq] at heq
    have hmod : blockBuf.toNat % 8 = 0 := by
      simpa [Slab.regionAlign] using congrArg BitVec.toNat heq
    exact Nat.dvd_of_mod_eq_zero hmod
  refine ⟨⟨hslab.nonnull, hwords, hslab.fits, hslab.used_le, hslab.regions_eq, hslab.total_eq,
    hslab.free_eq, .inr hslab.header_free, .inr hslab.header_blocks, hnext,
    fun k hlow hk => .inr (hslab.link k hlow hk), ?_⟩, ?_, ?_, ?_, fun _ => rfl⟩
  · exact fun k hk => absurd hk (Nat.not_lt_zero k)
  · simp [hregions]
  · simp [hregions]
  · simp [hregions]

theorem WornInv.step {call : Call} (h : WornInv blockBuf st used) (hreturns : Returns st call st') :
    ∃ used', WornInv blockBuf st' used' := by
  rcases hreturns.cases with rfl | ⟨base, size, -, -, hinsert⟩ |
    ⟨size, alignment, ret, i, region, ret', -, hi, hreach, hsearch⟩
  · exact ⟨used, h⟩
  · exact ⟨used + 2, (insertRegion_worn h hinsert).2.1⟩
  · have hhead := hreach.room.2
    obtain ⟨-, -, -, k, used', split, hk, hdesc, hsplit, rfl⟩ :=
      allocFromRegion_worn h hi hhead hsearch
    refine ⟨used', h.granted hi hdesc hk hsplit (eight_dvd_alignUp hreach.alignment _) ?_⟩
    exact (by decide : 8 ∣ 2 ^ 12).trans (dvd_alignUp pageSize_toNat)

/-- Every reachable state is worn at most. -/
theorem Reachable.wornInv (h : Reachable blockBuf st) : ∃ used, WornInv blockBuf st used := by
  refine Runs.RunWhere.induction (Q := fun st => ∃ used, WornInv blockBuf st used) ?_ ?_ h
  · exact fun _ hinit => ⟨0, hinit.wornInv⟩
  · rintro _ _ _ - ⟨_, hinv⟩ - hreturns
    exact hinv.step hreturns

end Step

end Octiron.Pmm
