import Octiron.Pmm.AllocAligned

/-! `add_region` keeps the invariant: an accepted region enters the table whole,
as one free block. -/
namespace Octiron.Pmm

open Lib Lib.Word Lib.ByteMemory Lib.Span Exec

/-- Rounding leaves a page-aligned word alone. -/
theorem alignUp_pageSize_of_dvd {v : U64} (h : pageBytes ∣ v.toNat)
    (hfit : v.toNat + 2 ^ 12 ≤ 2 ^ 64) : alignUp v pageSize = v := by
  apply BitVec.eq_of_toNat_eq
  rw [alignUp_toNat pageSize_toNat hfit]
  rw [pageBytes] at h
  omega

theorem alignDown_pageSize_of_dvd {v : U64} (h : pageBytes ∣ v.toNat) :
    alignDown v pageSize = v := by
  apply BitVec.eq_of_toNat_eq
  rw [alignDown_toNat pageSize_toNat]
  rw [pageBytes] at h
  omega

/-- A call that returns has refused and changed nothing, or has entered the region. -/
theorem addRegion_cases {st st' : State} {base size : U64} {err : Error}
    (h : addRegion st base size = .ok (err, st')) :
    (err.isOk = false ∧ st' = st) ∨
      insertRegion st (alignUp base pageSize)
        (alignDown (size - (alignUp base pageSize - base)) pageSize) = .ok (err, st') := by
  unfold addRegion at h
  dsimp only at h
  split at h
  · obtain ⟨rfl, rfl⟩ := ok_pair_inj h
    exact .inl ⟨rfl, rfl⟩
  split at h
  · obtain ⟨rfl, rfl⟩ := ok_pair_inj h
    exact .inl ⟨rfl, rfl⟩
  split at h
  · obtain ⟨rfl, rfl⟩ := ok_pair_inj h
    exact .inl ⟨rfl, rfl⟩
  split at h
  · obtain ⟨rfl, rfl⟩ := ok_pair_inj h
    exact .inl ⟨rfl, rfl⟩
  exact .inr h

/-- Past its tests `add_region` takes two descriptors, fills in the second and
succeeds, or stops on the way. -/
theorem insertRegion_parts {st st' : State} {base size : U64} {err : Error}
    (h : insertRegion st base size = .ok (err, st')) :
    err = .ofCode .success ∧ ∃ first slab₁ m₁ block slab m₂, first ≠ 0 ∧ block ≠ 0 ∧
      Slab.alloc memoryBlock st.blockAllocator st.mem = .ok (first, slab₁, m₁) ∧
      Slab.alloc memoryBlock slab₁ m₁ = .ok (block, slab, m₂) ∧
      st' = { st with
        regions := st.regions ++ [⟨base, size, size, block⟩]
        totalBytes := st.totalBytes + size
        freeBytes := st.freeBytes + size
        blockAllocator := slab
        mem := setBlockNext (setBlockLength (setBlockBase m₂ block base) block size) block 0 } := by
  obtain ⟨⟨first, slab₁, m₁⟩, halloc₁, h⟩ := bind_eq_ok.mp h
  obtain ⟨_, hassert, h⟩ := bind_eq_ok.mp h
  obtain ⟨⟨block, slab, m₂⟩, halloc₂, h⟩ := bind_eq_ok.mp h
  obtain ⟨_, _, h⟩ := bind_eq_ok.mp h
  obtain ⟨_, hderef, h⟩ := bind_eq_ok.mp h
  obtain ⟨rfl, rfl⟩ := Prod.mk.inj (pure_eq_ok.mp h)
  exact ⟨rfl, first, slab₁, m₁, block, slab, m₂, bne_iff_ne.mp (kassert_eq_ok.mp hassert),
    deref_eq_ok.mp hderef, halloc₁, halloc₂, rfl⟩

/-- What entering a region does: two descriptors are taken and the second one,
the new region's block, is filled in. -/
theorem insertRegion_spec {blockBuf : U64} {st st' : State} {base size : U64} {err : Error}
    {used : Nat} (hslab : SlabInv blockBuf st.blockAllocator st.mem used)
    (h : insertRegion st base size = .ok (err, st')) :
    err = .ofCode .success ∧ used + 1 < 64 ∧
      SlabInv blockBuf st'.blockAllocator st'.mem (used + 2) ∧
      FrameBuf blockBuf st.mem st'.mem ∧
      (∀ j < used, ∀ x, Within x (descriptor blockBuf j) 24 → st'.mem x = st.mem x) ∧
      blockSpan st'.mem (descriptor blockBuf (used + 1)) = ⟨base.toNat, size.toNat⟩ ∧
      blockNext st'.mem (descriptor blockBuf (used + 1)) = 0 ∧
      st' = { st with
        regions := st.regions ++ [⟨base, size, size, descriptor blockBuf (used + 1)⟩]
        totalBytes := st.totalBytes + size
        freeBytes := st.freeBytes + size
        blockAllocator := st'.blockAllocator
        mem := st'.mem } := by
  have hfit := hslab.fits
  have hle := hslab.used_le
  obtain ⟨herr, first, slab₁, m₁, block, slab, m₂, hfirst, hblock, hcall₁, hcall₂, rfl⟩ :=
    insertRegion_parts h
  have hused : used < 64 := by
    refine lt_of_le_of_ne hle fun heq => ?_
    subst heq
    rw [slabAlloc_exhausted hslab] at hcall₁
    exact hfirst (ok_pair_inj hcall₁).1.symm
  obtain ⟨s₁, n₁, halloc₁, hslab₁, hframe₁⟩ := slabAlloc_spec hslab hused
  obtain ⟨rfl, rfl, rfl⟩ := ok_triple_inj (hcall₁.symm.trans halloc₁)
  have hused' : used + 1 < 64 := by
    refine lt_of_le_of_ne hused fun heq => ?_
    rw [show used + 1 = 64 from heq] at hslab₁
    rw [slabAlloc_exhausted hslab₁] at hcall₂
    exact hblock (ok_pair_inj hcall₂).1.symm
  obtain ⟨s₂, n₂, halloc₂, hslab₂, hframe₂⟩ := slabAlloc_spec hslab₁ hused'
  obtain ⟨rfl, rfl, rfl⟩ := ok_triple_inj (hcall₂.symm.trans halloc₂)
  obtain ⟨hspan, hnext, honly⟩ := fillBlock_spec hfit (m := m₂) hused' base size
  refine ⟨herr, hused', hslab₂.onlyDescriptor (Nat.lt_succ_self _) honly, ?_, ?_, hspan, hnext, rfl⟩
  · intro x hx
    exact ((honly.frameBuf hfit hused' x hx).trans (hframe₂.frameBuf hfit hused' x hx)).trans
      (hframe₁.frameBuf hfit hused x hx)
  · intro j hj x hx
    have hj64 : j < 64 := hj.trans_le hle
    exact ((honly x (not_within_descriptor hfit hj64 hused' (by omega) hx)).trans
      (hframe₂.other hfit hj64 hused' (by omega) hx)).trans
      (hframe₁.other hfit hj64 hused (by omega) hx)

/-- An entry of a table with one more row is an old one or the last. -/
theorem getElem?_concat {α : Type} {l : List α} {a b : α} {n : Nat}
    (h : (l ++ [a])[n]? = some b) : l[n]? = some b ∨ (n = l.length ∧ b = a) := by
  rw [List.getElem?_append] at h
  split at h
  · exact .inl h
  · rename_i hle
    rw [List.getElem?_singleton] at h
    split at h
    · exact .inr ⟨by omega, (Option.some.inj h).symm⟩
    · cases h

/-- What holds of any two rows of a table holds with one more row that fits. -/
theorem forall_ne_concat {α : Type} {R : α → α → Prop} {l : List α} {a : α}
    (h : ∀ (n n' : Nat) (r r' : α), l[n]? = some r → l[n']? = some r' → n ≠ n' → R r r')
    (hfresh : ∀ r ∈ l, R r a ∧ R a r) (n n' : Nat) (r r' : α)
    (hn : (l ++ [a])[n]? = some r) (hn' : (l ++ [a])[n']? = some r') (hnn : n ≠ n') : R r r' := by
  rcases getElem?_concat hn with hold | ⟨hlast, rfl⟩ <;>
    rcases getElem?_concat hn' with hold' | ⟨hlast', rfl⟩
  · exact h n n' r r' hold hold' hnn
  · exact (hfresh r (List.mem_of_getElem? hold)).1
  · exact (hfresh r' (List.mem_of_getElem? hold')).2
  · exact absurd (hlast.trans hlast'.symm) hnn

/-- A region that lies apart from all others, entered as one free block. -/
theorem Inv.regionInv_fresh {blockBuf : U64} {w : World} {used used' : Nat} {lost : List Span}
    {m : Mem} {fresh : MemoryRegion} (h : Inv blockBuf w used lost)
    (husable : Usable blockBuf w.offered (regionSpan fresh)) (hfree : fresh.freeBytes = fresh.length)
    (hhead : Head blockBuf m used' fresh.freeBlocks)
    (hheld : heldAt m fresh.freeBlocks = [regionSpan fresh]) :
    RegionInv blockBuf m used' w.grants lost fresh := by
  have hapart : ∀ r ∈ w.st.regions, Disjoint (regionSpan fresh) (regionSpan r) :=
    fun r hr => husable.fresh _ (h.offered r hr)
  have houtside : ∀ ss : List Span,
      (∀ g ∈ ss, ∃ r ∈ w.st.regions, Inside g (regionSpan r)) →
      ∀ x ∈ regionSpan fresh, cover ss x = 0 := by
    intro ss hss x hx
    refine cover_eq_zero_of_disjoint (fun g hg => ?_) hx
    obtain ⟨r, hr, hin⟩ := hss g hg
    exact (hapart r hr).symm.mono hin ⟨le_rfl, le_rfl⟩
  have hnone : lostIn lost fresh = [] := by
    rw [lostIn, List.filter_eq_nil_iff]
    intro s hs hin
    obtain ⟨hpos, r, hr, hold⟩ := h.lost s hs
    have hfirst : s.base ∈ s := ⟨le_rfl, by omega⟩
    exact hapart r hr s.base ((of_decide_eq_true hin).mem hfirst) (hold.mem hfirst)
  refine ⟨husable.high, husable.disjoint_buf, hhead, ?_, ?_, ?_, hfree ▸ le_rfl⟩
  · intro s hs
    rw [hheld, List.mem_singleton] at hs
    rw [hs]
    exact ⟨⟨le_rfl, le_rfl⟩, husable.length_pos⟩
  · intro x hx
    rw [hheld, cover_singleton, if_pos hx, houtside _ h.grants x hx,
      houtside _ (fun g hg => (h.lost g hg).2) x hx]
  · rw [hheld, hnone, hfree]
    rfl

/-- Entering a region keeps the invariant. -/
theorem addRegion_spec {blockBuf : U64} {w : World} {used : Nat} {lost : List Span}
    {base size : U64} {err : Error} {st' : State} (h : Inv blockBuf w used lost)
    (husable : Usable blockBuf w.offered ⟨base.toNat, size.toNat⟩)
    (hcall : addRegion w.st base size = .ok (err, st')) :
    ∃ used', Inv blockBuf ⟨st', ⟨base.toNat, size.toNat⟩ :: w.offered, w.grants⟩ used' lost := by
  rcases addRegion_cases hcall with ⟨-, rfl⟩ | hinsert
  · exact ⟨used, { h with offered := fun r hr => List.mem_cons_of_mem _ (h.offered r hr) }⟩
  have hbaseUp : alignUp base pageSize = base :=
    alignUp_pageSize_of_dvd husable.base_aligned (by have := husable.high; dsimp at this; omega)
  rw [hbaseUp, show size - (base - base) = size by simp,
    alignDown_pageSize_of_dvd husable.length_aligned] at hinsert
  obtain ⟨-, hused, hslab, -, hsame, hspan, hnext, hst'⟩ := insertRegion_spec h.slab hinsert
  have hfit := h.slab.fits
  set fresh : MemoryRegion := ⟨base, size, size, descriptor blockBuf (used + 1)⟩ with hfresh
  have hne : descriptor blockBuf (used + 1) ≠ 0 := descriptor_ne_zero hfit hused.le
  have hregions : st'.regions = w.st.regions ++ [fresh] := by rw [hst']
  have hapart : ∀ r ∈ w.st.regions, Disjoint (regionSpan fresh) (regionSpan r) :=
    fun r hr => husable.fresh _ (h.offered r hr)
  have holdHead : ∀ r ∈ w.st.regions, Head blockBuf st'.mem (used + 2) r.freeBlocks ∧
      heldAt st'.mem r.freeBlocks = heldAt w.st.mem r.freeBlocks := fun r hr =>
    (h.regions r hr).head.congr hfit h.slab.used_le (by omega) fun k hk _ => hsame k hk
  have hlists : ∀ r ∈ w.st.regions, r.freeBlocks = 0 ∨ r.freeBlocks ≠ fresh.freeBlocks := by
    intro r hr
    rcases (h.regions r hr).head with hzero | ⟨k, hk, hdesc, -⟩
    · exact .inl hzero
    · refine .inr fun heq => ?_
      have := descriptor_injective hfit (hk.trans_le h.slab.used_le).le hused.le (hdesc ▸ heq)
      omega
  refine ⟨used + 2, hslab, by rw [hst']; exact h.pol, ?_, ?_, ?_, ?_, ?_⟩
  · intro r hr
    rw [hregions, List.mem_append, List.mem_singleton] at hr
    rcases hr with hr | rfl
    · exact List.mem_cons_of_mem _ (h.offered r hr)
    · exact List.mem_cons_self
  · intro r hr
    rw [hregions, List.mem_append, List.mem_singleton] at hr
    rcases hr with hr | rfl
    · obtain ⟨hhead, hheld⟩ := holdHead r hr
      exact (h.regions r hr).congr hhead hheld (fun x _ => rfl) (fun x _ => rfl) rfl
    · refine h.regionInv_fresh husable rfl (.inr ⟨used + 1, by omega, rfl, hnext⟩) ?_
      rw [heldAt_of_ne hne, hspan]
      rfl
  · rw [hregions]
    refine forall_ne_concat h.separate fun r hr =>
      ⟨⟨(hapart r hr).symm, hlists r hr⟩, hapart r hr, .inr fun heq => ?_⟩
    rcases hlists r hr with hzero | hdiff
    · exact hne (heq.trans hzero)
    · exact hdiff heq.symm
  · intro g hg
    obtain ⟨r, hr, hin⟩ := h.grants g hg
    exact ⟨r, hregions ▸ List.mem_append_left _ hr, hin⟩
  · intro g hg
    obtain ⟨hpos, r, hr, hin⟩ := h.lost g hg
    exact ⟨hpos, r, hregions ▸ List.mem_append_left _ hr, hin⟩

end Octiron.Pmm
