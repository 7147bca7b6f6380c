import Octiron.Pmm.Calls

/-! `BLOCK_BUF` under calls with arbitrary arguments.  Nothing keeps a region away
from the buffer, and a grant zeroes what it covers in whole words: every word of
the slab is intact or zero, and no list gets longer than one block. -/
namespace Octiron.Pmm

open Lib Lib.Word Lib.ByteMemory Exec

/-- A word that held `v` and may have been zeroed since. -/
def Worn (v w : U64) : Prop := w = 0 ∨ w = v

structure WornSlab (blockBuf : U64) (s : Slab.SlabAlloc) (m : Mem) (used : Nat) : Prop where
  nonnull : blockBuf ≠ 0
  aligned : 8 ∣ blockBuf.toNat
  fits : blockBuf.toNat + bufBytes < 2 ^ 64
  used_le : used ≤ 64
  regions_eq : s.regions = blockBuf
  total_eq : s.total = 64
  free_eq : s.free = BitVec.ofNat 64 (64 - used)
  header_free : Worn (BitVec.ofNat 64 (64 - used)) (load64 m (blockBuf + 8))
  header_blocks : Worn (descriptor blockBuf used) (load64 m (blockBuf + 16))
  header_next : load64 m (blockBuf + 24) = 0
  link : ∀ k, used ≤ k → k < 64 →
    Worn (descriptor blockBuf (k + 1)) (load64 m (descriptor blockBuf k))
  next : ∀ k < used, blockNext m (descriptor blockBuf k) = 0

theorem Worn.trans {u v w : U64} (h : Worn u v) (h' : Worn v w) : Worn u w := by
  rcases h' with hzero | rfl
  · exact .inl hzero
  · exact h

/-- Zeroing whole words wears the word at an aligned address. -/
theorem worn_setRange {m : Mem} {a x : U64} {n : Nat} (ha : 8 ∣ a.toNat) (hx : 8 ∣ x.toNat)
    (hn : 8 ∣ n) : Worn (load64 m x) (load64 (setRange m a n 0) x) :=
  load64_setRange_words ha hx hn

/-- A word apart from the only descriptor written is as before. -/
theorem OnlyDescriptor.load {blockBuf : U64} {k : Nat} {m m' : Mem} {a : U64}
    (h : OnlyDescriptor blockBuf k m m') (hfit : blockBuf.toNat + bufBytes < 2 ^ 64) (hk : k < 64)
    (ha : a.toNat + 8 ≤ 2 ^ 64) (hout : a.toNat + 8 ≤ blockBuf.toNat + 32 + 24 * k ∨
      blockBuf.toNat + 32 + 24 * k + 24 ≤ a.toNat) : load64 m' a = load64 m a := by
  obtain ⟨hdesc, -, -, hend⟩ := descriptor_layout hfit hk
  apply load64_congr
  intro x hx
  apply h
  rw [within_iff ha] at hx
  rw [within_iff (by omega)]
  omega

section Slab

variable {blockBuf : U64} {s : Slab.SlabAlloc} {m : Mem} {used : Nat}

theorem WornSlab.fill {a : U64} {n : Nat} (h : WornSlab blockBuf s m used) (ha : 8 ∣ a.toNat)
    (hn : 8 ∣ n) : WornSlab blockBuf s (setRange m a n 0) used := by
  have hfit := h.fits
  have haligned := h.aligned
  have hused := h.used_le
  obtain ⟨h8, h16, h24, -⟩ := header_layout hfit
  refine ⟨h.nonnull, haligned, hfit, hused, h.regions_eq, h.total_eq, h.free_eq, ?_, ?_, ?_, ?_, ?_⟩
  · exact h.header_free.trans (worn_setRange ha (by omega) hn)
  · exact h.header_blocks.trans (worn_setRange ha (by omega) hn)
  · rcases @worn_setRange m a (blockBuf + 24) n ha (by omega) hn with hzero | hsame
    · exact hzero
    · exact hsame.trans h.header_next
  · intro k hlow hk
    obtain ⟨hdesc, -, -, -⟩ := descriptor_layout hfit hk
    exact (h.link k hlow hk).trans (worn_setRange ha (by omega) hn)
  · intro k hk
    obtain ⟨-, -, hnext, -⟩ := descriptor_layout hfit (hk.trans_le hused)
    rcases @worn_setRange m a (descriptor blockBuf k + 16) n ha (by omega) hn with hzero | hsame
    · exact hzero
    · exact hsame.trans (h.next k hk)

/-- Writing to a handed-out descriptor that stays the last of its list. -/
theorem WornSlab.onlyDescriptor {m' : Mem} {k : Nat} (h : WornSlab blockBuf s m used)
    (hk : k < used) (honly : OnlyDescriptor blockBuf k m m')
    (hnext : blockNext m' (descriptor blockBuf k) = 0) : WornSlab blockBuf s m' used := by
  have hfit := h.fits
  have hused := h.used_le
  have hk64 : k < 64 := hk.trans_le hused
  obtain ⟨h8, h16, h24, hend⟩ := header_layout hfit
  refine ⟨h.nonnull, h.aligned, hfit, hused, h.regions_eq, h.total_eq, h.free_eq, ?_, ?_, ?_, ?_,
    ?_⟩
  · rw [honly.load hfit hk64 (by omega) (by omega)]
    exact h.header_free
  · rw [honly.load hfit hk64 (by omega) (by omega)]
    exact h.header_blocks
  · rw [honly.load hfit hk64 (by omega) (by omega)]
    exact h.header_next
  · intro j hlow hj
    obtain ⟨hdesc, -, -, -⟩ := descriptor_layout hfit hj
    rw [honly.load hfit hk64 (by omega) (by omega)]
    exact h.link j hlow hj
  · intro j hj
    by_cases hjk : j = k
    · rw [hjk]
      exact hnext
    · obtain ⟨-, -, hword, -⟩ := descriptor_layout hfit (hj.trans_le hused)
      rw [blockNext, honly.load hfit hk64 (by omega) (by omega)]
      exact h.next j hj

/-- Past the zero words of its header the slab hands out the next descriptor. -/
theorem slabAlloc_worn (h : WornSlab blockBuf s m used) (hused : used < 64)
    (hfree : load64 m (blockBuf + 8) ≠ 0) (hblocks : load64 m (blockBuf + 16) ≠ 0) :
    ∃ s' m', Slab.alloc memoryBlock s m = .ok (descriptor blockBuf used, s', m') ∧
      WornSlab blockBuf s' m' (used + 1) ∧ FrameDescriptor blockBuf used m m' ∧
      load64 m' (blockBuf + 8) = BitVec.ofNat 64 (64 - (used + 1)) := by
  have hfit := h.fits
  have hregions := h.regions_eq
  have hcall := @slabAlloc_eq s m (by rw [hregions]; exact h.nonnull)
    (by rw [h.free_eq]; exact ofNat_ne_zero hused) (by rw [hregions]; exact hfree)
    (by rw [hregions]; exact hblocks)
  rw [hregions, h.header_blocks.resolve_left hblocks] at hcall
  have hcount : load64 (dequeued m blockBuf (descriptor blockBuf used)) (blockBuf + 8) =
      BitVec.ofNat 64 (64 - (used + 1)) := by
    rw [dequeued_free hfit hused, h.header_free.resolve_left hfree, ofNat_sub_one hused]
  refine ⟨_, _, hcall, ?_, dequeued_frame hfit, hcount⟩
  obtain ⟨h8, h16, h24, hend⟩ := header_layout hfit
  refine ⟨h.nonnull, h.aligned, hfit, hused, rfl, h.total_eq, ?_, .inr hcount, ?_, ?_, ?_, ?_⟩
  · dsimp only
    rw [h.free_eq, ofNat_sub_one hused]
  · rw [dequeued_blocks hfit hused]
    exact h.link used le_rfl hused
  · rw [dequeued_load hfit hused (by omega) (by omega) (by omega)]
    exact h.header_next
  · intro k hlow hk
    obtain ⟨hdesc, -, -, -⟩ := descriptor_layout hfit hk
    rw [dequeued_load hfit hused (by omega) (by omega) (by omega)]
    exact h.link k (by omega) hk
  · intro k hk
    obtain ⟨hdesc, -, hword, -⟩ := descriptor_layout hfit (hk.trans_le hused)
    by_cases hlast : k = used
    · subst hlast
      rw [blockNext, dequeued]
      apply load64_setRange_zero
      intro x hx
      rw [within_iff (by omega)] at hx ⊢
      omega
    · rw [blockNext, dequeued_load hfit hused (by omega) (by omega) (by omega)]
      exact h.next k (by omega)

/-- The slab answers with null when it is exhausted or its count has been zeroed. -/
theorem slabAlloc_null (h : WornSlab blockBuf s m used)
    (hnone : used = 64 ∨ load64 m (blockBuf + 8) = 0) :
    Slab.alloc memoryBlock s m = .ok (0, s, m) := by
  unfold Slab.alloc
  by_cases hfree : s.free = 0
  · rw [if_pos hfree]
  · have hzero : load64 m (blockBuf + 8) = 0 := by
      refine hnone.resolve_left fun hused => hfree ?_
      rw [h.free_eq, hused]
      rfl
    have hfind : Slab.findRegion m s.regions (s.total.toNat + 1) = .ok 0 := by
      rw [h.total_eq, h.regions_eq, Slab.findRegion, if_pos ⟨h.nonnull, hzero⟩, h.header_next]
      rfl
    rw [if_neg hfree, hfind]
    rfl

/-- It stops on a header whose first block has been zeroed. -/
theorem slabAlloc_stops (h : WornSlab blockBuf s m used) (hused : used < 64)
    (hfree : load64 m (blockBuf + 8) ≠ 0) (hblocks : load64 m (blockBuf + 16) = 0) :
    Slab.alloc memoryBlock s m = .error .nullDeref := by
  have hcount : s.free ≠ 0 := by
    rw [h.free_eq]
    exact ofNat_ne_zero hused
  have hfind : Slab.findRegion m s.regions (s.total.toNat + 1) = .ok blockBuf := by
    rw [h.regions_eq, Slab.findRegion, if_neg fun hboth => hfree hboth.2]
  unfold Slab.alloc
  rw [if_neg hcount, hfind]
  simp only [bind, Except.bind, h.nonnull, if_false, hblocks, deref_zero]

/-- Every answer of the slab. -/
theorem slabAlloc_cases (h : WornSlab blockBuf s m used) {b : U64} {s' : Slab.SlabAlloc} {m' : Mem}
    (hcall : Slab.alloc memoryBlock s m = .ok (b, s', m')) (hb : b ≠ 0) :
    used < 64 ∧ b = descriptor blockBuf used ∧ WornSlab blockBuf s' m' (used + 1) ∧
      FrameDescriptor blockBuf used m m' ∧ load64 m (blockBuf + 8) ≠ 0 ∧
      load64 m' (blockBuf + 8) = BitVec.ofNat 64 (64 - (used + 1)) := by
  have hnone : ¬ (used = 64 ∨ load64 m (blockBuf + 8) = 0) := by
    intro hnone
    rw [slabAlloc_null h hnone] at hcall
    exact hb (ok_pair_inj hcall).1.symm
  rw [not_or] at hnone
  have hused : used < 64 := lt_of_le_of_ne h.used_le hnone.1
  have hblocks : load64 m (blockBuf + 16) ≠ 0 := by
    intro hzero
    rw [slabAlloc_stops h hused hnone.2 hzero] at hcall
    cases hcall
  obtain ⟨s₁, m₁, hok, hslab, hframe, hcount⟩ := slabAlloc_worn h hused hnone.2 hblocks
  obtain ⟨rfl, rfl, rfl⟩ := ok_triple_inj (hok.symm.trans hcall)
  exact ⟨hused, rfl, hslab, hframe, hnone.2, hcount⟩

end Slab

end Octiron.Pmm
