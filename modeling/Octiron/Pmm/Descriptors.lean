import Octiron.Pmm.Model
import Octiron.Allocators.SlabRegions

/-! The slab behind the block descriptors.  `grow` runs once, on `BLOCK_BUF`,
and nothing is ever given back, so the free descriptors are always the last ones
of the buffer, each linked to the one after it. -/
namespace Octiron.Pmm

open Lib.Word Lib.ByteMemory Exec

/-- The address of the `k`-th descriptor of `BLOCK_BUF`. -/
def descriptor (blockBuf : U64) (k : Nat) : U64 := blockBuf + BitVec.ofNat 64 (32 + 24 * k)

/-- The bytes of `BLOCK_BUF`. -/
def bufBytes : Nat := 1568

theorem blockBufSize_toNat : blockBufSize.toNat = bufBytes := by decide

/-- The first `used` descriptors are handed out and the others are free. -/
structure SlabInv (blockBuf : U64) (s : Slab.SlabAlloc) (m : Mem) (used : Nat) : Prop where
  nonnull : blockBuf ≠ 0
  fits : blockBuf.toNat + bufBytes < 2 ^ 64
  used_le : used ≤ 64
  regions_eq : s.regions = blockBuf
  total_eq : s.total = 64
  free_eq : s.free = BitVec.ofNat 64 (64 - used)
  header_free : load64 m (blockBuf + 8) = BitVec.ofNat 64 (64 - used)
  header_blocks : load64 m (blockBuf + 16) = descriptor blockBuf used
  link : ∀ k, used ≤ k → k < 64 → load64 m (descriptor blockBuf k) = descriptor blockBuf (k + 1)

section Descriptor

variable {blockBuf : U64} (hfit : blockBuf.toNat + bufBytes < 2 ^ 64)
include hfit

theorem descriptor_toNat {k : Nat} (hk : k ≤ 64) :
    (descriptor blockBuf k).toNat = blockBuf.toNat + 32 + 24 * k := by
  rw [bufBytes] at hfit
  rw [descriptor, toNat_add_ofNat _ _ (by omega)]
  omega

theorem descriptor_ne_zero {k : Nat} (hk : k ≤ 64) : descriptor blockBuf k ≠ 0 := by
  intro h
  have := descriptor_toNat hfit hk
  rw [h, show (0 : U64).toNat = 0 from rfl] at this
  omega

theorem descriptor_injective {j k : Nat} (hj : j ≤ 64) (hk : k ≤ 64)
    (h : descriptor blockBuf j = descriptor blockBuf k) : j = k := by
  have hj' := descriptor_toNat hfit hj
  have hk' := descriptor_toNat hfit hk
  rw [h] at hj'
  omega

theorem header_toNat {i : Nat} (hi : i ≤ 24) :
    (blockBuf + BitVec.ofNat 64 i).toNat = blockBuf.toNat + i := by
  rw [bufBytes] at hfit
  exact toNat_add_ofNat _ _ (by omega)

theorem field_toNat {k i : Nat} (hk : k < 64) (hi : i ≤ 24) :
    (descriptor blockBuf k + BitVec.ofNat 64 i).toNat = blockBuf.toNat + 32 + 24 * k + i := by
  have hd := descriptor_toNat hfit hk.le
  rw [bufBytes] at hfit
  rw [toNat_add_ofNat _ _ (by omega), hd]

/-- Where the three fields of a descriptor lie. -/
theorem descriptor_layout {k : Nat} (hk : k < 64) :
    (descriptor blockBuf k).toNat = blockBuf.toNat + 32 + 24 * k ∧
      (descriptor blockBuf k + 8).toNat = blockBuf.toNat + 32 + 24 * k + 8 ∧
      (descriptor blockBuf k + 16).toNat = blockBuf.toNat + 32 + 24 * k + 16 ∧
      blockBuf.toNat + 1568 < 2 ^ 64 :=
  ⟨descriptor_toNat hfit hk.le, field_toNat hfit hk (i := 8) (by decide),
    field_toNat hfit hk (i := 16) (by decide), hfit⟩

/-- Where the words of the slab header lie. -/
theorem header_layout :
    (blockBuf + 8).toNat = blockBuf.toNat + 8 ∧ (blockBuf + 16).toNat = blockBuf.toNat + 16 ∧
      (blockBuf + 24).toNat = blockBuf.toNat + 24 ∧ blockBuf.toNat + 1568 < 2 ^ 64 :=
  ⟨header_toNat hfit (i := 8) (by decide), header_toNat hfit (i := 16) (by decide),
    header_toNat hfit (i := 24) (by decide), hfit⟩

end Descriptor

/-- Only the header and one descriptor of the buffer have changed. -/
def FrameDescriptor (blockBuf : U64) (k : Nat) (m m' : Mem) : Prop :=
  ∀ x, ¬ Within x blockBuf 32 → ¬ Within x (descriptor blockBuf k) 24 → m' x = m x

theorem slabAlloc_exhausted {blockBuf : U64} {s : Slab.SlabAlloc} {m : Mem}
    (h : SlabInv blockBuf s m 64) : Slab.alloc memoryBlock s m = .ok (0, s, m) := by
  have hfree : s.free = 0 := h.free_eq
  rw [Slab.alloc, if_pos hfree]

/-- Memory once the first free block `b` of a region is dequeued and zeroed. -/
def dequeued (m : Mem) (region b : U64) : Mem :=
  let m := store64 m (region + 16) (load64 m b)
  let m := store64 m (region + 8) (load64 m (region + 8) - 1)
  setRange m b 24 0

/-- The slab hands out the block its header names. -/
theorem slabAlloc_eq {s : Slab.SlabAlloc} {m : Mem} (hregion : s.regions ≠ 0) (hfree : s.free ≠ 0)
    (hheader : load64 m (s.regions + 8) ≠ 0) (hblock : load64 m (s.regions + 16) ≠ 0) :
    Slab.alloc memoryBlock s m = .ok (load64 m (s.regions + 16), { s with free := s.free - 1 },
      dequeued m s.regions (load64 m (s.regions + 16))) := by
  have hfind : Slab.findRegion m s.regions (s.total.toNat + 1) = .ok s.regions := by
    rw [Slab.findRegion, if_neg fun hboth => hheader hboth.2]
  exact Slab.alloc_of_found hfree hfind hregion hblock rfl

section Dequeued

variable {blockBuf : U64} {m : Mem} {used : Nat} (hfit : blockBuf.toNat + bufBytes < 2 ^ 64)
include hfit

theorem dequeued_apply {x : U64} (hhead : ¬ Within x (blockBuf + 8) 16)
    (hbody : ¬ Within x (descriptor blockBuf used) 24) :
    dequeued m blockBuf (descriptor blockBuf used) x = m x := by
  obtain ⟨h8, h16, _, hend⟩ := header_layout hfit
  rw [within_iff (by omega)] at hhead
  rw [dequeued, setRange_apply_of_not_within hbody,
    store64_apply_of_not_within (by rw [within_iff (by omega)]; omega),
    store64_apply_of_not_within (by rw [within_iff (by omega)]; omega)]

theorem dequeued_frame :
    FrameDescriptor blockBuf used m (dequeued m blockBuf (descriptor blockBuf used)) := by
  intro x hhead hbody
  obtain ⟨h8, _, _, hend⟩ := header_layout hfit
  apply dequeued_apply hfit _ hbody
  rw [within_iff (by omega)] at hhead ⊢
  omega

variable (hused : used < 64)
include hused

theorem dequeued_free : load64 (dequeued m blockBuf (descriptor blockBuf used)) (blockBuf + 8) =
    load64 m (blockBuf + 8) - 1 := by
  obtain ⟨h8, h16, _, hend⟩ := header_layout hfit
  have hdesc := descriptor_toNat hfit hused.le
  rw [dequeued, load64_setRange_apart (apart_of_le (by omega) (by omega) (by omega)),
    load64_store64_same, load64_store64_apart (apart_of_le (by omega) (by omega) (by omega))]

theorem dequeued_blocks : load64 (dequeued m blockBuf (descriptor blockBuf used)) (blockBuf + 16) =
    load64 m (descriptor blockBuf used) := by
  obtain ⟨h8, h16, _, hend⟩ := header_layout hfit
  have hdesc := descriptor_toNat hfit hused.le
  rw [dequeued, load64_setRange_apart (apart_of_le (by omega) (by omega) (by omega)),
    load64_store64_apart (apart_of_le (by omega) (by omega) (by omega)), load64_store64_same]

/-- The other words of the buffer are as before. -/
theorem dequeued_load {a : U64} (hlow : blockBuf.toNat + 24 ≤ a.toNat)
    (hhigh : a.toNat + 8 ≤ 2 ^ 64)
    (hout : a.toNat + 8 ≤ blockBuf.toNat + 32 + 24 * used ∨
      blockBuf.toNat + 32 + 24 * used + 24 ≤ a.toNat) :
    load64 (dequeued m blockBuf (descriptor blockBuf used)) a = load64 m a := by
  obtain ⟨h8, _, _, hend⟩ := header_layout hfit
  have hdesc := descriptor_toNat hfit hused.le
  apply load64_congr
  intro x hx
  rw [within_iff hhigh] at hx
  apply dequeued_apply hfit
  · rw [within_iff (by omega)]
    omega
  · rw [within_iff (by omega)]
    omega

end Dequeued

theorem ofNat_sub_one {used : Nat} (hused : used < 64) :
    BitVec.ofNat 64 (64 - used) - 1 = BitVec.ofNat 64 (64 - (used + 1)) := by
  apply BitVec.eq_of_toNat_eq
  rw [toNat_sub_one _ (by rw [BitVec.toNat_ofNat]; omega), BitVec.toNat_ofNat,
    BitVec.toNat_ofNat]
  omega

theorem ofNat_ne_zero {used : Nat} (hused : used < 64) : BitVec.ofNat 64 (64 - used) ≠ 0 := by
  intro hzero
  have := congrArg BitVec.toNat hzero
  rw [BitVec.toNat_ofNat, Nat.mod_eq_of_lt (by omega)] at this
  simp at this
  omega

/-- A free descriptor left: the next one is handed out, zeroed. -/
theorem slabAlloc_spec {blockBuf : U64} {s : Slab.SlabAlloc} {m : Mem} {used : Nat}
    (h : SlabInv blockBuf s m used) (hused : used < 64) :
    ∃ s' m', Slab.alloc memoryBlock s m = .ok (descriptor blockBuf used, s', m') ∧
      SlabInv blockBuf s' m' (used + 1) ∧ FrameDescriptor blockBuf used m m' := by
  have hfit := h.fits
  have hblock := h.header_blocks
  rw [← h.regions_eq] at hblock
  have hcall := @slabAlloc_eq s m (by rw [h.regions_eq]; exact h.nonnull)
    (by rw [h.free_eq]; exact ofNat_ne_zero hused)
    (by rw [h.regions_eq, h.header_free]; exact ofNat_ne_zero hused)
    (by rw [hblock, h.regions_eq]; exact descriptor_ne_zero hfit hused.le)
  rw [hblock, h.regions_eq] at hcall
  refine ⟨_, _, hcall, ?_, dequeued_frame hfit⟩
  refine ⟨h.nonnull, hfit, hused, rfl, h.total_eq, ?_, ?_, ?_, ?_⟩
  · dsimp only
    rw [h.free_eq, ofNat_sub_one hused]
  · rw [dequeued_free hfit hused, h.header_free, ofNat_sub_one hused]
  · rw [dequeued_blocks hfit hused, h.link used le_rfl hused]
  · intro k hlow hk
    obtain ⟨hdesc, _, _, hend⟩ := descriptor_layout hfit hk
    rw [← h.link k (by omega) hk]
    exact dequeued_load hfit hused (by omega) (by omega) (by omega)

theorem memoryBlock_layout : Slab.Layout memoryBlock 3 :=
  ⟨rfl, by decide, by decide, by decide, by decide⟩

theorem blockAt_memoryBlock (blockBuf : U64) (k : Nat) :
    Slab.blockAt memoryBlock blockBuf k = descriptor blockBuf k := by
  rw [descriptor, BitVec.ofNat_add, ← BitVec.add_assoc]
  rfl

/-- `initialize` carves the 64 descriptors, when `BLOCK_BUF` is an object of the
address space. -/
theorem pmmInitialize_spec {st st' : State} {blockBuf : U64} {p : Policy}
    (hslab : st.blockAllocator = {}) (hobject : blockBuf.toNat + bufBytes ≤ 2 ^ 64)
    (h : pmmInitialize st blockBuf p = .ok st') :
    st' = { st with pol := p, blockAllocator := st'.blockAllocator, mem := st'.mem } ∧
      SlabInv blockBuf st'.blockAllocator st'.mem 0 := by
  obtain ⟨⟨slab, mem⟩, hgrow, h⟩ := bind_eq_ok.mp h
  have hst' := pure_eq_ok.mp h
  obtain ⟨hne, haligned, hsize, hlast⟩ := Slab.accepted_of_grow hgrow
  have hcount : (Slab.blockCount memoryBlock blockBufSize).toNat = 64 := by decide
  rw [hcount, blockAt_memoryBlock] at hlast
  rw [bufBytes] at hobject
  -- were the buffer the last object, the link behind it would be at address zero
  have hfit : blockBuf.toNat + bufBytes < 2 ^ 64 := by
    apply lt_of_le_of_ne hobject
    intro hend
    apply hlast
    apply BitVec.eq_of_toNat_eq
    change (blockBuf + BitVec.ofNat 64 1568).toNat = 0
    rw [BitVec.toNat_add, show (BitVec.ofNat 64 1568).toNat = 1568 from rfl, hend, Nat.mod_self]
  have haccepted : Slab.Accepted memoryBlock blockBuf blockBufSize :=
    ⟨hne, haligned, hsize, by rw [blockBufSize_toNat]; exact hfit⟩
  obtain ⟨mem', hgrow', hgrown⟩ := @Slab.grow_spec _ _ st.blockAllocator _ _ memoryBlock_layout
    haccepted (by
      rw [hcount]
      change blockBuf.toNat + 32 + 24 * 64 + 8 ≤ 2 ^ 64
      have hdvd := haccepted.eight_dvd
      rw [bufBytes] at hfit
      omega) st.mem
  obtain ⟨rfl, rfl⟩ := ok_pair_inj (hgrow.symm.trans hgrow')
  rw [← hst']
  refine ⟨rfl, hne, hfit, by decide, rfl, ?_, ?_, hgrown.free, ?_, fun k _ hk => ?_⟩
  · rw [hslab]
    rfl
  · rw [hslab]
    rfl
  · rw [← blockAt_memoryBlock]
    exact hgrown.blocks
  · rw [← blockAt_memoryBlock, ← blockAt_memoryBlock]
    exact hgrown.link k (by rw [hcount]; exact hk)

end Octiron.Pmm
