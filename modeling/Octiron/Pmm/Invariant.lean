import Octiron.Pmm.Split

/-! The invariant of the manager.  In every region the linked block, the granted
ranges and the tails that a split dropped cover each byte exactly once.  The
dropped tails are a ghost list: nothing in the kernel records them. -/
namespace Octiron.Pmm

open Lib Lib.Word Lib.ByteMemory Lib.Span Exec

/-- A region's list is empty or is the one handed-out descriptor it heads. -/
def Head (blockBuf : U64) (m : Mem) (used : Nat) (freeBlocks : U64) : Prop :=
  freeBlocks = 0 ∨
    ∃ k < used, freeBlocks = descriptor blockBuf k ∧ blockNext m (descriptor blockBuf k) = 0

/-- The dropped tails that came from a region. -/
def lostIn (lost : List Span) (region : MemoryRegion) : List Span :=
  lost.filter fun s => decide (Inside s (regionSpan region))

structure RegionInv (blockBuf : U64) (m : Mem) (used : Nat) (grants lost : List Span)
    (region : MemoryRegion) : Prop where
  high : region.base.toNat + region.length.toNat ≤ 2 ^ 56
  buf : Disjoint (regionSpan region) (bufSpan blockBuf)
  head : Head blockBuf m used region.freeBlocks
  inside : ∀ s ∈ heldAt m region.freeBlocks, Inside s (regionSpan region) ∧ 0 < s.length
  partition : ∀ x ∈ regionSpan region,
    cover (heldAt m region.freeBlocks) x + cover grants x + cover lost x = 1
  free_eq : region.freeBytes.toNat =
    total (heldAt m region.freeBlocks) + total (lostIn lost region)
  free_le : region.freeBytes.toNat ≤ region.length.toNat

/-- Two entries of the region table: apart in memory, and never one list. -/
def Separate (r r' : MemoryRegion) : Prop :=
  Disjoint (regionSpan r) (regionSpan r') ∧ (r.freeBlocks = 0 ∨ r.freeBlocks ≠ r'.freeBlocks)

structure Inv (blockBuf : U64) (w : World) (used : Nat) (lost : List Span) : Prop where
  slab : SlabInv blockBuf w.st.blockAllocator w.st.mem used
  pol : w.st.pol = .firstFit
  offered : ∀ region ∈ w.st.regions, regionSpan region ∈ w.offered
  regions : ∀ region ∈ w.st.regions, RegionInv blockBuf w.st.mem used w.grants lost region
  separate : ∀ (i j : Nat) (r r' : MemoryRegion), w.st.regions[i]? = some r → w.st.regions[j]? = some r' → i ≠ j →
    Separate r r'
  grants : ∀ g ∈ w.grants, ∃ region ∈ w.st.regions, Inside g (regionSpan region)
  lost : ∀ g ∈ lost, 0 < g.length ∧ ∃ region ∈ w.st.regions, Inside g (regionSpan region)

/-- A region's list is well linked, and its blocks are the ones counted. -/
theorem Head.linked {blockBuf : U64} {m : Mem} {used : Nat} {freeBlocks : U64}
    (h : Head blockBuf m used freeBlocks) (hfit : blockBuf.toNat + bufBytes < 2 ^ 64)
    (hused : used ≤ 64) :
    ∃ blocks, Linked m freeBlocks blocks ∧ blocks.map (blockSpan m) = heldAt m freeBlocks := by
  rcases h with rfl | ⟨k, hk, rfl, hnext⟩
  · exact ⟨[], .nil, (heldAt_zero m).symm⟩
  · have hne := descriptor_ne_zero hfit (k := k) (by omega)
    refine ⟨[descriptor blockBuf k], .cons hne ?_, (heldAt_of_ne hne).symm⟩
    rw [hnext]
    exact .nil

/-- A list has one sequence of blocks. -/
theorem Linked.unique {m : Mem} {p : U64} {blocks blocks' : List U64} (h : Linked m p blocks)
    (h' : Linked m p blocks') : blocks = blocks' := by
  induction h generalizing blocks' with
  | nil =>
    cases h' with
    | nil => rfl
    | cons hne _ => exact absurd rfl hne
  | cons hne _ ih =>
    cases h' with
    | nil => exact absurd rfl hne
    | cons _ hrest => rw [ih hrest]

/-- Memory that keeps a head's descriptor keeps its list. -/
theorem Head.congr {blockBuf : U64} {m m' : Mem} {used used' : Nat} {freeBlocks : U64}
    (h : Head blockBuf m used freeBlocks) (hfit : blockBuf.toNat + bufBytes < 2 ^ 64)
    (hused : used ≤ 64) (hle : used ≤ used')
    (hsame : ∀ k < used, freeBlocks = descriptor blockBuf k →
      ∀ x, Within x (descriptor blockBuf k) 24 → m' x = m x) :
    Head blockBuf m' used' freeBlocks ∧ heldAt m' freeBlocks = heldAt m freeBlocks := by
  rcases h with rfl | ⟨k, hk, rfl, hnext⟩
  · exact ⟨.inl rfl, by rw [heldAt_zero, heldAt_zero]⟩
  · have hk64 : k < 64 := hk.trans_le hused
    obtain ⟨hspan, hnext'⟩ := fields_congr hfit hk64 (hsame k hk rfl)
    have hne := descriptor_ne_zero hfit hk64.le
    refine ⟨.inr ⟨k, hk.trans_le hle, rfl, hnext'.trans hnext⟩, ?_⟩
    rw [heldAt_of_ne hne, heldAt_of_ne hne, hspan]

/-- Grants and dropped tails that come from elsewhere leave a region's account as
it is. -/
theorem RegionInv.congr {blockBuf : U64} {m m' : Mem} {used used' : Nat}
    {grants grants' lost lost' : List Span} {region : MemoryRegion}
    (h : RegionInv blockBuf m used grants lost region)
    (hhead : Head blockBuf m' used' region.freeBlocks)
    (hheld : heldAt m' region.freeBlocks = heldAt m region.freeBlocks)
    (hgrants : ∀ x ∈ regionSpan region, cover grants' x = cover grants x)
    (hlost : ∀ x ∈ regionSpan region, cover lost' x = cover lost x)
    (hlostIn : total (lostIn lost' region) = total (lostIn lost region)) :
    RegionInv blockBuf m' used' grants' lost' region := by
  refine ⟨h.high, h.buf, hhead, ?_, ?_, ?_, h.free_le⟩
  · rw [hheld]
    exact h.inside
  · intro x hx
    rw [hheld, hgrants x hx, hlost x hx]
    exact h.partition x hx
  · rw [hheld, hlostIn]
    exact h.free_eq

end Octiron.Pmm
