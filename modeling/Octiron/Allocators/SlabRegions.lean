import Octiron.Allocators.SlabCarving
import Octiron.Lib.FirstFit

/-! A region while its blocks are handed out.  Only its header and the links of its
free blocks matter; the link behind the last block is read, when that block is taken,
and never followed. -/
namespace Octiron.Slab

open Lib Lib.Word Lib.ByteMemory Lib.LinkedList Exec

structure Buffer where
  base : U64
  size : U64
  deriving DecidableEq

namespace Buffer

def span (b : Buffer) : Span := ⟨b.base.toNat, b.size.toNat⟩

def count (t : BlockType) (b : Buffer) : Nat := (blockCount t b.size).toNat

/-- The bytes an allocator relies on once `used` blocks are handed out: the header
behind `m_total`, and the free blocks. -/
def Kept (t : BlockType) (b : Buffer) (used : Nat) (x : U64) : Prop :=
  b.base.toNat + 8 ≤ x.toNat ∧ x.toNat < b.base.toNat + 32 + t.size.toNat * b.count t ∧
    (x.toNat < b.base.toNat + 32 ∨ b.base.toNat + 32 + t.size.toNat * used ≤ x.toNat)

end Buffer

/-- The first `used` blocks of a region are handed out. -/
structure Region (t : BlockType) (m : Mem) (b : Buffer) (used : Nat) : Prop where
  used_le : used ≤ b.count t
  free : load64 m (b.base + 8) = BitVec.ofNat 64 (b.count t - used)
  blocks : load64 m (b.base + 16) = blockAt t b.base used
  link : ∀ k, used ≤ k → k < b.count t → load64 m (blockAt t b.base k) = blockAt t b.base (k + 1)

/-- Blocks of whole words, the first one right behind the header. -/
structure Compact (t : BlockType) : Prop where
  layout : ∃ k, Layout t k
  offset : firstOffset t = 32

theorem ElementType.compact (T : ElementType) (zeroOut : Bool) (h : T.align = 8) :
    Compact (T.slabBlock zeroOut) :=
  ⟨⟨_, T.layout zeroOut⟩, T.firstOffset_of_align zeroOut h⟩

/-- Where everything in an accepted buffer lies. -/
structure Places (t : BlockType) (b : Buffer) : Prop where
  word : 8 ≤ t.size.toNat
  object : b.base.toNat + b.size.toNat < 2 ^ 64
  count_pos : 0 < b.count t
  full : 32 + t.size.toNat * b.count t ≤ b.size.toNat
  header8 : (b.base + 8).toNat = b.base.toNat + 8
  header16 : (b.base + 16).toNat = b.base.toNat + 16
  header24 : (b.base + 24).toNat = b.base.toNat + 24
  address : ∀ i ≤ b.count t, (blockAt t b.base i).toNat = b.base.toNat + 32 + t.size.toNat * i
  base_ne : b.base ≠ 0

section Places

variable {t : BlockType} {b : Buffer}

theorem Compact.places (h : Compact t) (haccepted : Accepted t b.base b.size) : Places t b := by
  obtain ⟨k, hlayout⟩ := h.layout
  have hfull := haccepted.blockCount_mul hlayout
  have hobject := haccepted.object
  have hcount := haccepted.blockCount_pos hlayout
  have hword := Nat.le_of_dvd hlayout.pos hlayout.eight_dvd_size
  have hmul : t.size.toNat * (b.count t) = t.size.toNat * (blockCount t b.size).toNat := rfl
  have hheader : ∀ i ≤ 24, (b.base + BitVec.ofNat 64 i).toNat = b.base.toNat + i := by
    intro i hi
    apply toNat_add_ofNat
    have hone := Nat.mul_le_mul_left t.size.toNat hcount
    omega
  exact ⟨hword, hobject, hcount, by omega, hheader 8 (by decide), hheader 16 (by decide),
    hheader 24 (by decide), fun i hi => (haccepted.blockAt_toNat_le hlayout h.offset hi).1,
    haccepted.nonnull⟩

/-- A block, from its first byte to the next block's. -/
theorem block_le {i : Nat} (hi : i < b.count t) :
    t.size.toNat * i + t.size.toNat ≤ t.size.toNat * b.count t := by
  have hle := Nat.mul_le_mul_left t.size.toNat hi
  rwa [Nat.mul_succ] at hle

theorem Places.within_block (h : Places t b) {i : Nat} (hi : i < b.count t) (x : U64) :
    Within x (blockAt t b.base i) t.size.toNat ↔
      b.base.toNat + 32 + t.size.toNat * i ≤ x.toNat ∧
        x.toNat < b.base.toNat + 32 + t.size.toNat * i + t.size.toNat := by
  have haddress := h.address i hi.le
  have hle := block_le hi
  have hfull := h.full
  have hobject := h.object
  rw [within_iff (by omega), haddress]

theorem Places.blockAt_ne_zero (h : Places t b) {i : Nat} (hi : i ≤ b.count t) :
    blockAt t b.base i ≠ 0 := by
  intro hzero
  have haddress := h.address i hi
  rw [hzero, show (0 : U64).toNat = 0 from rfl] at haddress
  omega

end Places

section Region

variable {t : BlockType} {m m' : Mem} {b : Buffer} {used : Nat}

/-- The words of a region are made of the bytes that matter. -/
theorem Places.load64_header (h : Places t b) {i : Nat} (hlow : 8 ≤ i) (hhigh : i ≤ 24)
    (hsame : ∀ x, b.Kept t used x → m' x = m x) :
    load64 m' (b.base + BitVec.ofNat 64 i) = load64 m (b.base + BitVec.ofNat 64 i) := by
  have hobject := h.object
  have hfull := h.full
  have haddress : (b.base + BitVec.ofNat 64 i).toNat = b.base.toNat + i :=
    toNat_add_ofNat _ _ (by omega)
  apply load64_congr
  intro x hx
  rw [within_iff (by omega)] at hx
  exact hsame x ⟨by omega, by omega, .inl (by omega)⟩

theorem Places.load64_block (h : Places t b) {k : Nat} (hused : used ≤ k) (hk : k < b.count t)
    (hsame : ∀ x, b.Kept t used x → m' x = m x) :
    load64 m' (blockAt t b.base k) = load64 m (blockAt t b.base k) := by
  have haddress := h.address k hk.le
  have hle := block_le hk
  have hfull := h.full
  have hobject := h.object
  have hword := h.word
  have hmul := Nat.mul_le_mul_left t.size.toNat hused
  apply load64_congr
  intro x hx
  rw [within_iff (by omega)] at hx
  exact hsame x ⟨by omega, by omega, .inr (by omega)⟩

theorem Region.congr (h : Region t m b used) (hplaces : Places t b)
    (hsame : ∀ x, b.Kept t used x → m' x = m x) : Region t m' b used := by
  refine ⟨h.used_le, ?_, ?_, fun k hused hk => ?_⟩
  · exact (hplaces.load64_header (i := 8) (by decide) (by decide) hsame).trans h.free
  · exact (hplaces.load64_header (i := 16) (by decide) (by decide) hsame).trans h.blocks
  · exact (hplaces.load64_block hused hk hsame).trans (h.link k hused hk)

/-- A new region has handed out nothing. -/
theorem Grown.region {s : SlabAlloc} (h : Grown t s m b.base b.size m') : Region t m' b 0 :=
  ⟨Nat.zero_le _, by rw [h.free, Nat.sub_zero, Buffer.count, BitVec.ofNat_toNat, BitVec.setWidth_eq],
    h.blocks, fun k _ hk => h.link k hk⟩

end Region

/-- Memory once the first free block of a region is dequeued and zeroed. -/
def dequeue (t : BlockType) (m : Mem) (region block : U64) : Mem :=
  let m := store64 m (region + 16) (load64 m block)
  let m := store64 m (region + 8) (load64 m (region + 8) - 1)
  setRange m block t.size.toNat 0

/-- A call hands out the block named by the region that the walk stops at. -/
theorem alloc_of_found {t : BlockType} {s : SlabAlloc} {m : Mem} {region : U64} (hfree : s.free ≠ 0)
    (hfind : findRegion m s.regions (s.total.toNat + 1) = .ok region) (hregion : region ≠ 0)
    (hblock : load64 m (region + 16) ≠ 0) (hzero : t.zeroOut = true) :
    alloc t s m = .ok (load64 m (region + 16), { s with free := s.free - 1 },
      dequeue t m region (load64 m (region + 16))) := by
  rw [alloc, if_neg hfree, hfind]
  simp only [bind, Except.bind, hregion, if_false, deref_of_ne hblock, hzero, if_true]
  rw [Memory.fill_eq_setRange _ _ _ t.size.isLt.le]
  rfl

section Dequeue

variable {t : BlockType} {m : Mem} {b : Buffer} {used : Nat}

theorem dequeue_zero {region block x : U64} (hx : Within x block t.size.toNat) :
    dequeue t m region block x = 0 := setRange_apply_of_within hx

theorem Places.dequeue_apply (h : Places t b) {x : U64}
    (hheader : x.toNat < b.base.toNat + 8 ∨ b.base.toNat + 24 ≤ x.toNat)
    (hblock : ¬ Within x (blockAt t b.base used) t.size.toNat) :
    dequeue t m b.base (blockAt t b.base used) x = m x := by
  have h8 := h.header8
  have h16 := h.header16
  have hobject := h.object
  have hfull := h.full
  rw [dequeue, setRange_apply_of_not_within hblock,
    store64_apply_of_not_within (by rw [within_iff (by omega)]; omega),
    store64_apply_of_not_within (by rw [within_iff (by omega)]; omega)]

/-- Nothing outside the buffer changes. -/
theorem Places.dequeue_outside (h : Places t b) (hused : used < b.count t) {x : U64}
    (hx : x.toNat ∉ b.span) : dequeue t m b.base (blockAt t b.base used) x = m x := by
  have hle := block_le hused
  have hfull := h.full
  rw [Span.mem_def] at hx
  simp only [Buffer.span] at hx
  apply h.dequeue_apply
  · omega
  · rw [h.within_block hused]
    omega

theorem Places.dequeue_next (h : Places t b) (hused : used < b.count t) :
    load64 (dequeue t m b.base (blockAt t b.base used)) (b.base + 24) =
      load64 m (b.base + 24) := by
  have h24 := h.header24
  have hobject := h.object
  have hfull := h.full
  apply load64_congr
  intro x hx
  rw [within_iff (by omega)] at hx
  apply h.dequeue_apply
  · omega
  · rw [h.within_block hused]
    omega

/-- The next block is the first free one then. -/
theorem Region.dequeue (h : Region t m b used) (hplaces : Places t b) (hused : used < b.count t) :
    Region t (Slab.dequeue t m b.base (blockAt t b.base used)) b (used + 1) := by
  have h8 := hplaces.header8
  have h16 := hplaces.header16
  have hobject := hplaces.object
  have hfull := hplaces.full
  have haddress := hplaces.address used hused.le
  have hle := block_le hused
  refine ⟨hused, ?_, ?_, fun k hlow hk => ?_⟩
  · rw [Slab.dequeue, load64_setRange_apart (apart_of_le (by omega) (by omega) (by omega)),
      load64_store64_same, load64_store64_apart (apart_of_le (by omega) (by omega) (by omega)), h.free]
    have hcount := (blockCount t b.size).isLt
    apply BitVec.eq_of_toNat_eq
    rw [toNat_sub_one _ (by rw [BitVec.toNat_ofNat, Nat.mod_eq_of_lt (by rw [Buffer.count]; omega)]; omega),
      BitVec.toNat_ofNat, BitVec.toNat_ofNat, Nat.mod_eq_of_lt (by rw [Buffer.count]; omega),
      Nat.mod_eq_of_lt (by rw [Buffer.count]; omega)]
    omega
  · rw [Slab.dequeue, load64_setRange_apart (apart_of_le (by omega) (by omega) (by omega)),
      load64_store64_apart (apart_of_le (by omega) (by omega) (by omega)), load64_store64_same,
      h.link used le_rfl hused]
  · have hk' := hplaces.address k hk.le
    have hlek := block_le hk
    have hmul := Nat.mul_le_mul_left t.size.toNat hlow
    rw [Nat.mul_succ] at hmul
    have hword := hplaces.word
    rw [← h.link k (by omega) hk]
    apply load64_congr
    intro x hx
    rw [within_iff (by omega)] at hx
    apply hplaces.dequeue_apply
    · omega
    · rw [hplaces.within_block hused]
      omega

end Dequeue

end Octiron.Slab
