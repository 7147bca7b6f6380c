import Octiron.Allocators.Slab
import Octiron.Lib.LinkedList

/-! What `grow` makes of a buffer: the header, and the chain of its blocks, which goes
on to one word behind the last of them. -/
namespace Octiron.Slab

open Lib.Word Lib.ByteMemory Exec

section LinkBlocks

/-- The linking loop threads `n` blocks and touches nothing but them and the one
word behind them. -/
theorem linkBlocks_spec {t : BlockType} {n : Nat} {m m' : Mem} {block : U64}
    (hsize : 8 ≤ t.size.toNat) (hfit : block.toNat + t.size.toNat * n + 8 ≤ 2 ^ 64)
    (h : linkBlocks t m block n = .ok m') :
    (∀ k < n, load64 m' (block + BitVec.ofNat 64 (t.size.toNat * k)) =
      block + BitVec.ofNat 64 (t.size.toNat * (k + 1))) ∧
    ∀ x, ¬ Within x block (t.size.toNat * n + 8) → m' x = m x := by
  induction n generalizing m block with
  | zero =>
    obtain ⟨_, _, h⟩ := bind_eq_ok.mp h
    rw [← pure_eq_ok.mp h]
    refine ⟨fun k hk => absurd hk (Nat.not_lt_zero k), fun x hx => ?_⟩
    exact store64_apply_of_not_within (by simpa using hx)
  | succ i ih =>
    obtain ⟨_, _, h⟩ := bind_eq_ok.mp h
    have hmul : t.size.toNat * (i + 1) = t.size.toNat * i + t.size.toNat := Nat.mul_succ _ _
    have hnext : (block + t.size).toNat = block.toNat + t.size.toNat := by
      rw [BitVec.toNat_add, Nat.mod_eq_of_lt (by omega)]
    obtain ⟨hlink, hframe⟩ := ih (by omega) h
    constructor
    · intro k hk
      cases k with
      | zero =>
        have hfirst : load64 m' block = load64 (store64 m block (block + t.size)) block := by
          apply load64_congr
          intro x hx
          apply hframe
          rw [within_iff (by omega)] at hx
          rw [within_iff (by omega)]
          omega
        simp [hfirst]
      | succ k =>
        have hstep : ∀ j, block + t.size + BitVec.ofNat 64 (t.size.toNat * j) =
            block + BitVec.ofNat 64 (t.size.toNat * (j + 1)) := by
          intro j
          rw [Nat.mul_succ, Nat.add_comm, BitVec.ofNat_add, BitVec.ofNat_toNat,
            BitVec.setWidth_eq, BitVec.add_assoc]
        rw [← hstep, ← hstep]
        exact hlink k (by omega)
    · intro x hx
      rw [within_iff (by omega)] at hx
      rw [hframe x (by rw [within_iff (by omega)]; omega)]
      apply store64_apply_of_not_within
      rw [within_iff (by omega)]
      omega

/-- The loop dereferences the word behind the last block too. -/
theorem linkBlocks_ne_zero {t : BlockType} {n : Nat} {m m' : Mem} {block : U64}
    (h : linkBlocks t m block n = .ok m') :
    block + BitVec.ofNat 64 (t.size.toNat * n) ≠ 0 := by
  induction n generalizing m block with
  | zero =>
    obtain ⟨_, hderef, _⟩ := bind_eq_ok.mp h
    simpa using deref_eq_ok.mp hderef
  | succ i ih =>
    obtain ⟨_, _, h⟩ := bind_eq_ok.mp h
    have hlast := ih h
    rwa [BitVec.add_assoc, show t.size + BitVec.ofNat 64 (t.size.toNat * i) =
      BitVec.ofNat 64 (t.size.toNat * (i + 1)) by
        rw [Nat.mul_succ, Nat.add_comm, BitVec.ofNat_add, BitVec.ofNat_toNat,
          BitVec.setWidth_eq]] at hlast

/-- The word behind the last block is the null link. -/
theorem linkBlocks_last {t : BlockType} {n : Nat} {m m' : Mem} {block : U64}
    (h : linkBlocks t m block n = .ok m') :
    load64 m' (block + BitVec.ofNat 64 (t.size.toNat * n)) = 0 := by
  induction n generalizing m block with
  | zero =>
    obtain ⟨_, _, h⟩ := bind_eq_ok.mp h
    rw [← pure_eq_ok.mp h, Nat.mul_zero, BitVec.add_zero, load64_store64_same]
  | succ i ih =>
    obtain ⟨_, _, h⟩ := bind_eq_ok.mp h
    have hlast := ih h
    rwa [BitVec.add_assoc, show t.size + BitVec.ofNat 64 (t.size.toNat * i) =
      BitVec.ofNat 64 (t.size.toNat * (i + 1)) by
        rw [Nat.mul_succ, Nat.add_comm, BitVec.ofNat_add, BitVec.ofNat_toNat,
          BitVec.setWidth_eq]] at hlast

/-- Above address zero the loop ends. -/
theorem linkBlocks_returns {t : BlockType} {n : Nat} {m : Mem} {block : U64}
    (hpos : 0 < block.toNat) (hfit : block.toNat + t.size.toNat * n < 2 ^ 64) :
    ∃ m', linkBlocks t m block n = .ok m' := by
  have hne : block ≠ 0 := by
    rintro rfl
    exact absurd hpos (by decide)
  induction n generalizing m block with
  | zero => exact ⟨_, by rw [linkBlocks, deref_of_ne hne]; rfl⟩
  | succ i ih =>
    have hmul : t.size.toNat * (i + 1) = t.size.toNat * i + t.size.toNat := Nat.mul_succ _ _
    have hnext : (block + t.size).toNat = block.toNat + t.size.toNat := by
      rw [BitVec.toNat_add, Nat.mod_eq_of_lt (by omega)]
    have hne' : block + t.size ≠ 0 := by
      intro hzero
      rw [hzero, show (0 : U64).toNat = 0 from rfl] at hnext
      omega
    obtain ⟨m', hm'⟩ := @ih (store64 m block (block + t.size)) _ (by omega) (by omega) hne'
    exact ⟨m', by rw [linkBlocks, deref_of_ne hne]; exact hm'⟩

end LinkBlocks

/-- `m_total` of a new region. -/
def blockCount (t : BlockType) (bufferSize : U64) : U64 := (bufferSize - sizeofRegion) / t.size

/-- The `k`-th block of a new region. -/
def blockAt (t : BlockType) (buffer : U64) (k : Nat) : U64 :=
  buffer + alignUp sizeofRegion t.align + BitVec.ofNat 64 (t.size.toNat * k)

/-- A block type with the alignment `2 ^ k`: at least that of its link, and a divisor of
the size. -/
structure Layout (t : BlockType) (k : Nat) : Prop where
  align : t.align.toNat = 2 ^ k
  three_le : 3 ≤ k
  dvd : 2 ^ k ∣ t.size.toNat
  pos : 0 < t.size.toNat
  fits : 32 + 2 ^ k + t.size.toNat < 2 ^ 64

/-- A buffer the assertions of `grow` let through.  The address one past it exists. -/
structure Accepted (t : BlockType) (buffer bufferSize : U64) : Prop where
  nonnull : buffer ≠ 0
  aligned : buffer % regionAlign = 0
  size : regionSize t 1 ≤ bufferSize
  object : buffer.toNat + bufferSize.toNat < 2 ^ 64

/-- Where the first block begins, counted from the start of the buffer. -/
def firstOffset (t : BlockType) : Nat := (alignUp sizeofRegion t.align).toNat

section Layout

variable {t : BlockType} {k n : Nat} {buffer bufferSize : U64}

theorem Layout.firstOffset_eq (h : Layout t k) : firstOffset t = max 32 (2 ^ k) := by
  have hfits := h.fits
  have hheader : sizeofRegion.toNat = 32 := rfl
  rcases Nat.lt_or_ge 5 k with hk | hk
  · have hle : 2 ^ 6 ≤ 2 ^ k := Nat.pow_le_pow_right (by decide) hk
    have hone : (32 + (2 ^ k - 1)) / 2 ^ k = 1 := by
      rw [Nat.div_eq_iff (Nat.two_pow_pos k)]
      omega
    rw [firstOffset, alignUp_toNat h.align (by omega), hheader, hone, Nat.one_mul,
      Nat.max_eq_right (by omega)]
  · have hdvd : 2 ^ k ∣ 2 ^ 5 := Nat.pow_dvd_pow 2 hk
    have hle : 2 ^ k ≤ 2 ^ 5 := Nat.pow_le_pow_right (by decide) hk
    rw [firstOffset, @alignUp_of_dvd sizeofRegion _ _ h.align hdvd, hheader]
    exact (Nat.max_eq_left hle).symm

theorem Layout.eight_dvd (h : Layout t k) : 8 ∣ 2 ^ k := Nat.pow_dvd_pow 2 h.three_le

/-- The first block is aligned with the buffer. -/
theorem Layout.dvd_firstOffset (h : Layout t k) : 2 ^ k ∣ firstOffset t := by
  rw [firstOffset]
  exact dvd_alignUp h.align

theorem Layout.eight_dvd_size (h : Layout t k) : 8 ∣ t.size.toNat := h.eight_dvd.trans h.dvd

theorem regionSize_toNat {n : U64}
    (hfit : firstOffset t + n.toNat * t.size.toNat < 2 ^ 64) :
    (regionSize t n).toNat = firstOffset t + n.toNat * t.size.toNat := by
  rw [firstOffset] at hfit ⊢
  have hmul : (n * t.size).toNat = n.toNat * t.size.toNat := by
    rw [BitVec.toNat_mul]
    exact Nat.mod_eq_of_lt (by omega)
  rw [regionSize, BitVec.toNat_add, hmul, Nat.mod_eq_of_lt hfit]

theorem blockCount_toNat (hsize : 32 ≤ bufferSize.toNat) :
    (blockCount t bufferSize).toNat = (bufferSize.toNat - 32) / t.size.toNat := by
  have hheader : sizeofRegion.toNat = 32 := rfl
  rw [blockCount, BitVec.toNat_udiv, BitVec.toNat_sub_of_le (by rw [BitVec.le_def]; omega), hheader]

theorem Accepted.size_le (hlayout : Layout t k) (h : Accepted t buffer bufferSize) :
    firstOffset t + t.size.toNat ≤ bufferSize.toNat := by
  have hfits := hlayout.fits
  have hpow := Nat.two_pow_pos k
  have hoffset := hlayout.firstOffset_eq
  have hsize := h.size
  rw [BitVec.le_def, regionSize_toNat (by rw [show (1 : U64).toNat = 1 from rfl]; omega),
    show (1 : U64).toNat = 1 from rfl, Nat.one_mul] at hsize
  exact hsize

/-- The blocks and what is left behind them fill the buffer up to the header's size. -/
theorem Accepted.blockCount_mul (hlayout : Layout t k) (h : Accepted t buffer bufferSize) :
    32 + t.size.toNat * (blockCount t bufferSize).toNat +
      (bufferSize.toNat - 32) % t.size.toNat = bufferSize.toNat := by
  have hsize := h.size_le hlayout
  have hoffset := hlayout.firstOffset_eq
  rw [blockCount_toNat (by omega)]
  have hdiv := Nat.div_add_mod (bufferSize.toNat - 32) t.size.toNat
  omega

theorem Accepted.eight_dvd (h : Accepted t buffer bufferSize) : 8 ∣ buffer.toNat := by
  have hmod := congrArg BitVec.toNat h.aligned
  rw [BitVec.toNat_umod] at hmod
  exact Nat.dvd_of_mod_eq_zero hmod

theorem blockAt_toNat (hfit : buffer.toNat + firstOffset t + t.size.toNat * n < 2 ^ 64) :
    (blockAt t buffer n).toNat = buffer.toNat + firstOffset t + t.size.toNat * n := by
  rw [firstOffset] at hfit ⊢
  have hfirst : (buffer + alignUp sizeofRegion t.align).toNat =
      buffer.toNat + (alignUp sizeofRegion t.align).toNat := by
    rw [BitVec.toNat_add]
    omega
  rw [blockAt, toNat_add_ofNat _ _ (by omega), hfirst]

end Layout

/-- A region as `grow` leaves it. -/
structure Grown (t : BlockType) (s : SlabAlloc) (m : Mem) (buffer bufferSize : U64)
    (m' : Mem) : Prop where
  total : load64 m' buffer = blockCount t bufferSize
  free : load64 m' (buffer + 8) = blockCount t bufferSize
  blocks : load64 m' (buffer + 16) = blockAt t buffer 0
  next : load64 m' (buffer + 24) = s.regions
  link : ∀ k < (blockCount t bufferSize).toNat,
    load64 m' (blockAt t buffer k) = blockAt t buffer (k + 1)
  last : load64 m' (blockAt t buffer (blockCount t bufferSize).toNat) = 0
  frame : ChangesOnly (fun x => Within x buffer 32 ∨
    Within x (blockAt t buffer 0) (t.size.toNat * (blockCount t bufferSize).toNat + 8)) m m'

/-- The allocator with a new region in front. -/
def SlabAlloc.withRegion (s : SlabAlloc) (t : BlockType) (buffer bufferSize : U64) : SlabAlloc :=
  ⟨buffer, s.total + blockCount t bufferSize, s.free + blockCount t bufferSize⟩

section Grow

variable {t : BlockType} {k : Nat} {s : SlabAlloc} {buffer bufferSize : U64}

/-- The three words of the header written before the linking loop. -/
def withHeader (m : Mem) (buffer total blocks : U64) : Mem :=
  store64 (store64 (store64 m buffer total) (buffer + 8) total) (buffer + 16) blocks

section Header

variable {total blocks x : U64} {m : Mem}

theorem withHeader_apply (hfit : buffer.toNat + 24 ≤ 2 ^ 64) (hx : ¬ Within x buffer 24) :
    withHeader m buffer total blocks x = m x := by
  have h8 : (buffer + 8).toNat = buffer.toNat + 8 := toNat_add_ofNat buffer 8 (by omega)
  have h16 : (buffer + 16).toNat = buffer.toNat + 16 := toNat_add_ofNat buffer 16 (by omega)
  rw [within_iff hfit] at hx
  rw [withHeader, store64_apply_of_not_within (by rw [within_iff (by omega)]; omega),
    store64_apply_of_not_within (by rw [within_iff (by omega)]; omega),
    store64_apply_of_not_within (by rw [within_iff (by omega)]; omega)]

theorem withHeader_words (hfit : buffer.toNat + 24 ≤ 2 ^ 64) :
    load64 (withHeader m buffer total blocks) buffer = total ∧
      load64 (withHeader m buffer total blocks) (buffer + 8) = total ∧
      load64 (withHeader m buffer total blocks) (buffer + 16) = blocks := by
  have h8 : (buffer + 8).toNat = buffer.toNat + 8 := toNat_add_ofNat buffer 8 (by omega)
  have h16 : (buffer + 16).toNat = buffer.toNat + 16 := toNat_add_ofNat buffer 16 (by omega)
  refine ⟨?_, ?_, load64_store64_same ..⟩
  · rw [withHeader, load64_store64_apart (apart_of_le (by omega) (by omega) (by omega)),
      load64_store64_apart (apart_of_le (by omega) (by omega) (by omega)), load64_store64_same]
  · rw [withHeader, load64_store64_apart (apart_of_le (by omega) (by omega) (by omega)),
      load64_store64_same]

end Header

theorem blockAt_zero (t : BlockType) (buffer : U64) :
    blockAt t buffer 0 = buffer + alignUp sizeofRegion t.align := by
  rw [blockAt, Nat.mul_zero, BitVec.add_zero]

theorem blockAt_add (t : BlockType) (buffer : U64) (i : Nat) :
    blockAt t buffer 0 + BitVec.ofNat 64 (t.size.toNat * i) = blockAt t buffer i := by
  rw [blockAt_zero, blockAt]

theorem grow_of_accepted (h : Accepted t buffer bufferSize) (m : Mem) :
    grow t s m buffer bufferSize = (do
      let m ← linkBlocks t (withHeader m buffer (blockCount t bufferSize) (blockAt t buffer 0))
        (blockAt t buffer 0) (blockCount t bufferSize).toNat
      return (s.withRegion t buffer bufferSize, store64 m (buffer + 24) s.regions)) := by
  have hnonnull : (buffer != 0) = true := bne_iff_ne.mpr h.nonnull
  have haligned : (buffer % regionAlign == 0) = true := beq_iff_eq.mpr h.aligned
  rw [grow, hnonnull, haligned, decide_eq_true h.size, blockAt_zero]
  rfl

/-- When the blocks and the word behind them do not wrap around, `grow` returns. -/
theorem grow_spec (hlayout : Layout t k) (haccepted : Accepted t buffer bufferSize)
    (hfit : buffer.toNat + firstOffset t + t.size.toNat * (blockCount t bufferSize).toNat + 8 ≤
      2 ^ 64) (m : Mem) :
    ∃ m', grow t s m buffer bufferSize = .ok (s.withRegion t buffer bufferSize, m') ∧
      Grown t s m buffer bufferSize m' := by
  have hoffset := hlayout.firstOffset_eq
  have hsize := hlayout.eight_dvd_size
  have hpos := hlayout.pos
  have hbuffer : 0 < buffer.toNat := BitVec.toNat_pos_of_ne_zero haccepted.nonnull
  have hblock : ∀ i ≤ (blockCount t bufferSize).toNat, (blockAt t buffer i).toNat =
      buffer.toNat + firstOffset t + t.size.toNat * i := by
    intro i hi
    have hle := Nat.mul_le_mul_left t.size.toNat hi
    exact blockAt_toNat (by omega)
  have hfirst := hblock 0 (Nat.zero_le _)
  rw [Nat.mul_zero, Nat.add_zero] at hfirst
  have hword : ∀ i ≤ 24, (buffer + BitVec.ofNat 64 i).toNat = buffer.toNat + i :=
    fun i hi => toNat_add_ofNat _ _ (by omega)
  have h8 : (buffer + 8).toNat = buffer.toNat + 8 := hword 8 (by decide)
  have h16 : (buffer + 16).toNat = buffer.toNat + 16 := hword 16 (by decide)
  have h24 : (buffer + 24).toNat = buffer.toNat + 24 := hword 24 (by decide)
  set header := withHeader m buffer (blockCount t bufferSize) (blockAt t buffer 0)
  obtain ⟨hwordTotal, hwordFree, hwordBlocks⟩ :=
    @withHeader_words buffer (blockCount t bufferSize) (blockAt t buffer 0) m (by omega)
  obtain ⟨m₁, hlink⟩ := @linkBlocks_returns t (blockCount t bufferSize).toNat header (blockAt t buffer 0)
    (by omega) (by omega)
  obtain ⟨hlinks, hframe⟩ := linkBlocks_spec (by omega) (by omega) hlink
  have hlast := linkBlocks_last hlink
  simp only [blockAt_add] at hlinks hlast
  have hend : buffer.toNat + 32 ≤ (blockAt t buffer 0).toNat := by omega
  -- a word of the header is what was stored there, for the loop runs behind it
  have hkeep : ∀ a : U64, a.toNat + 8 ≤ buffer.toNat + 24 → buffer.toNat ≤ a.toNat →
      load64 (store64 m₁ (buffer + 24) s.regions) a = load64 header a := by
    intro a hhigh hlow
    rw [load64_store64_apart (apart_of_le (by omega) (by omega) (by omega))]
    apply load64_congr
    intro x hx
    rw [within_iff (by omega)] at hx
    apply hframe
    rw [within_iff (by omega)]
    omega
  have hbehind : ∀ a : U64, buffer.toNat + 32 ≤ a.toNat → a.toNat + 8 ≤ 2 ^ 64 →
      load64 (store64 m₁ (buffer + 24) s.regions) a = load64 m₁ a :=
    fun a hlow hhigh => load64_store64_apart (apart_of_le (by omega) (by omega) (by omega))
  refine ⟨store64 m₁ (buffer + 24) s.regions, ?_, ?_⟩
  · rw [grow_of_accepted haccepted, hlink]
    rfl
  · refine ⟨?_, ?_, ?_, load64_store64_same .., fun i hi => ?_, ?_, fun x hx => ?_⟩
    · exact (hkeep _ (by omega) le_rfl).trans hwordTotal
    · exact (hkeep _ (by omega) (by omega)).trans hwordFree
    · exact (hkeep _ (by omega) (by omega)).trans hwordBlocks
    · have hi' := hblock i hi.le
      have hle := Nat.mul_le_mul_left t.size.toNat hi.le
      rw [hbehind _ (by omega) (by omega), hlinks i hi]
    · have hlast' := hblock _ le_rfl
      rw [hbehind _ (by omega) (by omega), hlast]
    · by_contra houtside
      rw [not_or, within_iff (by omega), within_iff (by omega)] at houtside
      apply hx
      rw [store64_apply_of_not_within (by rw [within_iff (by omega)]; omega),
        hframe x (by rw [within_iff (by omega)]; omega)]
      exact withHeader_apply (by omega) (by rw [within_iff (by omega)]; omega)

/-- A call that returns has passed the assertions, and has not stored through null behind
the last block. -/
theorem accepted_of_grow {m m' : Mem} {s' : SlabAlloc}
    (h : grow t s m buffer bufferSize = .ok (s', m')) :
    buffer ≠ 0 ∧ buffer % regionAlign = 0 ∧ regionSize t 1 ≤ bufferSize ∧
      blockAt t buffer (blockCount t bufferSize).toNat ≠ 0 := by
  obtain ⟨_, hnonnull, h⟩ := bind_eq_ok.mp h
  obtain ⟨_, haligned, h⟩ := bind_eq_ok.mp h
  obtain ⟨_, hsize, h⟩ := bind_eq_ok.mp h
  obtain ⟨_, hlink, _⟩ := bind_eq_ok.mp h
  exact ⟨bne_iff_ne.mp (kassert_eq_ok.mp hnonnull), beq_iff_eq.mp (kassert_eq_ok.mp haligned),
    of_decide_eq_true (kassert_eq_ok.mp hsize), linkBlocks_ne_zero hlink⟩

end Grow

end Octiron.Slab
