import Octiron.Allocators.SlabGrowth

/-! How a buffer is carved into blocks, for every element type: what `grow` writes,
which blocks its free list has, and where they lie. -/
namespace Octiron.Slab

open Lib.Word Lib.ByteMemory Lib.LinkedList Exec

/-- What C++ promises of the size and the alignment of an object type. -/
structure ElementType where
  size : U64
  align : U64
  log : Nat
  align_eq : align.toNat = 2 ^ log
  align_dvd : 2 ^ log ∣ size.toNat
  size_pos : 0 < size.toNat
  size_lt : size.toNat < 2 ^ 63

/-- `slab_block`, the union of a pointer and a `T`. -/
def ElementType.slabBlock (T : ElementType) (zeroOut : Bool) : BlockType :=
  let align := if T.align < 8 then 8 else T.align
  { size := alignUp (if T.size < 8 then 8 else T.size) align, align := align, zeroOut := zeroOut }

section ElementType

variable (T : ElementType) (zeroOut : Bool)

theorem ElementType.layout : Layout (T.slabBlock zeroOut) (max 3 T.log) := by
  have hsize := T.size_lt
  have hpos := T.size_pos
  have halign := T.align_eq
  by_cases hlog : T.log < 3
  · have hlt : T.align < 8 := by
      have hpow : 2 ^ T.log < 2 ^ 3 := Nat.pow_lt_pow_right (by decide) hlog
      rw [BitVec.lt_def, halign]
      exact hpow
    have hthree : max 3 T.log = 3 := Nat.max_eq_left hlog.le
    have hvalue : (if T.size < 8 then 8 else T.size).toNat < 2 ^ 63 := by
      split
      · decide
      · exact hsize
    have hge : 8 ≤ (if T.size < 8 then 8 else T.size).toNat := by
      split
      · decide
      · next hnot =>
        rw [BitVec.lt_def, Nat.not_lt] at hnot
        exact hnot
    have h8 : (8 : U64).toNat = 2 ^ 3 := rfl
    have hle := @le_alignUp (if T.size < 8 then 8 else T.size) 8 3 h8 (by omega)
    have hlt' := @alignUp_lt (if T.size < 8 then 8 else T.size) 8 3 h8 (by omega)
    rw [hthree]
    simp only [ElementType.slabBlock, if_pos hlt]
    exact ⟨h8, le_rfl, dvd_alignUp h8, by dsimp only; omega, by dsimp only; omega⟩
  · have hpow : 2 ^ 3 ≤ 2 ^ T.log := Nat.pow_le_pow_right (by decide) (by omega)
    have hle : 2 ^ T.log ≤ T.size.toNat := Nat.le_of_dvd hpos T.align_dvd
    have hnot : ¬ T.align < 8 := by
      rw [BitVec.lt_def, halign, Nat.not_lt]
      exact hpow
    have hnot' : ¬ T.size < 8 := by
      rw [BitVec.lt_def, Nat.not_lt]
      exact hpow.trans hle
    have hmax : max 3 T.log = T.log := Nat.max_eq_right (by omega)
    have hlog : 2 ^ T.log ≤ 2 ^ 62 := by
      apply Nat.pow_le_pow_right (by decide)
      exact Nat.le_of_lt_succ ((Nat.pow_lt_pow_iff_right (by decide)).mp (hle.trans_lt hsize))
    rw [hmax]
    simp only [ElementType.slabBlock, if_neg hnot, if_neg hnot']
    rw [alignUp_of_dvd halign T.align_dvd]
    exact ⟨halign, by omega, T.align_dvd, hpos, by dsimp only; omega⟩

end ElementType

section Carving

variable (t : BlockType) (buffer bufferSize : U64)

/-- A block behind the header of its region, inside the buffer and aligned. -/
structure BlockRight (b : U64) : Prop where
  behind : buffer.toNat + sizeofRegion.toNat ≤ b.toNat
  inside : b.toNat + t.size.toNat ≤ buffer.toNat + bufferSize.toNat
  aligned : t.align.toNat ∣ b.toNat

/-- A new region names its first block and their number, and they all are where they
should be. -/
def CarvesRight : Prop :=
  (∀ s m, ∃ s' m', grow t s m buffer bufferSize = .ok (s', m') ∧ s'.regions = buffer ∧
    load64 m' s'.regions = blockCount t bufferSize ∧
    load64 m' (s'.regions + 16) = blockAt t buffer 0) ∧
  ∀ k < (blockCount t bufferSize).toNat, BlockRight t buffer bufferSize (blockAt t buffer k)

/-- The size asked for `n` blocks is one for `n` blocks. -/
def SizesExactly : Prop :=
  ∀ n : U64, (alignUp sizeofRegion t.align).toNat + n.toNat * t.size.toNat < 2 ^ 64 →
    blockCount t (regionSize t n) = n

end Carving

section Carving

variable {t : BlockType} {k : Nat} {buffer bufferSize : U64}

theorem Layout.pow_le_size (h : Layout t k) : 2 ^ k ≤ t.size.toNat := Nat.le_of_dvd h.pos h.dvd

theorem Layout.sizesExactly (h : Layout t k) : SizesExactly t := by
  intro n hfit
  have hoffset := h.firstOffset_eq
  have hsize := h.pow_le_size
  have hpos := h.pos
  have hregion := @regionSize_toNat t n hfit
  apply BitVec.eq_of_toNat_eq
  rw [blockCount_toNat (by omega), hregion]
  have hrest : (firstOffset t - 32) / t.size.toNat = 0 := Nat.div_eq_of_lt (by omega)
  rw [show firstOffset t + n.toNat * t.size.toNat - 32 =
    firstOffset t - 32 + n.toNat * t.size.toNat by omega, Nat.add_mul_div_right _ _ hpos, hrest,
    Nat.zero_add]

/-- The blocks start inside the buffer, however far the last one may reach. -/
theorem Accepted.blockAt_toNat (hlayout : Layout t k) (h : Accepted t buffer bufferSize) {i : Nat}
    (hi : i < (blockCount t bufferSize).toNat) :
    (blockAt t buffer i).toNat = buffer.toNat + firstOffset t + t.size.toNat * i := by
  have hoffset := hlayout.firstOffset_eq
  have hsize := hlayout.pow_le_size
  have hpow := Nat.two_pow_pos k
  have hobject := h.object
  have hfull := h.blockCount_mul hlayout
  have hle := Nat.mul_le_mul_left t.size.toNat hi
  rw [Nat.mul_succ] at hle
  exact Slab.blockAt_toNat (by omega)

theorem Accepted.blockCount_pos (hlayout : Layout t k) (h : Accepted t buffer bufferSize) :
    0 < (blockCount t bufferSize).toNat := by
  have hsize := h.size_le hlayout
  have hoffset := hlayout.firstOffset_eq
  rw [blockCount_toNat (by omega)]
  exact Nat.div_pos (by omega) hlayout.pos

/-- The blocks are where they should be exactly if the padding in front of the first
one fits behind the last, and the buffer is aligned as they are. -/
theorem Accepted.blocksRight_iff (hlayout : Layout t k) (h : Accepted t buffer bufferSize) :
    (∀ i < (blockCount t bufferSize).toNat, BlockRight t buffer bufferSize (blockAt t buffer i)) ↔
      t.align.toNat ∣ buffer.toNat ∧
        firstOffset t - 32 ≤ (bufferSize.toNat - 32) % t.size.toNat := by
  have hoffset := hlayout.firstOffset_eq
  have hcount := h.blockCount_pos hlayout
  have hfull := h.blockCount_mul hlayout
  rw [hlayout.align]
  constructor
  · intro hright
    constructor
    · have haligned := (hright 0 hcount).aligned
      rw [hlayout.align, h.blockAt_toNat hlayout hcount, Nat.mul_zero, Nat.add_zero] at haligned
      exact (Nat.dvd_add_left hlayout.dvd_firstOffset).mp haligned
    · have hlast : (blockCount t bufferSize).toNat - 1 < (blockCount t bufferSize).toNat := by omega
      have hinside := (hright _ hlast).inside
      rw [h.blockAt_toNat hlayout hlast, Nat.add_assoc, ← Nat.mul_succ, Nat.succ_eq_add_one,
        Nat.sub_add_cancel hcount] at hinside
      omega
  · rintro ⟨haligned, hslack⟩ i hi
    have haddress := h.blockAt_toNat hlayout hi
    have hle := Nat.mul_le_mul_left t.size.toNat hi
    rw [Nat.mul_succ] at hle
    refine ⟨?_, ?_, ?_⟩
    · rw [haddress, show sizeofRegion.toNat = 32 from rfl]
      omega
    · rw [haddress]
      omega
    · rw [haddress, hlayout.align]
      exact Nat.dvd_add (Nat.dvd_add haligned hlayout.dvd_firstOffset) (hlayout.dvd.mul_right i)

/-- A word aligned to eight bytes does not wrap around. -/
theorem add_eight_le {n : Nat} (hdvd : 8 ∣ n) (hlt : n < 2 ^ 64) : n + 8 ≤ 2 ^ 64 := by omega

theorem Accepted.grow_spec (hlayout : Layout t k) (h : Accepted t buffer bufferSize)
    (hslack : firstOffset t - 32 ≤ (bufferSize.toNat - 32) % t.size.toNat) (s : SlabAlloc)
    (m : Mem) :
    ∃ m', grow t s m buffer bufferSize = .ok (s.withRegion t buffer bufferSize, m') ∧
      Grown t s m buffer bufferSize m' := by
  have hoffset := hlayout.firstOffset_eq
  have hfull := h.blockCount_mul hlayout
  have hobject := h.object
  refine Slab.grow_spec hlayout h (add_eight_le ?_ (by omega)) m
  have hfirst := Nat.dvd_add h.eight_dvd (hlayout.eight_dvd.trans hlayout.dvd_firstOffset)
  exact Nat.dvd_add hfirst (hlayout.eight_dvd_size.mul_right _)

/-- What is promised of the blocks of a region holds exactly for buffers aligned as
they are that have room for the padding behind the header. -/
theorem carvesRight_iff (T : ElementType) (zeroOut : Bool)
    (h : Accepted (T.slabBlock zeroOut) buffer bufferSize) :
    CarvesRight (T.slabBlock zeroOut) buffer bufferSize ∧ SizesExactly (T.slabBlock zeroOut) ↔
      (T.slabBlock zeroOut).align.toNat ∣ buffer.toNat ∧
        firstOffset (T.slabBlock zeroOut) - 32 ≤
          (bufferSize.toNat - 32) % (T.slabBlock zeroOut).size.toNat := by
  have hlayout := T.layout zeroOut
  rw [and_iff_left hlayout.sizesExactly, ← h.blocksRight_iff hlayout]
  refine and_iff_right_of_imp fun hright s m => ?_
  obtain ⟨-, hslack⟩ := (h.blocksRight_iff hlayout).mp hright
  obtain ⟨m', hgrow, hgrown⟩ := h.grow_spec hlayout hslack s m
  exact ⟨_, m', hgrow, rfl, hgrown.total, hgrown.blocks⟩

end Carving

section FreeList

variable (t : BlockType) (s : SlabAlloc) (buffer bufferSize : U64)

/-- Whatever memory held, `grow` changes bytes of its buffer only. -/
def StaysInside : Prop :=
  ∀ m s' m', grow t s m buffer bufferSize = .ok (s', m') →
    ChangesOnly (Within · buffer bufferSize.toNat) m m'

/-- The free list of the new region has `m_total` blocks, all inside the buffer. -/
def ExactFreeList (region : U64) (m : Mem) : Prop :=
  ∃ blocks, Linked (load64 m) 0 (load64 m (region + 16)) blocks ∧
    blocks.length = (load64 m region).toNat ∧
    ∀ b ∈ blocks, buffer.toNat ≤ b.toNat ∧ b.toNat + t.size.toNat ≤ buffer.toNat + bufferSize.toNat

def GrowsExactly : Prop :=
  StaysInside t s buffer bufferSize ∧
    ∀ m s' m', grow t s m buffer bufferSize = .ok (s', m') →
      ExactFreeList t buffer bufferSize s'.regions m'

end FreeList

section FreeList

variable {t : BlockType} {k : Nat} {s : SlabAlloc} {m m' : Mem} {buffer bufferSize : U64}

/-- Blocks each linked to the next. -/
theorem segment_blocks {i n : Nat} (hle : i ≤ n)
    (hlink : ∀ j, i ≤ j → j < n → load64 m (blockAt t buffer j) = blockAt t buffer (j + 1)) :
    Segment (load64 m) (blockAt t buffer i) ((List.range' i (n - i)).map (blockAt t buffer))
      (blockAt t buffer n) := by
  induction hle using Nat.decreasingInduction with
  | self =>
    rw [Nat.sub_self]
    rfl
  | of_succ i hi ih =>
    rw [show n - i = (n - (i + 1)) + 1 by omega, List.range'_succ, List.map_cons]
    refine ⟨rfl, ?_⟩
    rw [hlink i le_rfl hi]
    exact ih fun j hij hjn => hlink j (by omega) hjn

/-- The free list of a new region has one element more than the region has blocks. -/
theorem Grown.linked (h : Grown t s m buffer bufferSize m')
    (hne : ∀ i ≤ (blockCount t bufferSize).toNat, blockAt t buffer i ≠ 0) :
    Linked (load64 m') 0 (load64 m' (buffer + 16))
      ((List.range ((blockCount t bufferSize).toNat + 1)).map (blockAt t buffer)) := by
  constructor
  · rw [List.range_succ, List.map_append, List.map_singleton, segment_concat, h.blocks]
    refine ⟨?_, h.last⟩
    have hsegment := @segment_blocks t m' buffer 0 _ (Nat.zero_le _) fun j _ hj => h.link j hj
    rw [Nat.sub_zero, ← List.range_eq_range'] at hsegment
    exact hsegment
  · rw [List.mem_map]
    rintro ⟨i, hi, hzero⟩
    exact hne i (Nat.le_of_lt_succ (List.mem_range.mp hi)) hzero

/-- With the first block right behind the header, the word behind the last one is an
address. -/
theorem Accepted.blockAt_toNat_le (hlayout : Layout t k) (hoffset : firstOffset t = 32)
    (h : Accepted t buffer bufferSize) {i : Nat} (hi : i ≤ (blockCount t bufferSize).toNat) :
    (blockAt t buffer i).toNat = buffer.toNat + 32 + t.size.toNat * i ∧
      (blockAt t buffer i).toNat + 8 ≤ 2 ^ 64 := by
  have hfull := h.blockCount_mul hlayout
  have hobject := h.object
  have hle := Nat.mul_le_mul_left t.size.toNat hi
  have haddress : (blockAt t buffer i).toNat = buffer.toNat + 32 + t.size.toNat * i := by
    rw [Slab.blockAt_toNat (by omega), hoffset]
  refine ⟨haddress, add_eight_le ?_ (blockAt t buffer i).isLt⟩
  rw [haddress]
  have hfirst := Nat.dvd_add h.eight_dvd (show 8 ∣ 32 by decide)
  exact Nat.dvd_add hfirst (hlayout.eight_dvd_size.mul_right _)

theorem Accepted.blockAt_ne_zero (hlayout : Layout t k) (hoffset : firstOffset t = 32)
    (h : Accepted t buffer bufferSize) {i : Nat} (hi : i ≤ (blockCount t bufferSize).toNat) :
    blockAt t buffer i ≠ 0 := by
  intro hzero
  have haddress := (h.blockAt_toNat_le hlayout hoffset hi).1
  rw [hzero, show (0 : U64).toNat = 0 from rfl] at haddress
  omega

theorem Accepted.not_exactFreeList (hlayout : Layout t k) (hoffset : firstOffset t = 32)
    (h : Accepted t buffer bufferSize) (hgrown : Grown t s m buffer bufferSize m') :
    ¬ ExactFreeList t buffer bufferSize buffer m' := by
  rintro ⟨blocks, hlinked, hlength, -⟩
  have hchain := hgrown.linked fun i hi => h.blockAt_ne_zero hlayout hoffset hi
  rw [hlinked.unique hchain, List.length_map, List.length_range, hgrown.total] at hlength
  omega

/-- A word that holds zero has a zero in its last byte. -/
theorem apply_add_seven_of_load64 {a : U64} (h : load64 m a = 0) : (m (a + 7)).getLsbD 0 = false := by
  have hbit := testBit_load m a 8 56
  have hload := congrArg (·.getLsbD 56) h
  simp only [load64, BitVec.getLsbD_ofNat] at hload
  rw [show (decide (56 < 64)) = true from rfl, Bool.true_and] at hload
  rw [hload] at hbit
  exact hbit.symm

theorem Accepted.staysInside_iff (hlayout : Layout t k) (hoffset : firstOffset t = 32)
    (h : Accepted t buffer bufferSize) (s : SlabAlloc) :
    StaysInside t s buffer bufferSize ↔ 8 ≤ (bufferSize.toNat - 32) % t.size.toNat := by
  have hfull := h.blockCount_mul hlayout
  have hobject := h.object
  have hgrow := fun m => h.grow_spec hlayout (by omega) s m
  obtain ⟨hlast, hword⟩ := h.blockAt_toNat_le hlayout hoffset le_rfl
  constructor
  · intro hstays
    by_contra hslack
    obtain ⟨m', hgrow, hgrown⟩ := hgrow fun _ => 1
    have hzero := apply_add_seven_of_load64 hgrown.last
    have hseven : (blockAt t buffer (blockCount t bufferSize).toNat + 7).toNat =
        (blockAt t buffer (blockCount t bufferSize).toNat).toNat + 7 :=
      toNat_add_ofNat _ 7 (by omega)
    have hsame : m' (blockAt t buffer (blockCount t bufferSize).toNat + 7) = 1 := by
      by_contra hchanged
      have hinside : Within _ buffer bufferSize.toNat := hstays _ _ _ hgrow _ hchanged
      rw [within_iff (by omega)] at hinside
      omega
    rw [hsame] at hzero
    exact absurd hzero (by decide)
  · intro hslack m s' m' hcall
    obtain ⟨m₁, hgrow, hgrown⟩ := hgrow m
    obtain ⟨rfl, rfl⟩ := ok_pair_inj (hcall.symm.trans hgrow)
    have hfirst := (h.blockAt_toNat_le hlayout hoffset (Nat.zero_le _)).1
    refine hgrown.frame.mono fun x hx => ?_
    rw [within_iff (by omega), within_iff (by omega)] at hx
    rw [within_iff (by omega)]
    omega

theorem Accepted.grows_inexactly (hlayout : Layout t k) (hoffset : firstOffset t = 32)
    (h : Accepted t buffer bufferSize) (s : SlabAlloc) : ¬ GrowsExactly t s buffer bufferSize := by
  rintro ⟨-, hlists⟩
  have hslack : firstOffset t - 32 ≤ (bufferSize.toNat - 32) % t.size.toNat := by omega
  obtain ⟨m', hgrow, hgrown⟩ := h.grow_spec hlayout hslack s fun _ => 0
  have hlist := hlists _ _ _ hgrow
  exact h.not_exactFreeList hlayout hoffset hgrown hlist

/-- The blocks of a type with the alignment of a pointer begin right behind the
header. -/
theorem ElementType.firstOffset_of_align (T : ElementType) (zeroOut : Bool) (h : T.align = 8) :
    firstOffset (T.slabBlock zeroOut) = 32 := by
  have hlog : 2 ^ T.log = 2 ^ 3 := by
    rw [← T.align_eq, h]
    rfl
  rw [(T.layout zeroOut).firstOffset_eq, Nat.pow_right_injective (le_refl 2) hlog]
  decide

/-- The free list has a block too many for any buffer, and the link of that one is
written behind the buffer exactly if less than a word is left over there. -/
theorem not_growsExactly (T : ElementType) (zeroOut : Bool) (halign : T.align = 8) (s : SlabAlloc)
    (h : Accepted (T.slabBlock zeroOut) buffer bufferSize) :
    ¬ GrowsExactly (T.slabBlock zeroOut) s buffer bufferSize ∧
      (StaysInside (T.slabBlock zeroOut) s buffer bufferSize ↔
        8 ≤ (bufferSize.toNat - 32) % (T.slabBlock zeroOut).size.toNat) := by
  have hlayout := T.layout zeroOut
  have hoffset := T.firstOffset_of_align zeroOut halign
  exact ⟨h.grows_inexactly hlayout hoffset s, h.staysInside_iff hlayout hoffset s⟩

end FreeList

theorem threeWords_ok : 2 ^ 3 ∣ (24 : U64).toNat ∧ 0 < (24 : U64).toNat ∧ (24 : U64).toNat < 2 ^ 63 :=
  by decide

/-- `memory_block`, three words. -/
def memoryBlockType : ElementType where
  size := 24
  align := 8
  log := 3
  align_eq := rfl
  align_dvd := threeWords_ok.1
  size_pos := threeWords_ok.2.1
  size_lt := threeWords_ok.2.2

/-- `BLOCK_BUF`, sized for 64 of them, at some address. -/
theorem accepted_blockBuf : Accepted (memoryBlockType.slabBlock true) 0x80200000 0x620 :=
  ⟨by decide, by decide, by decide, by decide⟩

theorem not_growsExactly_blockBuf :
    Accepted (memoryBlockType.slabBlock true) 0x80200000 0x620 ∧
    ¬ GrowsExactly (memoryBlockType.slabBlock true) {} 0x80200000 0x620 :=
  ⟨accepted_blockBuf, (not_growsExactly memoryBlockType true rfl {} accepted_blockBuf).1⟩

/-- The link behind the last of the 64 is written behind `BLOCK_BUF`. -/
theorem not_staysInside_blockBuf :
    regionSize (memoryBlockType.slabBlock true) 64 = 0x620 ∧
    ¬ StaysInside (memoryBlockType.slabBlock true) {} 0x80200000 0x620 ∧
    ¬ GrowsExactly (memoryBlockType.slabBlock true) {} 0x80200000 0x620 := by
  have hstays : ¬ StaysInside (memoryBlockType.slabBlock true) {} 0x80200000 0x620 := by
    rw [accepted_blockBuf.staysInside_iff (memoryBlockType.layout true)
      (memoryBlockType.firstOffset_of_align true rfl)]
    decide
  exact ⟨by decide, hstays, fun hexact => hstays hexact.1⟩

theorem cacheLine_ok : 2 ^ 6 ∣ (64 : U64).toNat ∧ 0 < (64 : U64).toNat ∧ (64 : U64).toNat < 2 ^ 63 :=
  by decide

/-- A type of one cache line, aligned to it. -/
def cacheLineType : ElementType where
  size := 64
  align := 64
  log := 6
  align_eq := rfl
  align_dvd := cacheLine_ok.1
  size_pos := cacheLine_ok.2.1
  size_lt := cacheLine_ok.2.2

/-- Two lines in a buffer of the size asked for two. -/
theorem carvesRight_twoLines :
    regionSize (cacheLineType.slabBlock true) 2 = 0xc0 ∧
    CarvesRight (cacheLineType.slabBlock true) 0x80200000 0xc0 := by
  have haccepted : Accepted (cacheLineType.slabBlock true) 0x80200000 0xc0 :=
    ⟨by decide, by decide, by decide, by decide⟩
  exact ⟨by decide, ((carvesRight_iff cacheLineType true haccepted).mpr ⟨by decide, by decide⟩).1⟩

/-- In a buffer aligned to eight bytes no line is aligned, and in an aligned one of
`0xa0` bytes the second of the two lines counted ends behind it. -/
theorem not_carvesRight_cacheLine :
    (Accepted (cacheLineType.slabBlock true) 0x80200008 0xc0 ∧
      ¬ CarvesRight (cacheLineType.slabBlock true) 0x80200008 0xc0) ∧
    (Accepted (cacheLineType.slabBlock true) 0x80200000 0xa0 ∧
      ¬ CarvesRight (cacheLineType.slabBlock true) 0x80200000 0xa0) := by
  refine ⟨⟨⟨by decide, by decide, by decide, by decide⟩, ?_⟩,
    ⟨⟨by decide, by decide, by decide, by decide⟩, ?_⟩⟩
  · rintro ⟨-, hblocks⟩
    exact absurd (hblocks 0 (by decide)).aligned (by decide)
  · rintro ⟨-, hblocks⟩
    exact absurd (hblocks 1 (by decide)).inside (by decide)

end Octiron.Slab
