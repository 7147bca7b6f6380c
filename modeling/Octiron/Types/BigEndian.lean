import Octiron.Lib.ByteOrder
import Octiron.Types.Number
import Mathlib.Tactic.IntervalCases

/-! Big-endian words in memory, as `num::read_big_endian` reads them. -/
namespace Octiron

open Lib.Word Lib.ByteMemory Lib.ByteOrder

/-- The bytes of a word, the most significant one first. -/
def bigEndian32 (w : U32) : List U8 :=
  [w.extractLsb' 24 8, w.extractLsb' 16 8, w.extractLsb' 8 8, w.extractLsb' 0 8]

/-- The bytes of a word of eight, the most significant one first. -/
def bigEndian64 (w : U64) : List U8 :=
  [w.extractLsb' 56 8, w.extractLsb' 48 8, w.extractLsb' 40 8, w.extractLsb' 32 8,
    w.extractLsb' 24 8, w.extractLsb' 16 8, w.extractLsb' 8 8, w.extractLsb' 0 8]

theorem reverses_flipEndianness16 : Reverses 2 flipEndianness16 where
  width := rfl
  bit num b hb := by
    unfold flipEndianness16
    interval_cases b <;> simp

/-- Each term takes one byte of the word to its mirror. -/
theorem reverses_flipEndianness32 : Reverses 4 flipEndianness32 := by
  apply @reverses_of_eq 4 32 _ rfl
  intro num
  have h0 := ushiftRight_and_mask num 3 0 (by decide)
  have h1 := ushiftRight_and_mask num 2 1 (by decide)
  have h2 := shiftLeft_and_mask num 1 2 (by decide)
  have h3 := shiftLeft_and_mask num 0 3 (by decide)
  simp only [reversedBytes, BitVec.zero_or, ← h0, ← h1, ← h2, ← h3]
  rfl

theorem reverses_flipEndianness64 : Reverses 8 flipEndianness64 := by
  apply @reverses_of_eq 8 64 _ rfl
  intro num
  have h0 := ushiftRight_and_mask num 7 0 (by decide)
  have h1 := ushiftRight_and_mask num 6 1 (by decide)
  have h2 := ushiftRight_and_mask num 5 2 (by decide)
  have h3 := ushiftRight_and_mask num 4 3 (by decide)
  have h4 := shiftLeft_and_mask num 3 4 (by decide)
  have h5 := shiftLeft_and_mask num 2 5 (by decide)
  have h6 := shiftLeft_and_mask num 1 6 (by decide)
  have h7 := shiftLeft_and_mask num 0 7 (by decide)
  simp only [reversedBytes, BitVec.zero_or, ← h0, ← h1, ← h2, ← h3, ← h4, ← h5, ← h6, ← h7]
  rfl

/-- The low `n` bytes of the flipped word. -/
def flippedBytes (num : U128) (n : Nat) : U128 :=
  (List.range n).foldl (fun dst i =>
    dst ||| ((num >>> (8 * (15 - i))) &&& 0xFF) <<< (8 * i)) 0

theorem flippedBytes_eq (num : U128) (n : Nat) : flippedBytes num n = reversedBytes 16 num n := by
  induction n with
  | zero => rfl
  | succ n ih =>
    rw [flippedBytes, List.range_succ, List.foldl_append, reversedBytes, ← ih]
    rfl

theorem reverses_flipEndianness128 : Reverses 16 flipEndianness128 :=
  reverses_of_eq rfl fun num => flippedBytes_eq num 16

theorem flipEndianness64_involutive (w : U64) : flipEndianness64 (flipEndianness64 w) = w :=
  reverses_flipEndianness64.involutive w

section Reads

variable (m : Mem) (p : U64) (b : Nat)

theorem getLsbD_readBigEndian32 : (readBigEndian32 m p).getLsbD b =
    (decide (b < 32) && (m (p + BitVec.ofNat 64 (3 - b / 8))).getLsbD (b % 8)) :=
  reverses_flipEndianness32.getLsbD_load m p b

theorem getLsbD_readBigEndian64 : (readBigEndian64 m p).getLsbD b =
    (decide (b < 64) && (m (p + BitVec.ofNat 64 (7 - b / 8))).getLsbD (b % 8)) :=
  reverses_flipEndianness64.getLsbD_load m p b

theorem getLsbD_readBigEndian128 : (readBigEndian128 m p).getLsbD b =
    (decide (b < 128) && (m (p + BitVec.ofNat 64 (15 - b / 8))).getLsbD (b % 8)) :=
  reverses_flipEndianness128.getLsbD_load m p b

end Reads

section Held

variable {m : Mem} {p : U64}

theorem readBigEndian32_of_holds {w : U32} (h : Holds m p (bigEndian32 w)) :
    readBigEndian32 m p = w := by
  apply reverses_flipEndianness32.load_of_bytes
  intro i hi
  rw [h.apply hi]
  interval_cases i <;> rfl

theorem readBigEndian64_of_holds {w : U64} (h : Holds m p (bigEndian64 w)) :
    readBigEndian64 m p = w := by
  apply reverses_flipEndianness64.load_of_bytes
  intro i hi
  rw [h.apply hi]
  interval_cases i <;> rfl

end Held

section Halves

variable (m : Mem) (p : U64)

/-- Eight bytes are the four of the high half and then the four of the low one. -/
theorem readBigEndian64_eq_append :
    readBigEndian64 m p = readBigEndian32 m p ++ readBigEndian32 m (p + 4) := by
  apply BitVec.eq_of_getLsbD_eq
  intro b hb
  rw [getLsbD_readBigEndian64, BitVec.getLsbD_append, getLsbD_readBigEndian32,
    getLsbD_readBigEndian32]
  by_cases hlow : b < 32
  · have hindex : 4 + (3 - b / 8) = 7 - b / 8 := by omega
    rw [show p + 4 = p + BitVec.ofNat 64 4 by rfl, add_ofNat_add, hindex]
    simp [hb, hlow]
  · have hindex : 3 - (b - 32) / 8 = 7 - b / 8 := by omega
    have hmod : (b - 32) % 8 = b % 8 := by omega
    have hhigh : b - 32 < 32 := by omega
    rw [hindex, hmod]
    simp [hb, hlow, hhigh]

theorem toNat_readBigEndian64 : (readBigEndian64 m p).toNat =
    (readBigEndian32 m p).toNat * 2 ^ 32 + (readBigEndian32 m (p + 4)).toNat := by
  rw [readBigEndian64_eq_append, BitVec.toNat_append,
    ← Nat.shiftLeft_add_eq_or_of_lt (readBigEndian32 m (p + 4)).isLt, Nat.shiftLeft_eq]

/-- The low half of sixteen bytes is their second half. -/
theorem setWidth_readBigEndian128 :
    (readBigEndian128 m p).setWidth 64 = readBigEndian64 m (p + 8) := by
  apply BitVec.eq_of_getLsbD_eq
  intro b hb
  have hindex : 8 + (7 - b / 8) = 15 - b / 8 := by omega
  have hin : b < 128 := by omega
  rw [BitVec.getLsbD_setWidth, getLsbD_readBigEndian128, getLsbD_readBigEndian64,
    show p + 8 = p + BitVec.ofNat 64 8 by rfl, add_ofNat_add, hindex]
  simp [hb, hin]

end Halves

/-- Bytes of each width are read as the number they write in base 256, and each of the
four overloads reverses the bytes of its word, so it undoes itself. -/
theorem readBigEndian_law :
    (∀ (m : Mem) (ptr : U64) (bytes : List U8), Holds m ptr bytes →
      (bytes.length = 2 → (readBigEndian16 m ptr).toNat = bigEndianSum bytes) ∧
      (bytes.length = 4 → (readBigEndian32 m ptr).toNat = bigEndianSum bytes) ∧
      (bytes.length = 8 → (readBigEndian64 m ptr).toNat = bigEndianSum bytes) ∧
      (bytes.length = 16 → (readBigEndian128 m ptr).toNat = bigEndianSum bytes)) ∧
    (∀ num, flipEndianness16 (flipEndianness16 num) = num) ∧
    (∀ num, flipEndianness32 (flipEndianness32 num) = num) ∧
    (∀ num, flipEndianness64 (flipEndianness64 num) = num) ∧
    (∀ num, flipEndianness128 (flipEndianness128 num) = num) ∧
    Reverses 2 flipEndianness16 ∧ Reverses 4 flipEndianness32 ∧
    Reverses 8 flipEndianness64 ∧ Reverses 16 flipEndianness128 := by
  have h16 := reverses_flipEndianness16
  have h32 := reverses_flipEndianness32
  have h64 := reverses_flipEndianness64
  have h128 := reverses_flipEndianness128
  refine ⟨fun m ptr bytes hbytes => ?_, h16.involutive, h32.involutive, h64.involutive,
    h128.involutive, h16, h32, h64, h128⟩
  exact ⟨h16.toNat_load_of_holds hbytes, h32.toNat_load_of_holds hbytes,
    h64.toNat_load_of_holds hbytes, h128.toNat_load_of_holds hbytes⟩

theorem readBigEndian_law_words :
    (readBigEndian16 (ofBytes 0x1000 [0x12, 0x34]) 0x1000).toNat = 0x1234 ∧
      flipEndianness32 (flipEndianness32 0xDEADBEEF) = 0xDEADBEEF := by
  have hbytes : Holds (ofBytes 0x1000 [0x12, 0x34]) 0x1000 [0x12, 0x34] :=
    holds_ofBytes _ (by decide)
  exact ⟨(readBigEndian_law.1 _ _ _ hbytes).1 rfl, readBigEndian_law.2.2.1 _⟩

/-- An integer of so many cells of 32 bits, the most significant one first. -/
def encodeCells : Nat → Nat → List U8
  | 0, _ => []
  | k + 1, v => bigEndian32 (BitVec.ofNat 32 (v / 2 ^ (32 * k))) ++ encodeCells k v

/-- Reading it cell by cell. -/
def readCells (m : Mem) : U64 → Nat → Nat
  | _, 0 => 0
  | p, k + 1 => (readBigEndian32 m p).toNat * 2 ^ (32 * k) + readCells m (p + 4) k

@[simp] theorem length_encodeCells (k v : Nat) : (encodeCells k v).length = 4 * k := by
  induction k with
  | zero => rfl
  | succ k ih =>
    rw [encodeCells, List.length_append, ih]
    change 4 + 4 * k = 4 * (k + 1)
    omega

theorem readCells_of_holds {m : Mem} {p : U64} {k v : Nat} (h : Holds m p (encodeCells k v)) :
    readCells m p k = v % 2 ^ (32 * k) := by
  induction k generalizing p with
  | zero => rw [Nat.mul_zero, pow_zero, Nat.mod_one, readCells]
  | succ k ih =>
    obtain ⟨hfirst, hrest⟩ := holds_append.mp h
    have hlow : readCells m (p + 4) k = v % 2 ^ (32 * k) := ih hrest
    rw [readCells, readBigEndian32_of_holds hfirst, hlow, BitVec.toNat_ofNat, Nat.mul_succ,
      Nat.pow_add, Nat.mod_mul, Nat.mul_comm (2 ^ (32 * k)), Nat.add_comm]

section TwoReads

variable {m m' : Mem} {p p' : U64}

/-- Two reads of a big-endian word agree exactly on the same bytes. -/
theorem readBigEndian32_eq_iff :
    readBigEndian32 m p = readBigEndian32 m' p' ↔ SameBytes m p m' p' 4 :=
  reverses_flipEndianness32.load_eq_iff

theorem readBigEndian64_eq_iff :
    readBigEndian64 m p = readBigEndian64 m' p' ↔ SameBytes m p m' p' 8 :=
  reverses_flipEndianness64.load_eq_iff

/-- The whole of the longest word is what all sixteen say. -/
theorem readBigEndian128_eq_iff :
    readBigEndian128 m p = readBigEndian128 m' p' ↔ SameBytes m p m' p' 16 :=
  reverses_flipEndianness128.load_eq_iff

theorem readBigEndian128_congr (h : SameBytes m p m' p' 16) :
    readBigEndian128 m p = readBigEndian128 m' p' := readBigEndian128_eq_iff.mpr h

/-- Its low half is what the last eight of the sixteen bytes say. -/
theorem setWidth_readBigEndian128_eq_iff :
    (readBigEndian128 m p).setWidth 64 = (readBigEndian128 m' p').setWidth 64 ↔
      SameBytes m (p + 8) m' (p' + 8) 8 := by
  rw [setWidth_readBigEndian128, setWidth_readBigEndian128, readBigEndian64_eq_iff]

end TwoReads

end Octiron
