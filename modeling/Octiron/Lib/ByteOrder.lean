import Octiron.Lib.ByteMemory
import Mathlib.Algebra.BigOperators.Fin

/-! Reversing the bytes of a word.  On a little-endian memory a load and a reversal make
a big-endian read, whatever the width and however the reversal is written. -/
namespace Octiron.Lib.ByteOrder

open Octiron.Lib.Word Octiron.Lib.ByteMemory

/-- Byte `k` of the result is byte `n - 1 - k` of the word. -/
structure Reverses (n : Nat) {w : Nat} (flip : BitVec w → BitVec w) : Prop where
  width : w = 8 * n
  bit : ∀ num b, b < w → (flip num).getLsbD b = num.getLsbD (8 * (n - 1 - b / 8) + b % 8)

/-- Byte `i` of the word, in the place of byte `j`. -/
def moveByte {w : Nat} (num : BitVec w) (i j : Nat) : BitVec w :=
  ((num >>> (8 * i)) &&& BitVec.ofNat w 0xFF) <<< (8 * j)

/-- The low `k` bytes of the reversed word of `n` bytes. -/
def reversedBytes (n : Nat) {w : Nat} (num : BitVec w) : Nat → BitVec w
  | 0 => 0#w
  | k + 1 => reversedBytes n num k ||| moveByte num (n - 1 - k) k

section Moves

variable {n w : Nat} (num : BitVec w) (i j b k : Nat)

theorem getLsbD_byteMask : (BitVec.ofNat w 0xFF).getLsbD b = (decide (b < w) && decide (b < 8)) := by
  rw [BitVec.getLsbD_ofNat, show 0xFF = 2 ^ 8 - 1 by rfl, Nat.testBit_two_pow_sub_one]

theorem getLsbD_moveByte : (moveByte num i j).getLsbD b =
    (decide (b < w ∧ 8 * j ≤ b ∧ b < 8 * j + 8) && num.getLsbD (8 * i + (b - 8 * j))) := by
  rw [moveByte, BitVec.getLsbD_shiftLeft, BitVec.getLsbD_and, BitVec.getLsbD_ushiftRight,
    getLsbD_byteMask]
  by_cases hb : b < w ∧ 8 * j ≤ b ∧ b < 8 * j + 8
  · obtain ⟨hin, hlow, hhigh⟩ := hb
    have hoff : b - 8 * j < w := by omega
    have hbyte : b - 8 * j < 8 := by omega
    simp [hin, hlow, hhigh, hoff, hbyte, Nat.not_lt.mpr hlow]
  · have hout : ¬ (b < w ∧ ¬ b < 8 * j ∧ b - 8 * j < 8) := by omega
    rw [decide_eq_false hb, Bool.false_and]
    by_contra hbit
    simp only [Bool.not_eq_false, Bool.and_eq_true, Bool.not_eq_true', decide_eq_true_eq,
      decide_eq_false_iff_not] at hbit
    exact hout ⟨hbit.1.1, hbit.1.2, hbit.2.2.2⟩

/-- A mask behind a shift to the right takes one byte. -/
theorem ushiftRight_and_mask (hij : j ≤ i) :
    (num >>> (8 * (i - j))) &&& (BitVec.ofNat w 0xFF <<< (8 * j)) = moveByte num i j := by
  apply BitVec.eq_of_getLsbD_eq
  intro b hb
  rw [moveByte, BitVec.getLsbD_and, BitVec.getLsbD_ushiftRight, BitVec.getLsbD_shiftLeft,
    BitVec.getLsbD_shiftLeft, BitVec.getLsbD_and, BitVec.getLsbD_ushiftRight]
  by_cases hlow : b < 8 * j
  · simp [hlow]
  · have hindex : 8 * (i - j) + b = 8 * i + (b - 8 * j) := by omega
    rw [hindex]
    simp [hlow, hb]

/-- A mask behind a shift to the left. -/
theorem shiftLeft_and_mask (hij : i ≤ j) :
    (num <<< (8 * (j - i))) &&& (BitVec.ofNat w 0xFF <<< (8 * j)) = moveByte num i j := by
  apply BitVec.eq_of_getLsbD_eq
  intro b hb
  rw [moveByte, BitVec.getLsbD_and, BitVec.getLsbD_shiftLeft, BitVec.getLsbD_shiftLeft,
    BitVec.getLsbD_shiftLeft, BitVec.getLsbD_and, BitVec.getLsbD_ushiftRight]
  by_cases hlow : b < 8 * j
  · simp [hlow]
  · have hindex : b - 8 * (j - i) = 8 * i + (b - 8 * j) := by omega
    have hshift : ¬ b < 8 * (j - i) := by omega
    rw [hindex]
    simp [hlow, hb, hshift]

theorem getLsbD_reversedBytes (hw : w = 8 * n) (hk : k ≤ n) : (reversedBytes n num k).getLsbD b =
    (decide (b < 8 * k) && num.getLsbD (8 * (n - 1 - b / 8) + b % 8)) := by
  induction k with
  | zero => simp [reversedBytes]
  | succ k ih =>
    rw [reversedBytes, BitVec.getLsbD_or, ih (Nat.le_of_succ_le hk), getLsbD_moveByte]
    by_cases hlow : b < 8 * k
    · have hnext : b < 8 * (k + 1) := by omega
      have hother : ¬ (b < w ∧ 8 * k ≤ b ∧ b < 8 * k + 8) := by omega
      simp [hlow, hnext, hother]
    · by_cases hhere : b < 8 * (k + 1)
      · have hin : b < w ∧ 8 * k ≤ b ∧ b < 8 * k + 8 := by omega
        have hindex : 8 * (n - 1 - k) + (b - 8 * k) = 8 * (n - 1 - b / 8) + b % 8 := by omega
        rw [hindex, decide_eq_true hin]
        simp [hlow, hhere]
      · have hother : ¬ (b < w ∧ 8 * k ≤ b ∧ b < 8 * k + 8) := by omega
        simp [hlow, hhere, hother]

/-- However it is written, to move every byte to its mirror is to reverse them. -/
theorem reverses_of_eq {flip : BitVec w → BitVec w} (hw : w = 8 * n)
    (h : ∀ num, flip num = reversedBytes n num n) : Reverses n flip where
  width := hw
  bit num b hb := by
    have hin : b < 8 * n := hw ▸ hb
    rw [h, getLsbD_reversedBytes num b n hw le_rfl]
    simp [hin]

end Moves

/-- The number that the bytes write in base 256, the first one the most significant. -/
def bigEndianValue : List Byte → Nat
  | [] => 0
  | b :: rest => b.toNat * 256 ^ rest.length + bigEndianValue rest

def bigEndianSum (l : List Byte) : Nat :=
  ∑ i : Fin l.length, (l.get i).toNat * 256 ^ (l.length - 1 - i.val)

theorem bigEndianValue_eq_sum (l : List Byte) : bigEndianValue l = bigEndianSum l := by
  induction l with
  | nil => rfl
  | cons b rest ih =>
    rw [bigEndianValue, ih]
    change _ = ∑ i : Fin (rest.length + 1), _
    rw [Fin.sum_univ_succ]
    congr 1
    apply Finset.sum_congr rfl
    intro i _
    have hpower : (b :: rest).length - 1 - (i.val + 1) = rest.length - 1 - i.val := by
      rw [List.length_cons]
      omega
    rw [Fin.val_succ, hpower]
    rfl

theorem bigEndianValue_lt (l : List Byte) : bigEndianValue l < 2 ^ (8 * l.length) := by
  induction l with
  | nil => decide
  | cons b rest ih =>
    have hb := b.isLt
    have hpow : 256 ^ rest.length = 2 ^ (8 * rest.length) := by rw [Nat.pow_mul]
    rw [bigEndianValue, List.length_cons, hpow, Nat.mul_succ, Nat.pow_add, Nat.mul_comm]
    calc 2 ^ (8 * rest.length) * b.toNat + bigEndianValue rest
        < 2 ^ (8 * rest.length) * (b.toNat + 1) := by
          rw [Nat.mul_succ]
          exact Nat.add_lt_add_left ih _
      _ ≤ 2 ^ (8 * rest.length) * 2 ^ 8 := Nat.mul_le_mul_left _ hb

/-- The last byte of the range has the low bits. -/
theorem testBit_bigEndianValue (m : Mem) (a : Addr) (n i : Nat) :
    (bigEndianValue (bytesFrom m a n)).testBit i =
      (decide (i < 8 * n) && (m (a + BitVec.ofNat 64 (n - 1 - i / 8))).getLsbD (i % 8)) := by
  induction n generalizing a with
  | zero => simp [bytesFrom, bigEndianValue]
  | succ n ih =>
    have hlt := bigEndianValue_lt (bytesFrom m (a + 1) n)
    have hpow : 256 ^ n = 2 ^ (8 * n) := by rw [Nat.pow_mul]
    rw [length_bytesFrom] at hlt
    rw [bytesFrom_succ, bigEndianValue, length_bytesFrom, hpow, Nat.mul_comm,
      Nat.testBit_two_pow_mul_add _ hlt]
    by_cases hi : i < 8 * n
    · have hin : i < 8 * (n + 1) := by omega
      have hindex : n - 1 - i / 8 + 1 = n + 1 - 1 - i / 8 := by omega
      rw [if_pos hi, ih, succ_offset, hindex]
      simp [hi, hin]
    · rw [if_neg hi]
      by_cases hin : i < 8 * (n + 1)
      · have hfirst : n + 1 - 1 - i / 8 = 0 := by omega
        have hbit : i - 8 * n = i % 8 := by omega
        rw [hfirst, hbit, BitVec.add_zero]
        simp [hin, BitVec.getLsbD]
      · have hge : 8 ≤ i - 8 * n := by omega
        have hout := BitVec.getLsbD_of_ge (m a) (i - 8 * n) hge
        simp only [BitVec.getLsbD] at hout
        simp [hin, hout]

theorem load_lt (m : Mem) (a : Addr) (n : Nat) : load m a n < 2 ^ (8 * n) := by
  apply Nat.lt_pow_two_of_testBit
  intro i hi
  rw [testBit_load]
  simp [Nat.not_lt.mpr hi]

namespace Reverses

variable {n w : Nat} {flip : BitVec w → BitVec w}

theorem involutive (h : Reverses n flip) (num : BitVec w) : flip (flip num) = num := by
  have hwidth := h.width
  apply BitVec.eq_of_getLsbD_eq
  intro b hb
  have hmirror : 8 * (n - 1 - b / 8) + b % 8 < w := by omega
  have hback : 8 * (n - 1 - (8 * (n - 1 - b / 8) + b % 8) / 8) + (8 * (n - 1 - b / 8) + b % 8) % 8 =
      b := by omega
  rw [h.bit _ _ hb, h.bit _ _ hmirror, hback]

theorem getLsbD_load (h : Reverses n flip) (m : Mem) (a : Addr) (b : Nat) :
    (flip (BitVec.ofNat w (load m a n))).getLsbD b =
      (decide (b < w) && (m (a + BitVec.ofNat 64 (n - 1 - b / 8))).getLsbD (b % 8)) := by
  have hwidth := h.width
  by_cases hb : b < w
  · have hin : 8 * (n - 1 - b / 8) + b % 8 < 8 * n := by omega
    have hdiv : (8 * (n - 1 - b / 8) + b % 8) / 8 = n - 1 - b / 8 := by omega
    have hmod : (8 * (n - 1 - b / 8) + b % 8) % 8 = b % 8 := by omega
    have hin' := hwidth ▸ hin
    rw [h.bit _ _ hb, BitVec.getLsbD_ofNat, testBit_load, hdiv, hmod]
    simp [hb, hin, hin']
  · rw [BitVec.getLsbD_of_ge _ _ (Nat.le_of_not_lt hb)]
    simp [hb]

theorem toNat_load (h : Reverses n flip) (m : Mem) (a : Addr) :
    (flip (BitVec.ofNat w (load m a n))).toNat = bigEndianValue (bytesFrom m a n) := by
  apply Nat.eq_of_testBit_eq
  intro i
  rw [testBit_bigEndianValue, ← h.width, ← h.getLsbD_load]
  rfl

theorem toNat_load_of_holds (h : Reverses n flip) {m : Mem} {a : Addr} {l : List Byte}
    (hl : Holds m a l) (hlen : l.length = n) :
    (flip (BitVec.ofNat w (load m a n))).toNat = bigEndianSum l := by
  rw [h.toNat_load, ← hlen, bytesFrom_of_holds hl, bigEndianValue_eq_sum]

/-- A word whose bytes are in memory, the most significant one first, is what is read. -/
theorem load_of_bytes (h : Reverses n flip) {m : Mem} {a : Addr} {word : BitVec w}
    (hbytes : ∀ i < n, m (a + BitVec.ofNat 64 i) = word.extractLsb' (8 * (n - 1 - i)) 8) :
    flip (BitVec.ofNat w (load m a n)) = word := by
  have hwidth := h.width
  apply BitVec.eq_of_getLsbD_eq
  intro b hb
  have hin : n - 1 - b / 8 < n := by omega
  have hback : 8 * (n - 1 - (n - 1 - b / 8)) + b % 8 = b := by omega
  have hlow : b % 8 < 8 := Nat.mod_lt _ (by decide)
  rw [h.getLsbD_load, hbytes _ hin, BitVec.getLsbD_extractLsb', hback]
  simp [hb, hlow]

/-- Two big-endian reads agree exactly on the same bytes. -/
theorem load_eq_iff (h : Reverses n flip) {m m' : Mem} {a a' : Addr} :
    flip (BitVec.ofNat w (load m a n)) = flip (BitVec.ofNat w (load m' a' n)) ↔
      SameBytes m a m' a' n := by
  rw [← ByteMemory.load_eq_iff]
  constructor
  · intro heq
    have hflip := congrArg flip heq
    rw [h.involutive, h.involutive, ← BitVec.toNat_inj,
      toNat_ofNat_of_lt (h.width ▸ load_lt m a n), toNat_ofNat_of_lt (h.width ▸ load_lt m' a' n)] at hflip
    exact hflip
  · intro heq
    rw [heq]

end Reverses

end Octiron.Lib.ByteOrder
