import Octiron.Lib.ByteMemory

/-! `types/number.h`: alignment arithmetic on 64-bit words and big-endian
reads on a little-endian machine. -/
namespace Octiron

open Lib.Word Lib.ByteMemory

abbrev U8 := BitVec 8
abbrev U16 := BitVec 16
abbrev U32 := BitVec 32
abbrev U64 := BitVec 64
abbrev U128 := BitVec 128

def alignUp (value alignment : U64) : U64 :=
  (value + alignment - 1) &&& ~~~(alignment - 1)

def alignDown (value alignment : U64) : U64 :=
  value &&& ~~~(alignment - 1)

def isAligned (value alignment : U64) : Bool := 0 == value % alignment

/-- `num::min`. -/
def minimum (lhs rhs : U64) : U64 := if lhs < rhs then lhs else rhs

theorem minimum_toNat (lhs rhs : U64) : (minimum lhs rhs).toNat = min lhs.toNat rhs.toNat := by
  unfold minimum
  split
  · next hlt =>
    rw [BitVec.lt_def] at hlt
    omega
  · next hge =>
    rw [BitVec.lt_def] at hge
    omega

def pageSize : U64 := 0x1000

@[simp] theorem pageSize_toNat : pageSize.toNat = 2 ^ 12 := rfl

section PowerOfTwo

variable {value alignment : U64} {k : Nat}

theorem alignDown_toNat (hk : alignment.toNat = 2 ^ k) :
    (alignDown value alignment).toNat = value.toNat / 2 ^ k * 2 ^ k :=
  toNat_and_not_sub_one value alignment hk

theorem toNat_add_sub_one (hpos : 0 < alignment.toNat) :
    (value + alignment - 1).toNat = (value.toNat + (alignment.toNat - 1)) % 2 ^ 64 := by
  rw [BitVec.sub_eq_add_neg, BitVec.add_assoc, ← BitVec.sub_eq_add_neg, BitVec.toNat_add,
    toNat_sub_one _ hpos]

/-- Without wrapping, rounding up is the quotient rule on natural numbers. -/
theorem alignUp_toNat (hk : alignment.toNat = 2 ^ k)
    (hfit : value.toNat + 2 ^ k ≤ 2 ^ 64) :
    (alignUp value alignment).toNat = (value.toNat + (2 ^ k - 1)) / 2 ^ k * 2 ^ k := by
  have hpos : 0 < 2 ^ k := Nat.two_pow_pos k
  have hsum : (value + alignment - 1).toNat = value.toNat + (2 ^ k - 1) := by
    rw [toNat_add_sub_one (by omega), hk, Nat.mod_eq_of_lt (by omega)]
  rw [alignUp, toNat_and_not_sub_one _ alignment hk, hsum]

theorem dvd_alignUp (hk : alignment.toNat = 2 ^ k) :
    2 ^ k ∣ (alignUp value alignment).toNat := by
  rw [alignUp, toNat_and_not_sub_one _ alignment hk]
  exact Nat.dvd_mul_left _ _

theorem le_alignUp (hk : alignment.toNat = 2 ^ k)
    (hfit : value.toNat + 2 ^ k ≤ 2 ^ 64) :
    value.toNat ≤ (alignUp value alignment).toNat := by
  rw [alignUp_toNat hk hfit]
  have hpos : 0 < 2 ^ k := Nat.two_pow_pos k
  have hdiv := Nat.div_add_mod (value.toNat + (2 ^ k - 1)) (2 ^ k)
  have hmod := Nat.mod_lt (value.toNat + (2 ^ k - 1)) hpos
  rw [Nat.mul_comm] at hdiv
  omega

theorem alignUp_lt (hk : alignment.toNat = 2 ^ k)
    (hfit : value.toNat + 2 ^ k ≤ 2 ^ 64) :
    (alignUp value alignment).toNat < value.toNat + 2 ^ k := by
  rw [alignUp_toNat hk hfit]
  have hpos : 0 < 2 ^ k := Nat.two_pow_pos k
  have hle := Nat.div_mul_le_self (value.toNat + (2 ^ k - 1)) (2 ^ k)
  omega

/-- A multiple stays where it is. -/
theorem alignUp_of_dvd (hk : alignment.toNat = 2 ^ k) (hdvd : 2 ^ k ∣ value.toNat) :
    alignUp value alignment = value := by
  have hlt : 2 ^ k < 2 ^ 64 := hk ▸ alignment.isLt
  have hk64 : k ≤ 64 := ((Nat.pow_lt_pow_iff_right (by decide)).mp hlt).le
  have hpos : 0 < 2 ^ k := Nat.two_pow_pos k
  obtain ⟨q, hq⟩ := hdvd
  have hfit : value.toNat + 2 ^ k ≤ 2 ^ 64 := by
    obtain ⟨r, hr⟩ := Nat.pow_dvd_pow 2 hk64
    have hvalue := value.isLt
    rw [hr, hq] at hvalue ⊢
    have hqr : q < r := Nat.lt_of_mul_lt_mul_left hvalue
    rw [← Nat.mul_succ]
    exact Nat.mul_le_mul_left _ hqr
  have hrest : (2 ^ k - 1) / 2 ^ k = 0 := Nat.div_eq_of_lt (Nat.sub_lt hpos Nat.one_pos)
  apply BitVec.eq_of_toNat_eq
  rw [alignUp_toNat hk hfit, hq, Nat.mul_add_div hpos, hrest, Nat.add_zero, Nat.mul_comm]

end PowerOfTwo

def flipEndianness16 (num : U16) : U16 := (num >>> 8) ||| (num <<< 8)

def flipEndianness32 (num : U32) : U32 :=
  ((num >>> 24) &&& 0x000000FF) ||| ((num >>> 8) &&& 0x0000FF00) |||
    ((num <<< 8) &&& 0x00FF0000) ||| ((num <<< 24) &&& 0xFF000000)

def flipEndianness64 (num : U64) : U64 :=
  ((num >>> 56) &&& 0x00000000000000FF) ||| ((num >>> 40) &&& 0x000000000000FF00) |||
    ((num >>> 24) &&& 0x0000000000FF0000) ||| ((num >>> 8) &&& 0x00000000FF000000) |||
    ((num <<< 8) &&& 0x000000FF00000000) ||| ((num <<< 24) &&& 0x0000FF0000000000) |||
    ((num <<< 40) &&& 0x00FF000000000000) ||| ((num <<< 56) &&& 0xFF00000000000000)

/-- The union of a `u128` with sixteen bytes, its bytes taken in reverse. -/
def flipEndianness128 (num : U128) : U128 :=
  (List.range 16).foldl (fun dst i =>
    dst ||| ((num >>> (8 * (15 - i))) &&& 0xFF) <<< (8 * i)) 0

def readBigEndian16 (m : Mem) (ptr : U64) : U16 :=
  flipEndianness16 (BitVec.ofNat 16 (load m ptr 2))

def readBigEndian32 (m : Mem) (ptr : U64) : U32 :=
  flipEndianness32 (BitVec.ofNat 32 (load m ptr 4))

def readBigEndian64 (m : Mem) (ptr : U64) : U64 :=
  flipEndianness64 (BitVec.ofNat 64 (load m ptr 8))

def readBigEndian128 (m : Mem) (ptr : U64) : U128 :=
  flipEndianness128 (BitVec.ofNat 128 (load m ptr 16))

end Octiron
