import Mathlib.Tactic.Common
import Mathlib.Tactic.Ring

/-! Fixed-width words.  Masks and shifts by powers of two are read back as
quotients and remainders, and a wrapping byte range is read back as an interval
of natural numbers. -/
namespace Octiron.Lib.Word

theorem toNat_sub_one {w : Nat} (a : BitVec w) (hpos : 0 < a.toNat) :
    (a - 1).toNat = a.toNat - 1 := by
  have ha := a.isLt
  have hone : (1 : BitVec w).toNat = 1 := by
    simp [Nat.mod_eq_of_lt (show 1 < 2 ^ w by omega)]
  rw [BitVec.toNat_sub_of_le (by rw [BitVec.le_def, hone]; omega), hone]

theorem toNat_ofNat_of_lt {w n : Nat} (h : n < 2 ^ w) : (BitVec.ofNat w n).toNat = n := by
  rw [BitVec.toNat_ofNat, Nat.mod_eq_of_lt h]

/-- Clearing the low bits below a power of two rounds down to a multiple. -/
theorem toNat_and_not_sub_one {w : Nat} (x a : BitVec w) {k : Nat}
    (ha : a.toNat = 2 ^ k) :
    (x &&& ~~~(a - 1)).toNat = x.toNat / 2 ^ k * 2 ^ k := by
  have hk : 2 ^ k < 2 ^ w := ha ▸ a.isLt
  have hkw : k < w := (Nat.pow_lt_pow_iff_right (by decide)).mp hk
  have hone : (a - 1).toNat = 2 ^ k - 1 := by
    rw [toNat_sub_one a (ha ▸ Nat.two_pow_pos k), ha]
  rw [BitVec.toNat_and, BitVec.toNat_not, hone]
  apply Nat.eq_of_testBit_eq
  intro i
  have hpos : 0 < 2 ^ k := Nat.two_pow_pos k
  rw [Nat.testBit_and, show 2 ^ w - 1 - (2 ^ k - 1) = 2 ^ w - ((2 ^ k - 1) + 1) by omega,
    Nat.testBit_two_pow_sub_succ (by omega), Nat.testBit_two_pow_sub_one,
    Nat.testBit_mul_two_pow, Nat.testBit_div_two_pow]
  by_cases hi : k ≤ i
  · have hge : ¬ i < k := by omega
    simp only [hi, hge, decide_true, decide_false, Bool.not_false, Bool.true_and,
      Bool.and_true, Nat.sub_add_cancel hi]
    by_cases hiw : i < w
    · simp [hiw]
    · simp [hiw, Nat.testBit_lt_two_pow (x.isLt.trans_le
        (Nat.pow_le_pow_right (by decide) (Nat.le_of_not_lt hiw)))]
  · have hlt : i < k := by omega
    simp [hi, hlt]

/-- The usual single-bit test recognises the powers of two. -/
theorem exists_two_pow_of_and_sub_one {w : Nat} (a : BitVec w) (hpos : a ≠ 0)
    (htest : a &&& (a - 1) = 0) : ∃ k < w, a.toNat = 2 ^ k := by
  have hnat : 0 < a.toNat := BitVec.toNat_pos_of_ne_zero hpos
  have hand : a.toNat &&& (a.toNat - 1) = 0 := by
    have := congrArg BitVec.toNat htest
    rwa [BitVec.toNat_and, toNat_sub_one a hnat] at this
  obtain ⟨k, hk⟩ := (Nat.and_sub_one_eq_zero_iff_isPowerOfTwo hnat.ne').mp hand
  refine ⟨k, ?_, hk⟩
  exact (Nat.pow_lt_pow_iff_right (by decide)).mp (hk ▸ a.isLt)

/-- The address `x` is one of the `n` bytes starting at `a`, with wrapping. -/
def Within {w : Nat} (x a : BitVec w) (n : Nat) : Prop := (x - a).toNat < n

instance {w : Nat} (x a : BitVec w) (n : Nat) : Decidable (Within x a n) :=
  inferInstanceAs (Decidable (_ < _))

/-- A range that does not wrap is an interval of natural numbers. -/
theorem within_iff {w : Nat} {x a : BitVec w} {n : Nat} (hfit : a.toNat + n ≤ 2 ^ w) :
    Within x a n ↔ a.toNat ≤ x.toNat ∧ x.toNat < a.toNat + n := by
  unfold Within
  have hx := x.isLt
  have ha := a.isLt
  rw [BitVec.toNat_sub]
  by_cases hle : a.toNat ≤ x.toNat
  · rw [show 2 ^ w - a.toNat + x.toNat = (x.toNat - a.toNat) + 2 ^ w by omega,
      Nat.add_mod_right, Nat.mod_eq_of_lt (by omega)]
    omega
  · rw [Nat.mod_eq_of_lt (by omega)]
    omega

theorem toNat_add_ofNat {w : Nat} (a : BitVec w) (i : Nat) (hfit : a.toNat + i < 2 ^ w) :
    (a + BitVec.ofNat w i).toNat = a.toNat + i := by
  rw [BitVec.toNat_add, BitVec.toNat_ofNat, Nat.mod_eq_of_lt (a := i) (by omega),
    Nat.mod_eq_of_lt hfit]

/-- The byte `a + i` of a range is in another range exactly when its offset is. -/
theorem add_ofNat_sub_self {w : Nat} (a : BitVec w) (i : Nat) (hi : i < 2 ^ w) :
    (a + BitVec.ofNat w i - a).toNat = i := by
  rw [show a + BitVec.ofNat w i - a = BitVec.ofNat w i by
    rw [BitVec.add_comm, BitVec.add_sub_cancel], BitVec.toNat_ofNat, Nat.mod_eq_of_lt hi]

/-- A range grows by the byte right after it. -/
theorem within_succ {w : Nat} (x a : BitVec w) {n : Nat} (hn : n < 2 ^ w) :
    Within x a (n + 1) ↔ Within x a n ∨ x = a + BitVec.ofNat w n := by
  have hlast : x = a + BitVec.ofNat w n ↔ (x - a).toNat = n := by
    constructor
    · rintro rfl
      exact add_ofNat_sub_self a n hn
    · intro h
      rw [← h, BitVec.ofNat_toNat, BitVec.setWidth_eq, BitVec.add_comm, BitVec.sub_add_cancel]
  rw [hlast]
  unfold Within
  omega

end Octiron.Lib.Word
