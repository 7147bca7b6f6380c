import Octiron.Lib.Word
import Mathlib.Order.Bounds.Defs

/-! Rounding a number to the multiples of another one, by division and by masking. -/
namespace Octiron.Lib.Rounding

section Multiples

variable {d v x y : Nat}

theorem isGreatest_div_mul (d v : Nat) : IsGreatest {x | d ∣ x ∧ x ≤ v} (v / d * d) := by
  constructor
  · exact ⟨Nat.dvd_mul_left d _, Nat.div_mul_le_self v d⟩
  · rintro x ⟨⟨q, rfl⟩, hx⟩
    cases d with
    | zero => simp
    | succ d =>
      rw [Nat.mul_comm] at hx ⊢
      exact Nat.mul_le_mul_right _ ((Nat.le_div_iff_mul_le (Nat.succ_pos d)).mpr hx)

theorem isLeast_ceil_mul (hd : 0 < d) (v : Nat) :
    IsLeast {x | d ∣ x ∧ v ≤ x} ((v + (d - 1)) / d * d) := by
  have hdiv := Nat.div_add_mod (v + (d - 1)) d
  have hmod := Nat.mod_lt (v + (d - 1)) hd
  rw [Nat.mul_comm] at hdiv
  constructor
  · exact ⟨Nat.dvd_mul_left d _, by omega⟩
  · rintro x ⟨⟨q, rfl⟩, hx⟩
    rw [Nat.mul_comm]
    apply Nat.mul_le_mul_left
    apply Nat.le_of_lt_succ
    rw [Nat.div_lt_iff_lt_mul hd, Nat.succ_mul, Nat.mul_comm]
    omega

/-- Two multiples are at least `d` apart. -/
theorem add_le_of_dvd (hx : d ∣ x) (hy : d ∣ y) (hlt : x < y) : x + d ≤ y := by
  have hle := Nat.le_of_dvd (Nat.sub_pos_of_lt hlt) (Nat.dvd_sub hy hx)
  omega

end Multiples

section Masks

variable {w : Nat} (x mask : BitVec w)

theorem toNat_and_not_add : (x &&& ~~~mask).toNat + (x &&& mask).toNat = x.toNat := by
  have hdisjoint : (x &&& ~~~mask) &&& (x &&& mask) = 0#w := by
    ext i hi
    cases hx : x[i] <;> cases hmask : mask[i] <;> simp [hx, hmask]
  rw [← BitVec.toNat_add_of_and_eq_zero hdisjoint, BitVec.add_eq_or_of_and_eq_zero _ _ hdisjoint]
  congr 1
  ext i hi
  cases hx : x[i] <;> cases hmask : mask[i] <;> simp [hx, hmask]

/-- Clearing the bits of a mask takes away no more than the mask. -/
theorem le_toNat_and_not_add : x.toNat ≤ (x &&& ~~~mask).toNat + mask.toNat := by
  have hsplit := toNat_and_not_add x mask
  have hmask : (x &&& mask).toNat ≤ mask.toNat := by
    rw [BitVec.toNat_and]
    exact Nat.and_le_right
  omega

theorem toNat_and_not_le : (x &&& ~~~mask).toNat ≤ x.toNat := by
  rw [BitVec.toNat_and]
  exact Nat.and_le_left

end Masks

end Octiron.Lib.Rounding
