import Octiron.Lib.Rounding
import Octiron.Types.Number

/-! `align_up` and `align_down` against the multiples of the alignment, up to the top of
the address space. -/
namespace Octiron

open Lib.Word Lib.Rounding

section PowerOfTwo

variable {value alignment : U64} {k : Nat}

theorem two_pow_dvd_top (hk : alignment.toNat = 2 ^ k) : 2 ^ k ∣ 2 ^ 64 := by
  have hlt : 2 ^ k < 2 ^ 64 := hk ▸ alignment.isLt
  exact Nat.pow_dvd_pow 2 ((Nat.pow_lt_pow_iff_right (by decide)).mp hlt).le

/-- A multiple is left between the value and the top exactly when the sum does not wrap. -/
theorem exists_multiple_iff (hk : alignment.toNat = 2 ^ k) :
    (∃ x < 2 ^ 64, alignment.toNat ∣ x ∧ value.toNat ≤ x) ↔ value.toNat + 2 ^ k ≤ 2 ^ 64 := by
  rw [hk]
  constructor
  · rintro ⟨x, hx, hdvd, hle⟩
    have hroom := add_le_of_dvd hdvd (two_pow_dvd_top hk) hx
    omega
  · intro hfit
    exact ⟨_, (alignUp value alignment).isLt, dvd_alignUp hk, le_alignUp hk hfit⟩

theorem alignUp_of_wrap (hk : alignment.toNat = 2 ^ k)
    (hwrap : 2 ^ 64 < value.toNat + 2 ^ k) : alignUp value alignment = 0 := by
  have hvalue := value.isLt
  have hpos : 0 < 2 ^ k := Nat.two_pow_pos k
  have halign : 2 ^ k < 2 ^ 64 := hk ▸ alignment.isLt
  have hsum : (value + alignment - 1).toNat < 2 ^ k := by
    rw [toNat_add_sub_one (hk ▸ hpos), hk, Nat.mod_eq_sub_mod (by omega),
      Nat.mod_eq_of_lt (by omega)]
    omega
  apply BitVec.eq_of_toNat_eq
  rw [alignUp, toNat_and_not_sub_one _ alignment hk, Nat.div_eq_of_lt hsum, Nat.zero_mul]
  rfl

theorem isGreatest_alignDown (hk : alignment.toNat = 2 ^ k) :
    IsGreatest {x | alignment.toNat ∣ x ∧ x ≤ value.toNat} (alignDown value alignment).toNat := by
  rw [alignDown_toNat hk, hk]
  exact isGreatest_div_mul _ _

theorem isLeast_alignUp (hk : alignment.toNat = 2 ^ k) (hfit : value.toNat + 2 ^ k ≤ 2 ^ 64) :
    IsLeast {x | alignment.toNat ∣ x ∧ value.toNat ≤ x} (alignUp value alignment).toNat := by
  rw [alignUp_toNat hk hfit, hk]
  exact isLeast_ceil_mul (Nat.two_pow_pos k) _

end PowerOfTwo

section AnyAlignment

variable {value alignment : U64}

/-- The mask takes away no more than was added, whatever its bits are. -/
theorem alignUp_bounds (hpos : alignment ≠ 0)
    (hfit : value.toNat + alignment.toNat - 1 < 2 ^ 64) :
    value.toNat ≤ (alignUp value alignment).toNat ∧
      (alignUp value alignment).toNat ≤ value.toNat + alignment.toNat - 1 := by
  have hne : 0 < alignment.toNat := BitVec.toNat_pos_of_ne_zero hpos
  have hsum : (value + alignment - 1).toNat = value.toNat + (alignment.toNat - 1) := by
    rw [toNat_add_sub_one hne, Nat.mod_eq_of_lt (by omega)]
  have hlow := le_toNat_and_not_add (value + alignment - 1) (alignment - 1)
  have hhigh := toNat_and_not_le (value + alignment - 1) (alignment - 1)
  rw [hsum, toNat_sub_one alignment hne] at hlow
  rw [hsum] at hhigh
  rw [alignUp]
  omega

end AnyAlignment

/-- To a power of two, the least multiple above and the greatest below, or zero where
there is none left; to any alignment, a number no more than the alignment further on. -/
theorem align_multiples (value alignment : U64) :
    (∀ k, alignment.toNat = 2 ^ k →
      IsGreatest {x | alignment.toNat ∣ x ∧ x ≤ value.toNat} (alignDown value alignment).toNat ∧
      ((∃ x < 2 ^ 64, alignment.toNat ∣ x ∧ value.toNat ≤ x) →
        IsLeast {x | alignment.toNat ∣ x ∧ value.toNat ≤ x} (alignUp value alignment).toNat) ∧
      ((¬ ∃ x < 2 ^ 64, alignment.toNat ∣ x ∧ value.toNat ≤ x) →
        alignUp value alignment = 0)) ∧
    (alignment ≠ 0 → value.toNat + alignment.toNat - 1 < 2 ^ 64 →
      value.toNat ≤ (alignUp value alignment).toNat ∧
      (alignUp value alignment).toNat ≤ value.toNat + alignment.toNat - 1) := by
  refine ⟨fun k hk => ⟨isGreatest_alignDown hk, fun hleft => ?_, fun hnone => ?_⟩, alignUp_bounds⟩
  · exact isLeast_alignUp hk ((exists_multiple_iff hk).mp hleft)
  · rw [exists_multiple_iff hk, Nat.not_le] at hnone
    exact alignUp_of_wrap hk hnone

/-- At an alignment of 8, at the top of the address space, and at the 12 of three cells. -/
theorem align_multiples_twelve :
    IsGreatest {x | (8 : U64).toNat ∣ x ∧ x ≤ (21 : U64).toNat} (alignDown 21 8).toNat ∧
      alignUp 0xFFFFFFFFFFFFFFFA 8 = 0 ∧
      (21 : U64).toNat ≤ (alignUp 21 12).toNat ∧ (alignUp 21 12).toNat ≤ 32 := by
  refine ⟨((align_multiples 21 8).1 3 rfl).1, ?_, (align_multiples 21 12).2 (by decide) (by decide)⟩
  apply ((align_multiples 0xFFFFFFFFFFFFFFFA 8).1 3 rfl).2.2
  rintro ⟨x, hx, hdvd, hle⟩
  change 8 ∣ x at hdvd
  change 18446744073709551610 ≤ x at hle
  omega

end Octiron
