import Octiron.Lib.Positional
import Mathlib.Tactic.IntervalCases

/-! Decimal numerals.  A number has exactly one without a leading zero, and reading it
gives the number back. -/
namespace Octiron.Lib.Decimal

open Octiron.Lib.Positional

/-- The value of a list of digits, the most significant one first. -/
def readDigits (ds : List Nat) : Nat := Nat.ofDigits 10 ds.reverse

/-- The numeral of a number, digit by digit. -/
structure IsDecimal (ds : List Nat) (n : Nat) : Prop where
  nonempty : ds ≠ []
  digits : ∀ d ∈ ds, d < 10
  noLeadingZero : ds.head? = some 0 → ds = [0]
  value : readDigits ds = n

def decimalDigits (n : Nat) : List Nat := if n = 0 then [0] else (Nat.digits 10 n).reverse

section Decimal

variable {ds : List Nat} {n : Nat}

theorem decimalDigits_of_pos (hn : n ≠ 0) : decimalDigits n = (Nat.digits 10 n).reverse := if_neg hn

/-- Numerals in base 10. -/
theorem isDecimal_iff_positional : IsDecimal ds n ↔ IsPositional 10 ds n :=
  ⟨fun h => ⟨h.nonempty, h.digits, h.noLeadingZero, h.value⟩,
    fun h => ⟨h.nonempty, h.digits, h.noLeadingZero, h.value⟩⟩

theorem isDecimal_decimalDigits (n : Nat) : IsDecimal (decimalDigits n) n :=
  isDecimal_iff_positional.mpr (isPositional_positional (by decide) n)

/-- There is no other. -/
theorem isDecimal_iff : IsDecimal ds n ↔ ds = decimalDigits n :=
  isDecimal_iff_positional.trans (isPositional_iff (by decide))

end Decimal

/-- The characters of the numeral, behind a minus sign if the number is negative. -/
def IsNumeral (text : List Char) (v : Int) : Prop :=
  ∃ ds, IsDecimal ds v.natAbs ∧ text = (if v < 0 then ['-'] else []) ++ ds.map Nat.digitChar

def numeral (v : Int) : List Char :=
  (if v < 0 then ['-'] else []) ++ (decimalDigits v.natAbs).map Nat.digitChar

theorem isNumeral_iff {text : List Char} {v : Int} : IsNumeral text v ↔ text = numeral v := by
  constructor
  · rintro ⟨ds, hds, rfl⟩
    rw [isDecimal_iff.mp hds, numeral]
  · rintro rfl
    exact ⟨_, isDecimal_decimalDigits _, rfl⟩

/-- The value of a digit character. -/
def digitOf (c : Char) : Nat := c.toNat - '0'.toNat

def readNumeral : List Char → Int
  | '-' :: text => -(readDigits (text.map digitOf) : Int)
  | text => readDigits (text.map digitOf)

section Numeral

variable {text : List Char} {v : Int} {d : Nat}

theorem digitOf_digitChar (hd : d < 10) : digitOf (Nat.digitChar d) = d := by
  interval_cases d <;> rfl

theorem digitChar_ne_minus (hd : d < 10) : Nat.digitChar d ≠ '-' := by
  interval_cases d <;> decide

theorem map_digitOf {ds : List Nat} (h : ∀ d ∈ ds, d < 10) :
    (ds.map Nat.digitChar).map digitOf = ds := by
  rw [List.map_map]
  refine (List.map_congr_left fun d hd => ?_).trans (List.map_id ds)
  exact digitOf_digitChar (h d hd)

theorem readNumeral_of_isNumeral (h : IsNumeral text v) : readNumeral text = v := by
  obtain ⟨ds, hds, rfl⟩ := h
  have hread := hds.value
  split
  · next hneg =>
    rw [List.singleton_append, readNumeral, map_digitOf hds.digits, hread]
    omega
  · next hpos =>
    rw [List.nil_append]
    cases ds with
    | nil => exact absurd rfl hds.nonempty
    | cons d rest =>
      have hminus := digitChar_ne_minus (hds.digits d List.mem_cons_self)
      rw [List.map_cons, readNumeral]
      · rw [← List.map_cons, map_digitOf hds.digits, hread]
        omega
      · exact fun _ hminus' => absurd (List.cons.inj hminus').1 hminus

end Numeral

end Octiron.Lib.Decimal
