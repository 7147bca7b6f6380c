import Octiron.Lib.Positional
import Mathlib.Tactic.IntervalCases

/-! Upper-case numerals in base 16, and how one is read back. -/
namespace Octiron.Lib.Hexadecimal

open Octiron.Lib.Positional

def hexChar (d : Nat) : Char :=
  if d < 10 then Char.ofNat ('0'.toNat + d) else Char.ofNat ('A'.toNat + (d - 10))

/-- The value of a digit character. -/
def hexValue (c : Char) : Nat :=
  if c ≤ '9' then c.toNat - '0'.toNat else c.toNat - 'A'.toNat + 10

/-- The characters of the numeral, none of them a leading zero. -/
def IsHexadecimal (text : List Char) (n : Nat) : Prop :=
  ∃ ds, IsPositional 16 ds n ∧ text = ds.map hexChar

def hexadecimal (n : Nat) : List Char := (positional 16 n).map hexChar

def readHexadecimal (text : List Char) : Nat := Nat.ofDigits 16 (text.map hexValue).reverse

section Hexadecimal

variable {text : List Char} {n d : Nat} {ds : List Nat}

theorem hexValue_hexChar (hd : d < 16) : hexValue (hexChar d) = d := by
  interval_cases d <;> rfl

theorem map_hexValue (h : ∀ d ∈ ds, d < 16) : (ds.map hexChar).map hexValue = ds := by
  rw [List.map_map]
  refine (List.map_congr_left fun d hd => ?_).trans (List.map_id ds)
  exact hexValue_hexChar (h d hd)

theorem isHexadecimal_iff : IsHexadecimal text n ↔ text = hexadecimal n := by
  constructor
  · rintro ⟨ds, hds, rfl⟩
    rw [(isPositional_iff (by decide)).mp hds, hexadecimal]
  · rintro rfl
    exact ⟨_, isPositional_positional (by decide) n, rfl⟩

theorem readHexadecimal_of_isHexadecimal (h : IsHexadecimal text n) : readHexadecimal text = n := by
  obtain ⟨ds, hds, rfl⟩ := h
  rw [readHexadecimal, map_hexValue hds.digits, hds.value]

end Hexadecimal

end Octiron.Lib.Hexadecimal
