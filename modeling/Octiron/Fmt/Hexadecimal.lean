import Octiron.Fmt.Numerals
import Octiron.Lib.Hexadecimal

/-! What a sink receives from `printer<hex<T>>`: the prefix, and then the digits out of a
static buffer of its own. -/
namespace Octiron.Fmt

open Lib.Positional Lib.Hexadecimal

section Digits

variable {w : Nat} {value : BitVec w}

theorem digits_eq_hexChar {d : Nat} (hd : d < 16) : digits d = hexChar d := by
  interval_cases d <;> rfl

theorem map_digits_hexadecimal {n : Nat} (hn : n ≠ 0) :
    (Nat.digits 16 n).map digits = (hexadecimal n).reverse := by
  rw [hexadecimal, positional_of_ne_zero hn, List.map_reverse, List.reverse_reverse]
  apply List.map_congr_left
  intro d hd
  exact digits_eq_hexChar (Nat.digits_lt_base (by decide) hd)

theorem hexBase_toNat (w : Nat) : (BitVec.ofNat (max w 32) 16).toNat = 16 := by
  have hpow : 2 ^ 32 ≤ 2 ^ max w 32 := Nat.pow_le_pow_right (by decide) (Nat.le_max_right w 32)
  exact Nat.mod_eq_of_lt (by omega)

theorem promoted_toNat : (value.setWidth (max w 32)).toNat = value.toNat :=
  BitVec.toNat_setWidth_of_le (Nat.le_max_left w 32)

/-- Sixteen of the 65 characters are enough. -/
theorem hexDigits_length_le (hw : w ≤ 64) : (Nat.digits 16 value.toNat).length ≤ bufferSize := by
  rw [bufferSize, Nat.digits_length_le_iff (by decide)]
  have hpow : 2 ^ w ≤ 2 ^ 64 := Nat.pow_le_pow_right (by decide) hw
  have hroom : 2 ^ 64 < 16 ^ 65 := by norm_num
  have hlt := value.isLt
  omega

end Digits

section Printing

variable {F : Type} (machine : Machine F) (fn : F)

/-- Once the prefix has been handed over. -/
def prefixed (st : State F) : State F := call machine fn 'x' (call machine fn '0' st)

/-- The call returns, having handed `fn`, and no other function anything, the prefix and
the numeral of `n`. -/
def DeliversHex (n : Nat) (st : State F) (result : Except Undefined (State F)) : Prop :=
  ∃ st' text, result = .ok st' ∧ st'.calls = st.calls ++ ("0x".toList ++ text).map (fn, ·) ∧
    IsHexadecimal text n ∧ readHexadecimal text = n

/-- The buffer with the digits in it, backwards. -/
def hexBuffer (n : Nat) (st : State F) : Buffer :=
  place (prefixed machine fn st).buffer 0 (hexadecimal n).reverse

end Printing

section Printing

variable {F : Type} {machine : Machine F} {fn : F} {st : State F} {w : Nat} {value : BitVec w}

theorem printNullTerm_prefix :
    printNullTerm machine fn "0x\x00".toList st = .ok (prefixed machine fn st) := rfl

theorem prefixed_calls : (prefixed machine fn st).calls = st.calls ++ "0x".toList.map (fn, ·) := by
  simp [prefixed, call]

theorem printHex_zero : printHex machine fn (0 : BitVec w) st =
    .ok (call machine fn '0' (prefixed machine fn st)) := by
  rw [printHex, printNullTerm_prefix]
  rfl

theorem printHex_of_ne_zero (hw : w ≤ 64) (hvalue : value ≠ 0) :
    printHex machine fn value st = .ok (replay machine fn (hexadecimal value.toNat).length
      { prefixed machine fn st with buffer := hexBuffer machine fn value.toNat st }) := by
  have hne : value.toNat ≠ 0 := (BitVec.toNat_pos_of_ne_zero hvalue).ne'
  have hlength : (hexadecimal value.toNat).length = (Nat.digits 16 value.toNat).length := by
    rw [← List.length_reverse, ← map_digits_hexadecimal hne, List.length_map]
  have hproduce := @produce_spec _ (BitVec.ofNat (max w 32) 16) (value.setWidth (max w 32))
    bufferSize (prefixed machine fn st).buffer 0
  rw [hexBase_toNat, promoted_toNat, map_digits_hexadecimal hne, ← hlength, Nat.zero_add] at hproduce
  have hroom : (hexadecimal value.toNat).length ≤ bufferSize := hlength ▸ hexDigits_length_le hw
  rw [printHex, printNullTerm_prefix]
  change (if value = 0 then _ else _) = _
  rw [if_neg hvalue, hproduce (by decide) hroom]
  rfl

theorem deliversHex_iff {n : Nat} {result : Except Undefined (State F)} :
    DeliversHex fn n st result ↔ ∃ st', result = .ok st' ∧
      st'.calls = (prefixed machine fn st).calls ++ (hexadecimal n).map (fn, ·) := by
  simp only [prefixed_calls, List.append_assoc, ← List.map_append]
  constructor
  · rintro ⟨st', text, hresult, hcalls, htext, -⟩
    rw [isHexadecimal_iff.mp htext] at hcalls
    exact ⟨st', hresult, hcalls⟩
  · rintro ⟨st', hresult, hcalls⟩
    have hnumeral : IsHexadecimal (hexadecimal n) n := isHexadecimal_iff.mpr rfl
    exact ⟨st', _, hresult, hcalls, hnumeral, readHexadecimal_of_isHexadecimal hnumeral⟩

theorem printHex_ne_overrun (hw : w ≤ 64) :
    printHex machine fn value st ≠ .error .bufferOverrun := by
  by_cases hvalue : value = 0
  · subst hvalue
    rw [printHex_zero]
    intro h
    cases h
  · simp [printHex_of_ne_zero hw hvalue]

theorem printHex_delivers (hw : w ≤ 64) :
    DeliversHex fn value.toNat st (printHex machine fn value st) ↔ value = 0 ∨
      Undisturbed machine fn (hexadecimal value.toNat) (hexBuffer machine fn value.toNat st) := by
  rw [@deliversHex_iff F machine]
  by_cases hvalue : value = 0
  · subst hvalue
    refine iff_of_true ⟨_, printHex_zero, ?_⟩ (.inl rfl)
    simp [call, hexadecimal, positional, hexChar]
  · rw [or_iff_right hvalue, ← replay_delivers_iff (printHex_of_ne_zero hw hvalue)]

/-- The digit buffer is never overrun, and the numeral is delivered exactly when the value
is zero or the sink leaves its digits in the buffer until their turn comes. -/
theorem printHex_delivers_iff (machine : Machine F) (fn : F) (hw : w ≤ 64) (value : BitVec w)
    (st : State F) : printHex machine fn value st ≠ .error .bufferOverrun ∧
      (DeliversHex fn value.toNat st (printHex machine fn value st) ↔ value = 0 ∨
        Undisturbed machine fn (hexadecimal value.toNat) (hexBuffer machine fn value.toNat st)) :=
  ⟨printHex_ne_overrun hw, printHex_delivers hw⟩

/-- Every sink that does not print a `hex` of the same type gets the numeral. -/
theorem printHex_delivers_of_inert (hinert : ∀ c buffer, machine.sink fn c buffer = buffer)
    (hw : w ≤ 64) : DeliversHex fn value.toNat st (printHex machine fn value st) := by
  rw [printHex_delivers hw]
  right
  apply undisturbed_of_inert hinert
  intro i c hc
  rw [hexBuffer, ← Nat.zero_add i]
  exact place_apply hc

end Printing

/-- The three sinks on the buffer of `hex`: one prints the code of each character. -/
def hexMachine : Machine Sink where
  putChar := some .console
  sink
    | .codes, c, buffer => place buffer 0 (hexadecimal c.toNat).reverse
    | _, _, buffer => buffer

theorem printHex_delivers_iff_console : DeliversHex .console 0xDEADBEEF freshState
    (printHex hexMachine .console (0xDEADBEEF : BitVec 64) freshState) :=
  (printHex_delivers_iff hexMachine .console (by decide) (0xDEADBEEF : BitVec 64) freshState).2.mpr
    (.inr (by decide))

/-- A sink that prints each code through the same buffer is handed digits of its own. -/
theorem printHex_not_delivers : ¬ DeliversHex .codes 0x7123 freshState
    (printHex hexMachine .codes (0x7123 : BitVec 32) freshState) := by
  intro h
  exact absurd ((printHex_delivers (by decide)).mp h) (by decide)

end Octiron.Fmt
