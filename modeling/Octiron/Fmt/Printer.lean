import Octiron.Lib.Decimal
import Octiron.Types.Error
import Mathlib.Logic.Function.Basic

/-! `fmt/printer.h` on integers: the digits are produced backwards in a static
buffer and replayed through a sink. -/
namespace Octiron.Fmt

open Lib.Decimal

/-- What C++ leaves undefined in a call of the printer. -/
inductive Undefined where
  | nullCall
  | signedOverflow
  | bufferOverrun
  deriving DecidableEq, Repr

/-- `static char buffer[65]`, one for each unsigned type. -/
abbrev Buffer := Nat → Char

def bufferSize : Nat := 65

/-- `detail::put_char`, and what a call of a sink does to the buffer.  Only a sink
that prints a number of the same type does anything to it. -/
structure Machine (F : Type) where
  putChar : Option F
  sink : F → Char → Buffer → Buffer

/-- The calls of sinks so far, oldest first. -/
structure State (F : Type) where
  buffer : Buffer
  calls : List (F × Char) := []

/-- `fmt::initialize`. -/
def fmtInitialize {F : Type} (machine : Machine F) : Option F → Error × Machine F
  | none => (.ofCode .nullArgument, machine)
  | some fn => (.ofCode .success, { machine with putChar := some fn })

section Functions

variable {F : Type} (machine : Machine F) {w : Nat}

def call (fn : F) (c : Char) (st : State F) : State F :=
  { buffer := machine.sink fn c st.buffer, calls := st.calls ++ [(fn, c)] }

def digits (d : Nat) : Char := "0123456789ABCDEF".toList.getD d default

/-- The first loop, with `room` characters left in the buffer from `index` on. -/
def produce (base : BitVec w) : Nat → BitVec w → Buffer → Nat → Except Undefined (Buffer × Nat)
  | 0, num, buffer, index => if num = 0 then .ok (buffer, index) else .error .bufferOverrun
  | room + 1, num, buffer, index =>
    if num = 0 then .ok (buffer, index)
    else produce base room (num / base)
      (Function.update buffer index (digits (num % base).toNat)) (index + 1)

/-- The second loop, from `buffer[index - 1]` down. -/
def replay (fn : F) : Nat → State F → State F
  | 0, st => st
  | index + 1, st => replay fn index (call machine fn (st.buffer index) st)

def mBase : Nat := 10

/-- `printer<T>::print` for an unsigned `T` of `w` bits.  Zero does not go to `fn`. -/
def printUnsigned (fn : F) (value : BitVec w) (st : State F) : Except Undefined (State F) :=
  if value = 0 then
    match machine.putChar with
    | none => .error .nullCall
    | some putChar => .ok (call machine putChar '0' st)
  else do
    let (buffer, index) ← produce (BitVec.ofNat w mBase) bufferSize value st.buffer 0
    return replay machine fn index { st with buffer := buffer }

/-- `static_cast<std::make_unsigned<T>::type>(-value)`: the operand is promoted to
`int` first if its type is narrower. -/
def negate (value : BitVec w) : Except Undefined (BitVec w) :=
  let promoted := value.signExtend (max w 32)
  if promoted = BitVec.intMin (max w 32) then .error .signedOverflow
  else .ok ((-promoted).setWidth w)

/-- `printer<T>::print` for a signed `T` of `w` bits. -/
def printSigned (fn : F) (value : BitVec w) (st : State F) : Except Undefined (State F) :=
  if value.toInt < 0 then do
    let st := call machine fn '-' st
    let magnitude ← negate value
    printUnsigned machine fn magnitude st
  else printUnsigned machine fn value st

/-- A value of one of the integer types. -/
inductive Value where
  | unsigned {w : Nat} (hw : 8 ≤ w ∧ w ≤ 128) (value : BitVec w)
  | signed {w : Nat} (hw : 8 ≤ w ∧ w ≤ 64) (value : BitVec w)

def Value.toInt : Value → Int
  | .unsigned _ value => value.toNat
  | .signed _ value => value.toInt

def print (fn : F) : Value → State F → Except Undefined (State F)
  | .unsigned _ value, st => printUnsigned machine fn value st
  | .signed _ value, st => printSigned machine fn value st

/-- `printer<const char*>::print`; the terminator is one of the characters. -/
def printNullTerm (fn : F) : List Char → State F → Except Undefined (State F)
  | [], _ => .error .bufferOverrun
  | c :: str, st => if c = '\x00' then .ok st else printNullTerm fn str (call machine fn c st)

/-- `printer<hex<T>>::print` for an unsigned `T` of `w` bits.  The buffer is the one of
this instance of the template, and `num` is promoted to `int` if its type is narrower. -/
def printHex (fn : F) (value : BitVec w) (st : State F) : Except Undefined (State F) := do
  let st ← printNullTerm machine fn "0x\x00".toList st
  if value = 0 then return call machine fn '0' st
  else do
    let (buffer, index) ← produce (BitVec.ofNat (max w 32) 16) bufferSize
      (value.setWidth (max w 32)) st.buffer 0
    return replay machine fn index { st with buffer := buffer }

/-- `print_with_func`. -/
def printWithFunc (fn : F) : List Value → State F → Except Undefined (State F)
  | [], st => .ok st
  | arg :: args, st => do
    let st ← print machine fn arg st
    printWithFunc fn args st

/-- `println_with_func`. -/
def printlnWithFunc (fn : F) (args : List Value) (st : State F) : Except Undefined (State F) := do
  let st ← printWithFunc machine fn args st
  return call machine fn '\n' st

end Functions

end Octiron.Fmt
