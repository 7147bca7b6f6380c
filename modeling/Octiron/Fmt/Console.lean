import Octiron.Exec
import Octiron.Fmt.Hexadecimal
import Octiron.Types.Views

/-! `fmt/print.h` with `uart_putchar` for its function, which sends each character and
prints nothing itself.  Numbers, strings and views then arrive as their texts, one after the
other. -/
namespace Octiron.Fmt

open Lib.ByteMemory Lib.Decimal Lib.Hexadecimal

/-- The instances of `printer`.  Those of strings and views do not touch their buffer. -/
inductive Instance where
  | decimal (w : Nat)
  | hexadecimal (w : Nat)
  | string
  | view
  deriving DecidableEq

/-- The buffers, and what `uart_putchar` has sent, oldest first. -/
structure Console where
  buffers : Instance → Buffer := fun _ _ => '\x00'
  sent : List Char := []

def uartMachine : Machine Unit := { putChar := some (), sink := fun _ _ buffer => buffer }

def charOf (byte : U8) : Char := Char.ofNat byte.toNat

/-- `printer<str_view>::print`. -/
def printView {F : Type} (machine : Machine F) (m : Mem) (fn : F) (sv : StrView) (st : State F) :
    State F :=
  ((sv.bytes m).map charOf).foldl (fun st c => call machine fn c st) st

/-- An argument of `print`; a string is a literal, and its terminator is not written. -/
inductive Arg where
  | number (v : Value)
  | hex {w : Nat} (hw : w ≤ 64) (value : BitVec w)
  | string (text : String)
  | view (sv : StrView)

def Arg.u32 (value : U32) : Arg := .number (.unsigned (w := 32) (by decide) value)

def Arg.u64 (value : U64) : Arg := .number (.unsigned (w := 64) (by decide) value)

def Arg.hex32 (value : U32) : Arg := .hex (w := 32) (by decide) value

def Arg.buffer : Arg → Instance
  | .number (.unsigned (w := w) _ _) => .decimal w
  | .number (.signed (w := w) _ _) => .decimal w
  | .hex (w := w) _ _ => .hexadecimal w
  | .string _ => .string
  | .view _ => .view

section Model

variable (m : Mem)

/-- `printer<T>::print` for the type of the argument. -/
def Arg.print : Arg → State Unit → Except Undefined (State Unit)
  | .number v, st => Fmt.print uartMachine () v st
  | .hex _ value, st => printHex uartMachine () value st
  | .string text, st => printNullTerm uartMachine () (text.toList ++ ['\x00']) st
  | .view sv, st => .ok (printView uartMachine m () sv st)

/-- A call of `printer`, with the buffer of its instance. -/
def printArg (arg : Arg) (c : Console) : Exec Console :=
  match arg.print m ⟨c.buffers arg.buffer, c.sent.map ((), ·)⟩ with
  | .error _ => .error .unreachable
  | .ok st => .ok
    { buffers := Function.update c.buffers arg.buffer st.buffer, sent := st.calls.map Prod.snd }

def fmtPrint : List Arg → Console → Exec Console
  | [], c => .ok c
  | arg :: args, c => do
    let c ← printArg m arg c
    fmtPrint args c

def fmtPrintln (args : List Arg) (c : Console) : Exec Console := do
  let c ← fmtPrint m args c
  return { c with sent := c.sent ++ ['\n'] }

/-- What is printed of an argument. -/
def Arg.text : Arg → List Char
  | .number v => numeral v.toInt
  | .hex _ value => "0x".toList ++ hexadecimal value.toNat
  | .string text => text.toList.takeWhile (· != '\x00')
  | .view sv => (sv.bytes m).map charOf

def textOf (args : List Arg) : List Char := args.flatMap (Arg.text m)

end Model

/-- Every number has a negative. -/
def Arg.Printable : Arg → Prop
  | .number v => v.Negatable
  | _ => True

section Printable

variable {w : Nat}

@[simp] theorem printable_string (text : String) : (Arg.string text).Printable := trivial

@[simp] theorem printable_view (sv : StrView) : (Arg.view sv).Printable := trivial

@[simp] theorem printable_hex (hw : w ≤ 64) (value : BitVec w) : (Arg.hex hw value).Printable :=
  trivial

@[simp] theorem printable_unsigned (hw : 8 ≤ w ∧ w ≤ 128) (value : BitVec w) :
    (Arg.number (.unsigned hw value)).Printable := trivial

end Printable

/-- The code returns, and sends this text and nothing else. -/
def Prints (f : Console → Exec Console) (text : List Char) : Prop :=
  ∀ c, ∃ c', f c = .ok c' ∧ c'.sent = c.sent ++ text

section Prints

variable {f g : Console → Exec Console} {s t : List Char}

theorem prints_ok : Prints (fun c => .ok c) [] := fun c => ⟨c, rfl, (List.append_nil _).symm⟩

theorem Prints.bind (hf : Prints f s) (hg : Prints g t) : Prints (fun c => f c >>= g) (s ++ t) := by
  intro c
  obtain ⟨c₁, hc₁, hs⟩ := hf c
  obtain ⟨c₂, hc₂, ht⟩ := hg c₁
  refine ⟨c₂, ?_, by rw [ht, hs, List.append_assoc]⟩
  change f c >>= g = .ok c₂
  rw [hc₁]
  exact hc₂

end Prints

section Text

variable {m : Mem} {F : Type} {machine : Machine F} {fn : F} {st : State F}

theorem printNullTerm_calls (text : List Char) :
    ∃ st', printNullTerm machine fn (text ++ ['\x00']) st = .ok st' ∧
      st'.calls = st.calls ++ (text.takeWhile (· != '\x00')).map (fn, ·) := by
  induction text generalizing st with
  | nil => exact ⟨st, rfl, (List.append_nil _).symm⟩
  | cons c text ih =>
    by_cases hc : c = '\x00'
    · refine ⟨st, by rw [List.cons_append, printNullTerm, if_pos hc], ?_⟩
      rw [List.takeWhile_cons_of_neg (by simp [hc]), List.map_nil, List.append_nil]
    · obtain ⟨st', hprint, hcalls⟩ := @ih (call machine fn c st)
      refine ⟨st', by rw [List.cons_append, printNullTerm, if_neg hc, hprint], ?_⟩
      rw [hcalls, call, List.takeWhile_cons_of_pos (by simp [hc]), List.append_assoc]
      rfl

theorem printView_calls (sv : StrView) : (printView machine m fn sv st).calls =
    st.calls ++ ((sv.bytes m).map charOf).map (fn, ·) := by
  rw [printView]
  generalize (sv.bytes m).map charOf = text
  induction text generalizing st with
  | nil => exact (List.append_nil _).symm
  | cons c text ih =>
    rw [List.foldl_cons, ih, call, List.append_assoc]
    rfl

theorem print_calls {arg : Arg} (h : arg.Printable) (st : State Unit) :
    ∃ st', arg.print m st = .ok st' ∧ st'.calls = st.calls ++ (arg.text m).map ((), ·) := by
  cases arg with
  | number v =>
    obtain ⟨st', hprint, hcalls⟩ := @printWithFunc_calls _ uartMachine () st (fun _ _ => rfl) [v]
      fun v' hv' => List.mem_singleton.mp hv' ▸ h
    rw [List.flatMap_singleton] at hcalls
    refine ⟨st', ?_, hcalls⟩
    rw [printWithFunc] at hprint
    change Fmt.print uartMachine () v st >>= _ = _ at hprint
    cases hv : Fmt.print uartMachine () v st with
    | error undefined =>
      rw [hv] at hprint
      cases hprint
    | ok st₁ =>
      rw [hv] at hprint
      rw [Arg.print, hv]
      exact hprint
  | hex hw value =>
    obtain ⟨st', hprint, hcalls⟩ := (@deliversHex_iff _ uartMachine _ _ _ _).mp
      (@printHex_delivers_of_inert _ uartMachine () st _ value (fun _ _ => rfl) hw)
    refine ⟨st', hprint, hcalls.trans ?_⟩
    rw [prefixed_calls, List.append_assoc, ← List.map_append]
    rfl
  | string text => exact printNullTerm_calls text.toList
  | view sv => exact ⟨_, rfl, printView_calls sv⟩

theorem printArg_prints {arg : Arg} (h : arg.Printable) : Prints (printArg m arg) (arg.text m) := by
  intro c
  obtain ⟨st', hprint, hcalls⟩ :=
    print_calls (m := m) h ⟨c.buffers arg.buffer, c.sent.map ((), ·)⟩
  refine ⟨_, by rw [printArg, hprint], ?_⟩
  rw [hcalls, List.map_append, List.map_map, List.map_map]
  simp [Function.comp_def]

theorem fmtPrint_prints (m : Mem) (args : List Arg) (h : ∀ arg ∈ args, arg.Printable) :
    Prints (fmtPrint m args) (textOf m args) := by
  induction args with
  | nil => exact prints_ok
  | cons arg args ih =>
    exact (printArg_prints (h arg List.mem_cons_self)).bind
      (ih fun other hmem => h other (List.mem_cons_of_mem arg hmem))

theorem fmtPrintln_prints (m : Mem) (args : List Arg) (h : ∀ arg ∈ args, arg.Printable) :
    Prints (fmtPrintln m args) (textOf m args ++ ['\n']) :=
  (fmtPrint_prints m args h).bind fun _ => ⟨_, rfl, rfl⟩

end Text

end Octiron.Fmt
