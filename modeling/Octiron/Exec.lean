import Mathlib.Tactic.Common

/-! How a call of the kernel ends.  An assertion, a `todo` and a panic print and
then loop for ever, and a null dereference traps: page zero is never mapped and
no trap handler is installed.  A division by zero and `__builtin_unreachable` leave
nothing to say about what follows.  None of these calls returns. -/
namespace Octiron

inductive Stop where
  | assertion
  | todo
  | panic
  | nullDeref
  | divByZero
  | unreachable
  | endless
  deriving DecidableEq, Repr

abbrev Exec := Except Stop

namespace Exec

def kassert (condition : Bool) : Exec Unit :=
  if condition then .ok () else .error .assertion

/-- Every load or store through a pointer passes here first. -/
def deref (pointer : BitVec 64) : Exec Unit :=
  if pointer = 0 then .error .nullDeref else .ok ()

/-- A loop over `count` bytes passes there when it has a first turn. -/
def derefBytes (pointer count : BitVec 64) : Exec Unit :=
  if count = 0 then .ok () else deref pointer

/-- The operands of every division pass here. -/
def divide (dividend divisor : BitVec 64) : Exec (BitVec 64) :=
  if divisor = 0 then .error .divByZero else .ok (dividend / divisor)

@[simp] theorem kassert_true : kassert true = .ok () := rfl
@[simp] theorem kassert_false : kassert false = .error .assertion := rfl
@[simp] theorem deref_zero : deref 0 = .error .nullDeref := rfl

theorem deref_of_ne {pointer : BitVec 64} (h : pointer ≠ 0) : deref pointer = .ok () :=
  if_neg h

theorem kassert_eq_ok {condition : Bool} {u : Unit} :
    kassert condition = .ok u ↔ condition = true := by
  cases condition <;> simp

theorem deref_eq_ok {pointer : BitVec 64} {u : Unit} :
    deref pointer = .ok u ↔ pointer ≠ 0 := by
  unfold deref
  split <;> simp_all

theorem divide_eq_ok {dividend divisor quotient : BitVec 64} :
    divide dividend divisor = .ok quotient ↔ divisor ≠ 0 ∧ dividend / divisor = quotient := by
  unfold divide
  split <;> simp_all

@[simp] theorem ok_bind {α β : Type} (a : α) (f : α → Exec β) :
    (Except.ok a : Exec α) >>= f = f a := rfl

@[simp] theorem error_bind {α β : Type} (stop : Stop) (f : α → Exec β) :
    (Except.error stop : Exec α) >>= f = .error stop := rfl

theorem bind_eq_ok {α β : Type} {x : Exec α} {f : α → Exec β} {b : β} :
    x >>= f = .ok b ↔ ∃ a, x = .ok a ∧ f a = .ok b := by
  cases x with
  | error stop => simp [bind, Except.bind]
  | ok a => simp [bind, Except.bind]

theorem exists_ok {α : Type} {x : Exec α} (h : x.isOk = true) : ∃ a, x = .ok a := by
  cases x with
  | error stop => exact nomatch h
  | ok a => exact ⟨a, rfl⟩

theorem pure_eq_ok {α : Type} {a b : α} : (pure a : Exec α) = .ok b ↔ a = b := by
  simp [pure, Except.pure]

/-- Two calls that return the same return the same parts. -/
theorem ok_pair_inj {α β : Type} {a a' : α} {b b' : β}
    (h : (.ok (a, b) : Exec (α × β)) = .ok (a', b')) : a = a' ∧ b = b' :=
  Prod.mk.inj (Except.ok.inj h)

theorem ok_triple_inj {α β γ : Type} {a a' : α} {b b' : β} {c c' : γ}
    (h : (.ok (a, b, c) : Exec (α × β × γ)) = .ok (a', b', c')) : a = a' ∧ b = b' ∧ c = c' := by
  obtain ⟨hfirst, hrest⟩ := ok_pair_inj h
  exact ⟨hfirst, Prod.mk.inj hrest⟩

/-- Where a call stops at all, it is with one of these. -/
def StopsIn {α : Type} (stops : List Stop) (x : Exec α) : Prop :=
  ∀ stop, x = .error stop → stop ∈ stops

section StopsIn

variable {α β : Type} {stops : List Stop}

theorem stopsIn_ok (a : α) : StopsIn stops (.ok a : Exec α) := fun _ h => by cases h

theorem stopsIn_error {stop : Stop} (h : stop ∈ stops) : StopsIn stops (.error stop : Exec α) := by
  intro stop' h'
  obtain rfl := Except.error.inj h'
  exact h

theorem stopsIn_deref {pointer : BitVec 64} (h : .nullDeref ∈ stops) :
    StopsIn stops (deref pointer) := by
  unfold deref
  split
  · exact stopsIn_error h
  · exact stopsIn_ok ()

theorem StopsIn.bind {x : Exec α} {f : α → Exec β} (hx : StopsIn stops x)
    (hf : ∀ a, x = .ok a → StopsIn stops (f a)) : StopsIn stops (x >>= f) := by
  cases x with
  | error stop => exact stopsIn_error (hx stop rfl)
  | ok a => exact hf a rfl

theorem StopsIn.mono {stops' : List Stop} {x : Exec α} (h : StopsIn stops x)
    (hsub : stops ⊆ stops') : StopsIn stops' x := fun stop hstop => hsub (h stop hstop)

end StopsIn

end Exec
end Octiron
