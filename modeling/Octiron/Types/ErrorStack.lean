import Octiron.Types.Error

/-! When the packed word behaves as a stack of codes.  A push shifts by one bit,
so a code survives the next push only when the pushed code repeats its bits one
place higher. -/
namespace Octiron.ErrorStack

open Octiron.Error

/-- `error()` or `error(code)`, the object the pushes are made on. -/
def make : Option Code → Error
  | none => Error.empty
  | some code => Error.ofCode code.val

/-- The object after the first `n` pushes. -/
def after (start : Option Code) (pushed : List Code) (n : Nat) : Error :=
  (pushed.take n).foldl (fun e code => e.push code.val) (make start)

/-- The codes put on the stack by the constructor and `n` pushes, oldest first. -/
def codes (start : Option Code) (pushed : List Code) (n : Nat) : List Code :=
  start.toList ++ pushed.take n

/-- What a LIFO stack of codes owes its users along a sequence of pushes. -/
structure LifoLaw (start : Option Code) (pushed : List Code) : Prop where
  top_push : ∀ n (h : n < pushed.length),
    let e := (after start pushed n).push pushed[n].val
    e.top = pushed[n].val.val ∧ (e.isErr = true ↔ pushed[n].val ≠ .success) ∧
      e.str = errorStrings[pushed[n].val.val.toNat]?
  pop_reverse : ∀ n ≤ pushed.length, (codes start pushed n).length ≤ 8 →
    ∀ i (h : i < (codes start pushed n).reverse.length),
      (Error.pop^[i] (after start pushed n)).top = (codes start pushed n).reverse[i].val.val
  top_below_guard : ∀ n ≤ pushed.length,
    (after start pushed n).top < ErrorCode.errorCodeGuardValue.val

/-- Each code, doubled, is contained in the next one, and is exactly its upper
bits while the next code is among the first eight. -/
def Nested (all : List Code) : Prop :=
  ∀ k (h : k + 1 < all.length),
    if k + 1 < 8 then all[k + 1].val.val >>> 1 = all[k].val.val
    else (all[k].val.val <<< 1) ||| all[k + 1].val.val = all[k + 1].val.val

/-- The word holding the first `n` codes of a list, pushed on the empty stack. -/
def packed (all : List Code) (n : Nat) : Error :=
  (all.take n).foldl (fun e code => e.push code.val) Error.empty

theorem packed_succ (all : List Code) {n : Nat} (h : n < all.length) :
    packed all (n + 1) = (packed all n).push all[n].val := by
  unfold packed
  rw [List.take_succ_eq_append_getElem h, List.foldl_append]
  rfl

theorem packed_zero (all : List Code) : packed all 0 = Error.empty := rfl

/-- The constructor with a code is a push on the empty stack. -/
theorem ofCode_eq_push (code : ErrorCode) : Error.ofCode code = Error.empty.push code := by
  simp [Error.ofCode, Error.empty, Error.push]

theorem after_eq_packed (start : Option Code) (pushed : List Code) (n : Nat) :
    after start pushed n = packed (start.toList ++ pushed) (start.toList.length + n) := by
  unfold after packed
  rw [List.take_length_add_append, List.foldl_append]
  cases start with
  | none => rfl
  | some code => simp [make, ofCode_eq_push]

theorem codes_eq_take (start : Option Code) (pushed : List Code) (n : Nat) :
    codes start pushed n = (start.toList ++ pushed).take (start.toList.length + n) := by
  rw [codes, List.take_length_add_append]

section Bits

variable {a b : U8}

theorem doubled_or_eq_of_shift (h : b >>> 1 = a) : (a <<< 1) ||| b = b := by
  subst h
  apply BitVec.eq_of_getLsbD_eq
  intro i hi
  rw [BitVec.getLsbD_or, BitVec.getLsbD_shiftLeft, BitVec.getLsbD_ushiftRight]
  by_cases hzero : i < 1
  · simp [hzero]
  · rw [show 1 + (i - 1) = i by omega]
    cases b.getLsbD i <;> simp

/-- A code containing its predecessor doubled, whose upper bits are contained in
the predecessor, has exactly the predecessor as its upper bits. -/
theorem shift_eq_of_or (hdouble : (a <<< 1) ||| b = b) (hhalf : a ||| (b >>> 1) = a)
    (ha : a.toNat < 30) : b >>> 1 = a := by
  apply BitVec.eq_of_getLsbD_eq
  intro i hi
  have hup := congrArg (·.getLsbD (i + 1)) hdouble
  have hdown := congrArg (·.getLsbD i) hhalf
  simp only [BitVec.getLsbD_or, BitVec.getLsbD_shiftLeft, BitVec.getLsbD_ushiftRight,
    Nat.add_comm 1 i, Nat.add_sub_cancel] at hup hdown
  rw [BitVec.getLsbD_ushiftRight, Nat.add_comm]
  by_cases hlast : i + 1 < 8
  · simp only [hlast, decide_true, Bool.true_and, Nat.not_lt.mpr (Nat.le_add_left 1 i),
      decide_false, Bool.not_false] at hup
    cases hai : a.getLsbD i <;> cases hbi : b.getLsbD (i + 1) <;> simp_all
  · have hfalse : a.getLsbD i = false := by
      rw [BitVec.getLsbD]
      exact Nat.testBit_lt_two_pow (ha.trans_le
        ((show 30 ≤ 2 ^ 7 by decide).trans (Nat.pow_le_pow_right (by decide) (by omega))))
    rw [hfalse, BitVec.getLsbD_of_ge b (i + 1) (by omega)]

end Bits

theorem Nested.doubled {all : List Code} (h : Nested all) {k : Nat}
    (hk : k + 1 < all.length) :
    (all[k].val.val <<< 1) ||| all[k + 1].val.val = all[k + 1].val.val := by
  have hlink := h k hk
  split at hlink
  · exact doubled_or_eq_of_shift hlink
  · exact hlink

/-- Under the nesting condition the top is always the last code pushed. -/
theorem Nested.top_packed {all : List Code} (h : Nested all) {n : Nat}
    (hn : n < all.length) : (packed all (n + 1)).top = all[n].val.val := by
  induction n with
  | zero =>
    rw [packed_succ all hn, packed_zero, Error.top_push]
    simp [Error.empty, Error.top]
  | succ k ih =>
    rw [packed_succ all hn, Error.top_push, ih (by omega)]
    exact h.doubled hn

/-- While at most eight codes are packed, the whole word is the last one. -/
theorem Nested.stack_packed {all : List Code} (h : Nested all) {n : Nat}
    (hn : n < all.length) (height : n < 8) :
    (packed all (n + 1)).stack = all[n].val.val.setWidth 64 := by
  induction n with
  | zero =>
    rw [packed_succ all hn, packed_zero]
    simp [Error.empty, Error.push]
  | succ k ih =>
    have hlink := h k hn
    rw [if_pos height] at hlink
    have hdouble := doubled_or_eq_of_shift hlink
    have hsmall := all[k].val_lt
    rw [packed_succ all hn, Error.push, ih (by omega) (by omega), sizeofErrorCode]
    have hwide : (all[k].val.val.setWidth 64) <<< 1 = (all[k].val.val <<< 1).setWidth 64 := by
      apply BitVec.eq_of_toNat_eq
      simp only [BitVec.toNat_shiftLeft, BitVec.toNat_setWidth, Nat.shiftLeft_eq]
      omega
    rw [hwide, ← BitVec.setWidth_or, hdouble]

/-- Popping walks back through the upper bits, that is through the earlier codes. -/
theorem Nested.shift_eq {all : List Code} (h : Nested all) {n i : Nat}
    (hn : n < all.length) (height : n < 8) (hi : i ≤ n) :
    all[n].val.val >>> i = all[n - i].val.val := by
  induction i with
  | zero => simp
  | succ i ih =>
    have hlink := h (n - (i + 1)) (by omega)
    rw [if_pos (by omega)] at hlink
    rw [BitVec.shiftRight_add, ih (by omega)]
    simpa only [show n - (i + 1) + 1 = n - i by omega] using hlink

theorem stack_pop_iterate (e : Error) (i : Nat) : (Error.pop^[i] e).stack = e.stack >>> i := by
  induction i with
  | zero => simp
  | succ i ih =>
    rw [Function.iterate_succ_apply', Error.pop, ih, sizeofErrorCode, ← BitVec.shiftRight_add]

theorem top_of_stack_eq {e : Error} {c : U8} (h : e.stack = c.setWidth 64) (i : Nat) :
    (Error.pop^[i] e).top = c >>> i := by
  rw [top_eq_setWidth, stack_pop_iterate, h]
  apply BitVec.eq_of_toNat_eq
  have hc := c.isLt
  simp only [BitVec.toNat_setWidth, BitVec.toNat_ushiftRight]
  rw [Nat.mod_eq_of_lt (a := c.toNat) (by omega), Nat.mod_eq_of_lt]
  exact (Nat.shiftRight_le _ _).trans_lt hc

theorem val_eq_success {code : ErrorCode} (h : code.val = ErrorCode.success.val) :
    code = .success := ErrorCode.val_injective h

theorem isErr_iff_of_top {e : Error} {code : ErrorCode} (h : e.top = code.val) :
    e.isErr = true ↔ code ≠ .success := by
  unfold Error.isErr Error.isOk
  rw [h, Bool.not_eq_true', beq_eq_false_iff_ne]
  exact ⟨fun hne heq => hne (heq ▸ rfl), fun hne heq => hne (val_eq_success heq)⟩

section Law

variable {start : Option Code} {pushed : List Code}

theorem length_codes {n : Nat} (hn : n ≤ pushed.length) :
    (codes start pushed n).length = start.toList.length + n := by
  rw [codes, List.length_append, List.length_take, Nat.min_eq_left hn]

theorem reverse_codes_getElem {n i : Nat} (hn : n ≤ pushed.length)
    (hi : i < (codes start pushed n).reverse.length)
    (hlast : start.toList.length + n - 1 - i < (start.toList ++ pushed).length) :
    (codes start pushed n).reverse[i] =
      (start.toList ++ pushed)[start.toList.length + n - 1 - i] := by
  rw [List.length_reverse, length_codes hn] at hi
  rw [List.getElem_reverse]
  simp only [codes_eq_take, List.getElem_take, List.length_take, List.length_append]
  congr 1
  omega

theorem lifoLaw_of_nested (h : Nested (start.toList ++ pushed)) : LifoLaw start pushed := by
  have htop : ∀ n (hn : n < pushed.length),
      ((after start pushed n).push pushed[n].val).top = pushed[n].val.val := by
    intro n hn
    have hlen : start.toList.length + n < (start.toList ++ pushed).length := by
      rw [List.length_append]; omega
    have hget : (start.toList ++ pushed)[start.toList.length + n] = pushed[n] := by
      rw [List.getElem_append_right (by omega)]
      simp
    rw [after_eq_packed, ← hget, ← packed_succ _ hlen]
    exact h.top_packed hlen
  refine ⟨fun n hn => ?_, fun n hn hheight i hi => ?_, fun n hn => ?_⟩
  · exact ⟨htop n hn, isErr_iff_of_top (htop n hn), by rw [Error.str, htop n hn]⟩
  · have hlen := @length_codes start pushed _ hn
    have hi' : i < start.toList.length + n := by
      rw [List.length_reverse, hlen] at hi
      exact hi
    have hlast : start.toList.length + n - 1 < (start.toList ++ pushed).length := by
      rw [List.length_append]; omega
    have hstack := h.stack_packed hlast (by omega)
    rw [show start.toList.length + n - 1 + 1 = start.toList.length + n by omega,
      ← after_eq_packed] at hstack
    rw [reverse_codes_getElem hn hi, top_of_stack_eq hstack i,
      h.shift_eq hlast (by omega) (by omega)]
  · rw [after_eq_packed]
    rcases Nat.eq_zero_or_pos (start.toList.length + n) with hzero | hpos
    · rw [hzero, packed_zero]
      decide
    · have hlast : start.toList.length + n - 1 < (start.toList ++ pushed).length := by
        rw [List.length_append]; omega
      have htop := h.top_packed hlast
      rw [show start.toList.length + n - 1 + 1 = start.toList.length + n by omega] at htop
      rw [htop]
      exact ((start.toList ++ pushed)[start.toList.length + n - 1]).property

/-- Under the law the top of every prefix is its last code. -/
theorem LifoLaw.top_packed (h : LifoLaw start pushed) {m : Nat}
    (hm : m < (start.toList ++ pushed).length) :
    (packed (start.toList ++ pushed) (m + 1)).top =
      (start.toList ++ pushed)[m].val.val := by
  by_cases hfirst : m < start.toList.length
  · have hzero : m = 0 := by
      cases start with
      | none => simp at hfirst
      | some code => simpa using hfirst
    subst hzero
    rw [packed_succ _ hm, packed_zero, Error.top_push]
    simp [Error.empty, Error.top]
  · have hn : m - start.toList.length < pushed.length := by
      rw [List.length_append] at hm; omega
    have htop := (h.top_push (m - start.toList.length) hn).1
    have hget : (start.toList ++ pushed)[m] = pushed[m - start.toList.length] :=
      List.getElem_append_right (by omega)
    rw [packed_succ _ hm, hget, ← htop, after_eq_packed,
      show start.toList.length + (m - start.toList.length) = m by omega]

theorem nested_of_lifoLaw (h : LifoLaw start pushed) : Nested (start.toList ++ pushed) := by
  intro k hk
  have hlow := h.top_packed (m := k) (by omega)
  have hhigh := h.top_packed hk
  rw [packed_succ _ hk, Error.top_push, hlow] at hhigh
  split
  · rename_i height
    have hstart : start.toList.length ≤ 1 := by cases start <;> simp
    have hlen := hk
    rw [List.length_append] at hlen
    have hn : k + 2 - start.toList.length ≤ pushed.length := by omega
    have hcount := @length_codes start pushed _ hn
    have hpop := h.pop_reverse (k + 2 - start.toList.length) hn (by omega) 1
      (by rw [List.length_reverse]; omega)
    have hlast : start.toList.length + (k + 2 - start.toList.length) - 1 - 1 <
        (start.toList ++ pushed).length := by
      rw [List.length_append]
      omega
    rw [reverse_codes_getElem hn _ hlast, after_eq_packed] at hpop
    simp only [show start.toList.length + (k + 2 - start.toList.length) = k + 1 + 1 by omega,
      Function.iterate_one, packed_succ _ hk, Error.top_pop_push, hlow,
      Nat.add_sub_cancel] at hpop
    exact shift_eq_of_or hhigh hpop (Code.val_lt _)
  · exact hhigh

/-- The class is a LIFO stack exactly on the nested sequences of codes. -/
theorem lifoLaw_iff_nested (start : Option Code) (pushed : List Code) :
    LifoLaw start pushed ↔ Nested (start.toList ++ pushed) :=
  ⟨nested_of_lifoLaw, lifoLaw_of_nested⟩

end Law

/-- A failed page-table allocation reports `DYN_ARR_REALLOC_FAILURE`: the two
codes overlap to 23. -/
theorem not_lifoLaw_outOfMem_allocFailed :
    ¬ LifoLaw (some ⟨.pmmOutOfMem, by decide⟩) [⟨.pagingAllocFailed, by decide⟩] := by
  intro h
  exact absurd (h.top_push 0 (by decide)).1 (by decide)

end Octiron.ErrorStack
