import Octiron.Fmt.Printer
import Mathlib.Tactic.NormNum

/-! What a sink receives from the printer, character by character. -/
namespace Octiron.Fmt

open Lib.Decimal

/-- A buffer with `cs` written from `index` on. -/
def place (buffer : Buffer) (index : Nat) : List Char → Buffer
  | [] => buffer
  | c :: cs => place (Function.update buffer index c) (index + 1) cs

section Place

variable {buffer : Buffer} {index i : Nat} {cs : List Char} {c : Char}

theorem place_of_lt (hi : i < index) : place buffer index cs i = buffer i := by
  induction cs generalizing buffer index with
  | nil => rfl
  | cons d cs ih =>
    rw [place, ih (by omega), Function.update_of_ne (by omega)]

theorem place_apply (hc : cs[i]? = some c) : place buffer index cs (index + i) = c := by
  induction cs generalizing buffer index i with
  | nil => simp at hc
  | cons d cs ih =>
    rw [place]
    cases i with
    | zero =>
      rw [List.getElem?_cons_zero] at hc
      rw [place_of_lt (by omega), Nat.add_zero, Function.update_self]
      exact Option.some.inj hc
    | succ i =>
      rw [List.getElem?_cons_succ] at hc
      rw [show index + (i + 1) = index + 1 + i by omega, ih hc]

end Place

section Digits

variable {w : Nat} {base num : BitVec w} {room : Nat} {buffer : Buffer} {index : Nat}

theorem digits_eq {d : Nat} (hd : d < 10) : digits d = Nat.digitChar d := by
  interval_cases d <;> rfl

theorem produce_spec (hbase : 1 < base.toNat)
    (hroom : (Nat.digits base.toNat num.toNat).length ≤ room) :
    produce base room num buffer index =
      .ok (place buffer index ((Nat.digits base.toNat num.toNat).map digits),
        index + (Nat.digits base.toNat num.toNat).length) := by
  induction room generalizing num buffer index with
  | zero =>
    have hnil : Nat.digits base.toNat num.toNat = [] := List.length_eq_zero_iff.mp (by omega)
    have hnum : num = 0 := BitVec.eq_of_toNat_eq (Nat.digits_eq_nil_iff_eq_zero.mp hnil)
    rw [produce, if_pos hnum, hnil]
    rfl
  | succ room ih =>
    rw [produce]
    split
    · next hnum =>
      subst hnum
      simp [place]
    · next hnum =>
      have hpos : 0 < num.toNat := BitVec.toNat_pos_of_ne_zero hnum
      rw [Nat.digits_def' hbase hpos, List.length_cons] at hroom
      rw [ih (by rw [BitVec.toNat_udiv]; omega), Nat.digits_def' hbase hpos, BitVec.toNat_udiv,
        BitVec.toNat_umod, List.map_cons, place, List.length_cons, Nat.add_assoc, Nat.add_comm 1]

theorem mBase_toNat (hw : 8 ≤ w) : (BitVec.ofNat w mBase).toNat = 10 := by
  have hpow : 2 ^ 8 ≤ 2 ^ w := Nat.pow_le_pow_right (by decide) hw
  exact Nat.mod_eq_of_lt (by rw [mBase]; omega)

/-- The 65 characters are enough for the 128-bit type. -/
theorem digits_length_le (hw : w ≤ 128) : (Nat.digits 10 num.toNat).length ≤ bufferSize := by
  rw [bufferSize, Nat.digits_length_le_iff (by decide)]
  have hpow : 2 ^ w ≤ 2 ^ 128 := Nat.pow_le_pow_right (by decide) hw
  have hten : 2 ^ 128 < 10 ^ 65 := by norm_num
  have hlt := num.isLt
  omega

end Digits

section Replay

variable {F : Type} {machine : Machine F} {fn : F} {buffer : Buffer} {st : State F}

/-- When its turn comes, each character of `text` is still where it was put: the
calls of the sink before it have not overwritten it. -/
def Undisturbed (machine : Machine F) (fn : F) : List Char → Buffer → Prop
  | [], _ => True
  | c :: text, buffer =>
    buffer text.length = c ∧ Undisturbed machine fn text (machine.sink fn c buffer)

instance decidableUndisturbed (machine : Machine F) (fn : F) :
    ∀ text buffer, Decidable (Undisturbed machine fn text buffer)
  | [], _ => .isTrue trivial
  | _ :: text, _ =>
    have := decidableUndisturbed machine fn text
    inferInstanceAs (Decidable (_ ∧ _))

/-- A sink that leaves the buffer alone disturbs nothing. -/
theorem undisturbed_of_inert (hinert : ∀ c buffer, machine.sink fn c buffer = buffer)
    {text : List Char} (hplace : ∀ i c, text.reverse[i]? = some c → buffer i = c) :
    Undisturbed machine fn text buffer := by
  induction text with
  | nil => trivial
  | cons c text ih =>
    constructor
    · apply hplace
      simp
    · rw [hinert]
      apply ih
      intro i d hd
      apply hplace
      rw [List.reverse_cons, List.getElem?_append_left (List.getElem?_eq_some_iff.mp hd).1, hd]

/-- What the second loop hands to the sink. -/
def replayed (machine : Machine F) (fn : F) : Nat → Buffer → List Char
  | 0, _ => []
  | index + 1, buffer =>
    buffer index :: replayed machine fn index (machine.sink fn (buffer index) buffer)

theorem replay_calls (index : Nat) :
    (replay machine fn index st).calls =
      st.calls ++ (replayed machine fn index st.buffer).map (fn, ·) := by
  induction index generalizing st with
  | zero => simp [replay, replayed]
  | succ index ih => simp [replay, replayed, ih, call]

theorem replayed_eq_iff (text : List Char) :
    replayed machine fn text.length buffer = text ↔ Undisturbed machine fn text buffer := by
  induction text generalizing buffer with
  | nil => simp [replayed, Undisturbed]
  | cons c text ih =>
    rw [List.length_cons, replayed, Undisturbed, List.cons_eq_cons]
    constructor
    · rintro ⟨hc, hrest⟩
      rw [hc] at hrest
      exact ⟨hc, ih.mp hrest⟩
    · rintro ⟨hc, hrest⟩
      rw [hc]
      exact ⟨rfl, ih.mpr hrest⟩

theorem map_sink_inj {texts texts' : List Char} :
    texts.map (fn, ·) = texts'.map (fn, ·) ↔ texts = texts' :=
  (List.map_injective_iff.mpr fun _ _ h => (Prod.mk.inj h).2).eq_iff

/-- The replay delivers the text exactly where it finds it undisturbed. -/
theorem replay_delivers_iff {result : Except Undefined (State F)} {text : List Char}
    (hresult : result = .ok (replay machine fn text.length { st with buffer := buffer })) :
    (∃ st', result = .ok st' ∧ st'.calls = st.calls ++ text.map (fn, ·)) ↔
      Undisturbed machine fn text buffer := by
  subst hresult
  rw [← replayed_eq_iff]
  simp only [Except.ok.injEq, exists_eq_left', replay_calls, List.append_cancel_left_eq]
  exact map_sink_inj

end Replay

section Unsigned

variable {F : Type} {machine : Machine F} {fn : F} {w : Nat} {value : BitVec w} {st : State F}

/-- The digits of a number as characters, the most significant one first. -/
def digitText (n : Nat) : List Char := (decimalDigits n).map Nat.digitChar

theorem numeral_eq (v : Int) :
    numeral v = (if v < 0 then ['-'] else []) ++ digitText v.natAbs := rfl

theorem map_digits_eq {n : Nat} (hn : n ≠ 0) :
    (Nat.digits 10 n).map digits = (digitText n).reverse := by
  rw [digitText, decimalDigits_of_pos hn, List.map_reverse, List.reverse_reverse]
  apply List.map_congr_left
  intro d hd
  exact digits_eq (Nat.digits_lt_base (by decide) hd)

theorem printUnsigned_zero (hvalue : value.toNat = 0) {putChar : F}
    (hput : machine.putChar = some putChar) :
    printUnsigned machine fn value st = .ok (call machine putChar '0' st) := by
  obtain rfl : value = 0 := BitVec.eq_of_toNat_eq (by simpa using hvalue)
  rw [printUnsigned, if_pos rfl, hput]

theorem printUnsigned_zero_null (hvalue : value.toNat = 0) (hput : machine.putChar = none) :
    printUnsigned machine fn value st = .error .nullCall := by
  obtain rfl : value = 0 := BitVec.eq_of_toNat_eq (by simpa using hvalue)
  rw [printUnsigned, if_pos rfl, hput]

theorem printUnsigned_of_ne_zero (hw : 8 ≤ w ∧ w ≤ 128) (hvalue : value.toNat ≠ 0) :
    printUnsigned machine fn value st = .ok (replay machine fn (digitText value.toNat).length
      { st with buffer := place st.buffer 0 (digitText value.toNat).reverse }) := by
  have hne : value ≠ 0 := by
    rintro rfl
    exact hvalue (by simp)
  have hten := mBase_toNat hw.1
  have hlength : (digitText value.toNat).length = (Nat.digits 10 value.toNat).length := by
    rw [← List.length_reverse, ← map_digits_eq hvalue, List.length_map]
  have hproduce := @produce_spec w (BitVec.ofNat w mBase) value bufferSize st.buffer 0
  rw [hten, map_digits_eq hvalue, ← hlength, Nat.zero_add] at hproduce
  rw [printUnsigned, if_neg hne, hproduce (by decide) (hlength ▸ digits_length_le hw.2)]
  rfl

end Unsigned

section Signed

variable {w : Nat} {value : BitVec w}

theorem negate_of_ne (hw : 0 < w) (hvalue : 32 ≤ w → value ≠ BitVec.intMin w) :
    negate value = .ok (-value) := by
  have hwide : w ≤ max w 32 := Nat.le_max_left _ _
  have hback : (value.signExtend (max w 32)).setWidth w = value := by
    apply BitVec.eq_of_getLsbD_eq
    intro i hi
    rw [BitVec.getLsbD_setWidth, BitVec.getLsbD_signExtend]
    simp [hi, hi.trans_le hwide]
  rw [negate, if_neg, BitVec.setWidth_neg_of_le hwide, hback]
  intro hmin
  have hint := congrArg BitVec.toInt hmin
  rw [BitVec.toInt_signExtend_of_le hwide, BitVec.toInt_intMin_of_pos (by omega)] at hint
  have hle := BitVec.le_toInt value
  rcases Nat.lt_or_ge w 32 with hnarrow | hw32
  · have hpow : 2 ^ (w - 1) < 2 ^ (max w 32 - 1) :=
      Nat.pow_lt_pow_right (by decide) (by omega)
    have hpow' : (2 : Int) ^ (w - 1) < 2 ^ (max w 32 - 1) := by exact_mod_cast hpow
    omega
  · rw [Nat.max_eq_left hw32, ← BitVec.toInt_intMin_of_pos hw] at hint
    exact hvalue hw32 (BitVec.eq_of_toInt_eq hint)

theorem negate_intMin (hw : 32 ≤ w) : negate (BitVec.intMin w) = .error .signedOverflow := by
  have hmax : max w 32 = w := Nat.max_eq_left hw
  rw [negate, if_pos]
  rw [hmax, BitVec.signExtend_eq]

theorem toNat_neg_of_negative (h : value.toInt < 0) : (-value).toNat = value.toInt.natAbs := by
  have hlt := value.isLt
  rw [BitVec.toInt_eq_toNat_cond] at h ⊢
  rw [BitVec.toNat_neg]
  split at h
  · omega
  · next hcond =>
    rw [if_neg hcond, Nat.mod_eq_of_lt (by omega)]
    omega

theorem toNat_of_nonneg (h : ¬ value.toInt < 0) : value.toNat = value.toInt.natAbs := by
  have hlt := value.isLt
  rw [BitVec.toInt_eq_toNat_cond] at h ⊢
  split at h
  · next hcond =>
    rw [if_pos hcond]
    omega
  · omega

end Signed

/-- The minimum of a type at least as wide as `int` has no negative in it. -/
def Value.Negatable : Value → Prop
  | .unsigned _ _ => True
  | .signed (w := w) _ value => 32 ≤ w → value ≠ BitVec.intMin w

instance : ∀ v : Value, Decidable v.Negatable
  | .unsigned _ _ => .isTrue trivial
  | .signed _ _ => inferInstanceAs (Decidable (_ → _))

section Delivery

variable {F : Type} (machine : Machine F) (fn : F)

/-- The buffer with the digits of the value in it, backwards. -/
def Value.digitBuffer (v : Value) (old : Buffer) : Buffer :=
  place (if v.toInt < 0 then machine.sink fn '-' old else old) 0 (digitText v.toInt.natAbs).reverse

/-- The call returns, having handed `fn`, and no other function anything, the numeral
of `v`. -/
def Delivers (v : Int) (st : State F) (result : Except Undefined (State F)) : Prop :=
  ∃ st' text, result = .ok st' ∧ st'.calls = st.calls ++ text.map (fn, ·) ∧
    IsNumeral text v ∧ readNumeral text = v

/-- Zero has `detail::put_char` for a sink; the digits of another number must still be
in the buffer when their turn comes. -/
def Sound (v : Value) (old : Buffer) : Prop :=
  if v.toInt = 0 then machine.putChar = some fn
  else v.Negatable ∧ Undisturbed machine fn (digitText v.toInt.natAbs) (v.digitBuffer machine fn old)

instance [DecidableEq F] (v : Value) (old : Buffer) : Decidable (Sound machine fn v old) :=
  inferInstanceAs (Decidable (if v.toInt = 0 then machine.putChar = some fn
    else v.Negatable ∧
      Undisturbed machine fn (digitText v.toInt.natAbs) (v.digitBuffer machine fn old)))

end Delivery

section Delivery

variable {F : Type} {machine : Machine F} {fn : F} {st : State F}

theorem delivers_iff {v : Int} {result : Except Undefined (State F)} :
    Delivers fn v st result ↔
      ∃ st', result = .ok st' ∧ st'.calls = st.calls ++ (numeral v).map (fn, ·) := by
  constructor
  · rintro ⟨st', text, hresult, hcalls, htext, -⟩
    rw [isNumeral_iff.mp htext] at hcalls
    exact ⟨st', hresult, hcalls⟩
  · rintro ⟨st', hresult, hcalls⟩
    have hnumeral : IsNumeral (numeral v) v := isNumeral_iff.mpr rfl
    exact ⟨st', _, hresult, hcalls, hnumeral, readNumeral_of_isNumeral hnumeral⟩

theorem not_delivers_error {v : Int} {undefined : Undefined} :
    ¬ Delivers fn v st (.error undefined) := by
  rintro ⟨st', text, hresult, -⟩
  cases hresult

variable {w : Nat} {value : BitVec w}

theorem printUnsigned_delivers_zero (hvalue : value.toNat = 0) :
    Delivers fn 0 st (printUnsigned machine fn value st) ↔ machine.putChar = some fn := by
  rw [delivers_iff]
  cases hput : machine.putChar with
  | none =>
    rw [printUnsigned_zero_null hvalue hput]
    simp
  | some putChar =>
    rw [printUnsigned_zero hvalue hput]
    simp [call, numeral, decimalDigits, Nat.digitChar]

theorem printUnsigned_calls_iff (hw : 8 ≤ w ∧ w ≤ 128) (hvalue : value.toNat ≠ 0) :
    (∃ st', printUnsigned machine fn value st = .ok st' ∧
      st'.calls = st.calls ++ (digitText value.toNat).map (fn, ·)) ↔
    Undisturbed machine fn (digitText value.toNat)
      (place st.buffer 0 (digitText value.toNat).reverse) :=
  replay_delivers_iff (printUnsigned_of_ne_zero hw hvalue)

theorem printUnsigned_ne_overrun (hw : 8 ≤ w ∧ w ≤ 128) :
    printUnsigned machine fn value st ≠ .error .bufferOverrun := by
  by_cases hvalue : value.toNat = 0
  · cases hput : machine.putChar with
    | none => simp [printUnsigned_zero_null hvalue hput]
    | some putChar => simp [printUnsigned_zero hvalue hput]
  · simp [printUnsigned_of_ne_zero hw hvalue]

theorem printUnsigned_delivers (hw : 8 ≤ w ∧ w ≤ 128) (hvalue : value.toNat ≠ 0) :
    Delivers fn value.toNat st (printUnsigned machine fn value st) ↔
      Undisturbed machine fn (digitText value.toNat)
        (place st.buffer 0 (digitText value.toNat).reverse) := by
  rw [delivers_iff, ← printUnsigned_calls_iff hw hvalue, numeral_eq, if_neg (by omega),
    List.nil_append, Int.natAbs_natCast]

theorem printSigned_delivers_negative (hw : 8 ≤ w ∧ w ≤ 64) (hneg : value.toInt < 0) :
    Delivers fn value.toInt st (printSigned machine fn value st) ↔
      (32 ≤ w → value ≠ BitVec.intMin w) ∧
        Undisturbed machine fn (digitText value.toInt.natAbs)
          (place (machine.sink fn '-' st.buffer) 0 (digitText value.toInt.natAbs).reverse) := by
  rw [printSigned, if_pos hneg]
  by_cases hmin : 32 ≤ w → value ≠ BitVec.intMin w
  · have hmagnitude := toNat_neg_of_negative hneg
    have hcalls := @printUnsigned_calls_iff F machine fn (call machine fn '-' st) w (-value)
      ⟨hw.1, by omega⟩ (by omega)
    rw [hmagnitude] at hcalls
    rw [negate_of_ne (by omega) hmin, delivers_iff, numeral_eq, if_pos hneg]
    simp only [call, List.append_assoc, List.singleton_append, List.map_cons] at hcalls ⊢
    rw [and_iff_right hmin, ← hcalls]
    rfl
  · rw [Classical.not_imp, not_not] at hmin
    obtain ⟨hwide, rfl⟩ := hmin
    simp only [negate_intMin hwide]
    exact iff_of_false not_delivers_error fun h => h.1 hwide rfl

theorem printSigned_ne_overrun (hw : 8 ≤ w ∧ w ≤ 64) :
    printSigned machine fn value st ≠ .error .bufferOverrun := by
  have hw128 : 8 ≤ w ∧ w ≤ 128 := ⟨hw.1, by omega⟩
  unfold printSigned
  split
  · by_cases hmin : 32 ≤ w → value ≠ BitVec.intMin w
    · rw [negate_of_ne (by omega) hmin]
      exact printUnsigned_ne_overrun hw128
    · rw [Classical.not_imp, not_not] at hmin
      obtain ⟨hwide, rfl⟩ := hmin
      rw [negate_intMin hwide]
      exact nofun
  · exact printUnsigned_ne_overrun hw128

/-- An unsigned value, or a signed one that is not negative. -/
theorem printUnsigned_sound (hw : 8 ≤ w ∧ w ≤ 128) (v : Value) (hv : v.toInt = value.toNat)
    (hneg : v.Negatable) :
    Delivers fn v.toInt st (printUnsigned machine fn value st) ↔ Sound machine fn v st.buffer := by
  unfold Sound Value.digitBuffer
  rw [hv, Int.natAbs_natCast]
  by_cases hzero : value.toNat = 0
  · rw [if_pos (by omega), hzero]
    exact printUnsigned_delivers_zero hzero
  · rw [if_neg (by omega), if_neg (by omega), and_iff_right hneg]
    exact printUnsigned_delivers hw hzero

theorem print_ne_overrun (v : Value) : print machine fn v st ≠ .error .bufferOverrun := by
  cases v with
  | unsigned hw value => exact printUnsigned_ne_overrun hw
  | signed hw value => exact printSigned_ne_overrun hw

theorem print_delivers (v : Value) :
    Delivers fn v.toInt st (print machine fn v st) ↔ Sound machine fn v st.buffer := by
  cases v with
  | unsigned hw value => exact printUnsigned_sound hw (.unsigned hw value) rfl trivial
  | @signed w hw value =>
    by_cases hneg : value.toInt < 0
    · unfold Sound Value.digitBuffer
      rw [Value.toInt, if_neg (by omega), if_pos hneg]
      exact printSigned_delivers_negative hw hneg
    · have hvalue := toNat_of_nonneg hneg
      rw [print, printSigned, if_neg hneg]
      apply printUnsigned_sound ⟨hw.1, by omega⟩ (.signed hw value)
      · rw [Value.toInt, hvalue]
        omega
      · rintro - rfl
        rw [BitVec.toInt_intMin_of_pos (by omega)] at hneg
        have hpow : (0 : Int) < 2 ^ (w - 1) := by positivity
        omega

/-- The digit buffer is never overrun, and the numeral is delivered exactly under
`Sound`. -/
theorem print_delivers_iff (machine : Machine F) (fn : F) (v : Value) (st : State F) :
    print machine fn v st ≠ .error .bufferOverrun ∧
      (Delivers fn v.toInt st (print machine fn v st) ↔ Sound machine fn v st.buffer) :=
  ⟨print_ne_overrun v, print_delivers v⟩

/-- Once the console is given to `fmtInitialize`, a sequence of numbers printed to it
arrives as their numerals, in order. -/
theorem printWithFunc_calls (hinert : ∀ c buffer, machine.sink fn c buffer = buffer)
    (args : List Value) (hargs : ∀ v ∈ args, v.Negatable) :
    ∃ st', printWithFunc (fmtInitialize machine (some fn)).2 fn args st = .ok st' ∧
      st'.calls = st.calls ++ (args.flatMap (numeral ·.toInt)).map (fn, ·) := by
  induction args generalizing st with
  | nil => exact ⟨st, rfl, by simp⟩
  | cons arg args ih =>
    have hsound : Sound (fmtInitialize machine (some fn)).2 fn arg st.buffer := by
      unfold Sound
      split
      · rfl
      · have hinert' : ∀ c buffer, (fmtInitialize machine (some fn)).2.sink fn c buffer = buffer :=
          hinert
        refine ⟨hargs arg List.mem_cons_self, undisturbed_of_inert hinert' ?_⟩
        intro i c hc
        rw [Value.digitBuffer, ← Nat.zero_add i]
        exact place_apply hc
    obtain ⟨st₁, hprint, hcalls₁⟩ := delivers_iff.mp ((print_delivers arg).mpr hsound)
    obtain ⟨st₂, hrest, hcalls₂⟩ := @ih st₁ fun v hv => hargs v (List.mem_cons_of_mem _ hv)
    refine ⟨st₂, ?_, ?_⟩
    · rw [printWithFunc, hprint]
      exact hrest
    · rw [hcalls₂, hcalls₁, List.flatMap_cons, List.map_append, List.append_assoc]

theorem printlnWithFunc_calls (hinert : ∀ c buffer, machine.sink fn c buffer = buffer)
    (args : List Value) (hargs : ∀ v ∈ args, v.Negatable) :
    ∃ st', printlnWithFunc (fmtInitialize machine (some fn)).2 fn args st = .ok st' ∧
      st'.calls = st.calls ++ (args.flatMap (numeral ·.toInt) ++ ['\n']).map (fn, ·) := by
  obtain ⟨st', hprint, hcalls⟩ := @printWithFunc_calls F machine fn st hinert args hargs
  refine ⟨_, by rw [printlnWithFunc, hprint]; rfl, ?_⟩
  rw [call, hcalls, List.map_append, List.append_assoc]
  rfl

end Delivery

/-- Three functions: the console, a sink of the caller's and one that prints the
code of each character it is given. -/
inductive Sink where
  | console
  | caller
  | codes
  deriving DecidableEq

/-- The machine once `fmtInitialize` has been given the console. -/
def consoleMachine : Machine Sink where
  putChar := some .console
  sink
    | .codes, c, buffer => place buffer 0 (digitText c.toNat).reverse
    | _, _, buffer => buffer

def freshState : State Sink := { buffer := fun _ => '0' }

/-- Zero goes to the console, whatever the sink; the minimum of `int` has no negative;
and a sink that prints through the same buffer is handed its own digits. -/
theorem print_not_delivers :
    ¬ Delivers .caller 0 freshState
      (print consoleMachine .caller (.unsigned (w := 8) (by decide) 0) freshState) ∧
    ¬ Delivers .caller (-2147483648) freshState
      (print consoleMachine .caller (.signed (w := 32) (by decide) (BitVec.intMin 32)) freshState) ∧
    ¬ Delivers .codes 7123 freshState
      (print consoleMachine .codes (.unsigned (w := 32) (by decide) 7123) freshState) := by
  refine ⟨fun h => ?_, fun h => ?_, fun h => ?_⟩
  · exact absurd ((print_delivers _).mp h) (by decide)
  · exact absurd ((print_delivers _).mp h) (by decide)
  · exact absurd ((print_delivers _).mp h) (by decide)

end Octiron.Fmt
