import Octiron.DeviceTree.Locality

/-! The decoded status.  The view that is compared ends with the NUL of the value, so no
plain text ever equals it, and the view that is compared with `fail-` is as long as the
whole value but starts behind its fifth byte. -/
namespace Octiron.DeviceTree

open Lib.Word Lib.ByteMemory Exec Pmm

section Reads

variable (m : Mem)

/-- The bytes of a view that `compare` loads: as many as agree, and the next one. -/
def compareReads : List U8 → U64 → Nat → List U64
  | c :: text, ptr, n + 1 => ptr :: if c = m ptr then compareReads text (ptr + 1) n else []
  | _, _, _ => []

/-- The comparisons that `rewriteStatus` may make. -/
def statusComparisons (raw : ByteView) : List (List U8 × StrView) :=
  let statusString := StrView.ofByteView raw
  [(literal "okay", statusString), (literal "disabled", statusString),
    (literal "reserved", statusString), (literal "fail", statusString),
    (literal "fail-", statusString.advance 5)]

/-- One after the other, until one of them finds no difference. -/
def readsUntilEqual : List (List U8 × StrView) → List U64
  | [] => []
  | (text, view) :: rest => compareReads m text view.data view.size.toNat ++
      if view.compare m text = 0 then [] else readsUntilEqual rest

def statusReads (raw : ByteView) : List U64 := readsUntilEqual m (statusComparisons raw)

variable {m} {text t : List U8} {ptr : U64} {n : Nat}

/-- The result of a comparison depends on nothing else. -/
theorem compareBytes_congr_reads {m' : Mem} (h : ∀ a ∈ compareReads m text ptr n, m' a = m a) :
    compareBytes text (bytesFrom m' ptr n) = compareBytes text (bytesFrom m ptr n) := by
  induction text generalizing ptr n with
  | nil => cases n <;> simp [compareBytes, bytesFrom]
  | cons c text ih =>
    cases n with
    | zero => rfl
    | succ n =>
      have hhead : m' ptr = m ptr := h ptr List.mem_cons_self
      rw [bytesFrom_succ, bytesFrom_succ, compareBytes, compareBytes, hhead]
      by_cases hc : c = m ptr
      · rw [if_neg (not_not.mpr hc), if_neg (not_not.mpr hc)]
        apply ih
        intro a ha
        refine h a (List.mem_cons_of_mem _ ?_)
        rwa [if_pos hc]
      · rw [if_pos hc, if_pos hc]

/-- One comparison and, if it finds a difference, those that follow. -/
theorem readsUntilEqual_congr {m' : Mem} {view : StrView} {rest : List (List U8 × StrView)}
    (h : ∀ a ∈ readsUntilEqual m ((text, view) :: rest), m' a = m a) :
    view.compare m' text = view.compare m text ∧
      (¬ view.compare m text = 0 → ∀ a ∈ readsUntilEqual m rest, m' a = m a) := by
  constructor
  · exact compareBytes_congr_reads fun a ha => h a (List.mem_append_left _ ha)
  · intro hdifference a ha
    refine h a (List.mem_append_right _ ?_)
    rwa [if_neg hdifference]

/-- The decoded status depends on `statusReads` only. -/
theorem rewriteStatus_congr {m' : Mem} {raw : ByteView}
    (h : ∀ a ∈ statusReads m raw, m' a = m a) :
    rewriteStatus m' (Data.ofRaw raw) = rewriteStatus m (Data.ofRaw raw) := by
  have hraw : (Data.ofRaw raw).raw = raw := rfl
  obtain ⟨hokay, h⟩ := readsUntilEqual_congr h
  unfold rewriteStatus
  rw [hraw]
  dsimp only
  rw [hokay]
  split
  · rfl
  next hne =>
  obtain ⟨hdisabled, h⟩ := readsUntilEqual_congr (h hne)
  rw [hdisabled]
  split
  · rfl
  next hne =>
  obtain ⟨hreserved, h⟩ := readsUntilEqual_congr (h hne)
  rw [hreserved]
  split
  · rfl
  next hne =>
  obtain ⟨hfail, h⟩ := readsUntilEqual_congr (h hne)
  rw [hfail]
  split
  · rfl
  next hne =>
  obtain ⟨hreason, -⟩ := readsUntilEqual_congr (h hne)
  rw [hreason]

/-- Against a text without a NUL, no byte behind the next NUL is loaded. -/
theorem compareReads_within (hholds : Holds m ptr (t ++ [0])) (htext : 0 ∉ text) :
    ∀ a ∈ compareReads m text ptr n, ∃ k ≤ t.length, a = ptr + BitVec.ofNat 64 k := by
  induction text generalizing ptr t n with
  | nil => cases n <;> nofun
  | cons c text ih =>
    cases n with
    | zero => nofun
    | succ n =>
      intro a ha
      obtain ⟨hc, htext⟩ := not_or.mp (mt List.mem_cons.mpr htext)
      obtain rfl | ha := List.mem_cons.mp ha
      · exact ⟨0, Nat.zero_le _, (BitVec.add_zero _).symm⟩
      split at ha
      · next hequal =>
        cases t with
        | nil => exact absurd (hholds.1.symm.trans hequal.symm) hc
        | cons b t =>
          obtain ⟨k, hk, rfl⟩ := ih hholds.2 htext a ha
          exact ⟨k + 1, Nat.succ_le_succ hk, succ_offset ptr k⟩
      · cases ha

theorem mem_compareReads {c : U8} (hn : 0 < n) : ptr ∈ compareReads m (c :: text) ptr n := by
  obtain ⟨n, rfl⟩ := Nat.exists_eq_succ_of_ne_zero hn.ne'
  exact List.mem_cons_self

end Reads

section Status

variable (m : Mem)

/-- The status and the reason are those that the text stands for, and were found in the
value. -/
structure StatusExact (raw : ByteView) (s : List U8) (prop' : Entry) : Prop where
  type : prop'.type = .status
  okay : prop'.data.low32 = DeviceStatus.okay.val ↔ s = literal "okay"
  disabled : prop'.data.low32 = DeviceStatus.disabled.val ↔ s = literal "disabled"
  reserved : prop'.data.low32 = DeviceStatus.reserved.val ↔ s = literal "reserved"
  fail : prop'.data.low32 = DeviceStatus.fail.val ↔ s = literal "fail"
  failWithReason : ∀ r, (prop'.data.low32 = DeviceStatus.failWithReason.val ∧
    prop'.data.reason.bytes m = r) ↔ s = literal "fail-" ++ r
  inside : ∀ a ∈ statusReads m raw, Within a raw.data raw.size.toNat

/-- The low half of the value's own address happens to be the status of the text. -/
def StatusByChance (low : U32) (s : List U8) : Prop :=
  if s = literal "disabled" then low = DeviceStatus.disabled.val
  else if s = literal "reserved" then low = DeviceStatus.reserved.val
  else if s = literal "fail-" then low = DeviceStatus.failWithReason.val
  else ¬ literal "fail-" <+: s ∧ ∀ status : DeviceStatus, low ≠ status.val

variable {m} {raw : ByteView} {s : List U8}

/-- The terminator keeps every plain text from being found. -/
theorem compare_terminated {text : List U8} (hvalue : Denotes m raw.data raw.size (s ++ [0]))
    (hlen : (s ++ [0]).length < 2 ^ 64) (htext : 0 ∉ text) :
    ¬ (StrView.ofByteView raw).compare m text = 0 := by
  rw [compare_eq_zero, Denotes.bytes (s := StrView.ofByteView raw) hvalue hlen]
  rintro rfl
  exact htext (by simp)

theorem size_terminated (hvalue : Denotes m raw.data raw.size (s ++ [0]))
    (hlen : (s ++ [0]).length < 2 ^ 64) : raw.size.toNat = s.length + 1 := by
  rw [hvalue.1, toNat_ofNat_of_lt hlen, List.length_append]
  rfl

/-- All five comparisons are made. -/
theorem statusReads_eq (hvalue : Denotes m raw.data raw.size (s ++ [0]))
    (hlen : (s ++ [0]).length < 2 ^ 64) :
    statusReads m raw =
      compareReads m (literal "okay") raw.data raw.size.toNat ++
        (compareReads m (literal "disabled") raw.data raw.size.toNat ++
          (compareReads m (literal "reserved") raw.data raw.size.toNat ++
            (compareReads m (literal "fail") raw.data raw.size.toNat ++
              (compareReads m (literal "fail-") (raw.data + 5) raw.size.toNat ++ [])))) := by
  have hnot {text : List U8} (htext : 0 ∉ text) := compare_terminated hvalue hlen htext
  unfold statusReads statusComparisons readsUntilEqual
  rw [if_neg (hnot (by decide)), readsUntilEqual, if_neg (hnot (by decide)), readsUntilEqual,
    if_neg (hnot (by decide)), readsUntilEqual, if_neg (hnot (by decide)), readsUntilEqual,
    readsUntilEqual, ite_self]
  rfl

/-- With five bytes of text no read is behind the terminator. -/
theorem statusReads_within (hvalue : Denotes m raw.data raw.size (s ++ [0]))
    (hlen : (s ++ [0]).length < 2 ^ 64) (hlong : 5 ≤ s.length) :
    ∀ a ∈ statusReads m raw, ∃ k ≤ s.length, a = raw.data + BitVec.ofNat 64 k := by
  intro a ha
  rw [statusReads_eq hvalue hlen] at ha
  simp only [List.mem_append] at ha
  obtain ha | ha | ha | ha | ha | ha := ha
  · exact compareReads_within hvalue.2 (by decide) a ha
  · exact compareReads_within hvalue.2 (by decide) a ha
  · exact compareReads_within hvalue.2 (by decide) a ha
  · exact compareReads_within hvalue.2 (by decide) a ha
  · have hsplit : s ++ [0] = s.take 5 ++ (s.drop 5 ++ [0]) := by
      rw [← List.append_assoc, List.take_append_drop]
    have hbehind := hvalue.2
    rw [hsplit] at hbehind
    have hrest := (holds_append.mp hbehind).2
    rw [List.length_take, Nat.min_eq_left hlong] at hrest
    obtain ⟨k, hk, rfl⟩ := compareReads_within (t := s.drop 5) hrest (by decide) a ha
    rw [List.length_drop] at hk
    exact ⟨5 + k, by omega, add_ofNat_add _ 5 k⟩
  · cases ha

theorem statusReads_inside_iff (hvalue : Denotes m raw.data raw.size (s ++ [0]))
    (hlen : (s ++ [0]).length < 2 ^ 64) :
    (∀ a ∈ statusReads m raw, Within a raw.data raw.size.toNat) ↔ 5 ≤ s.length := by
  have hsize := size_terminated hvalue hlen
  have hlt : s.length + 1 < 2 ^ 64 := hsize ▸ raw.size.isLt
  constructor
  · intro hinside
    have hfifth := hinside (raw.data + BitVec.ofNat 64 5) (by
      rw [statusReads_eq hvalue hlen]
      simp only [List.mem_append]
      exact .inr (.inr (.inr (.inr (.inl (mem_compareReads (by omega)))))))
    rw [Within, add_ofNat_sub_self _ _ (by decide), hsize] at hfifth
    omega
  · intro hlong a ha
    obtain ⟨k, hk, rfl⟩ := statusReads_within hvalue hlen hlong a ha
    rw [Within, add_ofNat_sub_self _ _ (by omega), hsize]
    omega

/-- A value of six bytes or more keeps the words of its view. -/
theorem rewriteStatus_of_long (hvalue : Denotes m raw.data raw.size (s ++ [0]))
    (hlen : (s ++ [0]).length < 2 ^ 64) (hlong : 5 ≤ s.length) :
    rewriteStatus m (Data.ofRaw raw) = Data.ofRaw raw := by
  have hplain : plainStatus ((StrView.ofByteView raw).bytes m) = none := by
    rw [Denotes.bytes (s := StrView.ofByteView raw) hvalue hlen]
    have hne {text : List U8} (htext : 0 ∉ text) : ¬ s ++ [0] = text := by
      rintro rfl
      exact htext (by simp)
    unfold plainStatus
    rw [if_neg (hne (by decide)), if_neg (hne (by decide)), if_neg (hne (by decide)),
      if_neg (hne (by decide))]
  have hreason : ¬ FailsWithReason m raw := by
    intro hfails
    have hlength := congrArg List.length hfails
    rw [length_bytesFrom, size_terminated hvalue hlen] at hlength
    have hfive : (literal "fail-").length = 5 := rfl
    omega
  rw [rewriteStatus_eq, show (Data.ofRaw raw).raw = raw from rfl, hplain]
  exact if_neg hreason

/-- The five equivalences, for a number and no reason. -/
structure NumberExact (low : U32) (s : List U8) : Prop where
  okay : low = DeviceStatus.okay.val ↔ s = literal "okay"
  disabled : low = DeviceStatus.disabled.val ↔ s = literal "disabled"
  reserved : low = DeviceStatus.reserved.val ↔ s = literal "reserved"
  fail : low = DeviceStatus.fail.val ↔ s = literal "fail"
  failWithReason : ∀ r : List U8,
    (low = DeviceStatus.failWithReason.val ∧ [] = r) ↔ s = literal "fail-" ++ r

theorem ne_of_long {text : List U8} (hlong : 5 ≤ s.length) (htext : text.length < 5) : s ≠ text := by
  rintro rfl
  omega

theorem NumberExact.byChance {low : U32} (hlong : 5 ≤ s.length) (h : NumberExact low s) :
    StatusByChance low s := by
  unfold StatusByChance
  split
  · next hdisabled => exact h.disabled.mpr hdisabled
  split
  · next hreserved => exact h.reserved.mpr hreserved
  split
  · next hreason => exact ((h.failWithReason []).mpr (by rw [hreason, List.append_nil])).1
  next hdisabled hreserved hreason =>
  constructor
  · rintro ⟨r, hr⟩
    obtain ⟨-, rfl⟩ := (h.failWithReason r).mpr hr.symm
    exact hreason (by rw [← hr, List.append_nil])
  · intro status hlow
    cases status with
    | okay => exact ne_of_long hlong (by decide) (h.okay.mp hlow)
    | disabled => exact hdisabled (h.disabled.mp hlow)
    | reserved => exact hreserved (h.reserved.mp hlow)
    | fail => exact ne_of_long hlong (by decide) (h.fail.mp hlow)
    | failWithReason => exact hreason (by simpa using (h.failWithReason []).mp ⟨hlow, rfl⟩)

theorem StatusByChance.numberExact {low : U32} (hlong : 5 ≤ s.length) (h : StatusByChance low s) :
    NumberExact low s := by
  unfold StatusByChance at h
  split at h
  · next hdisabled =>
    rw [h, hdisabled]
    refine ⟨by decide, by decide, by decide, by decide, fun r => iff_of_false ?_ ?_⟩
    · exact fun hnumber => absurd hnumber.1 (by decide)
    · exact fun htext => absurd (List.cons.inj htext).1 (by decide)
  split at h
  · next hreserved =>
    rw [h, hreserved]
    refine ⟨by decide, by decide, by decide, by decide, fun r => iff_of_false ?_ ?_⟩
    · exact fun hnumber => absurd hnumber.1 (by decide)
    · exact fun htext => absurd (List.cons.inj htext).1 (by decide)
  split at h
  · next hreason =>
    rw [h, hreason]
    refine ⟨by decide, by decide, by decide, by decide, fun r => ?_⟩
    rw [and_iff_right rfl, List.self_eq_append_right, eq_comm]
  · next hdisabled hreserved hreason =>
    obtain ⟨hbegins, hlow⟩ := h
    exact {
      okay := iff_of_false (hlow .okay) (ne_of_long hlong (by decide))
      disabled := iff_of_false (hlow .disabled) hdisabled
      reserved := iff_of_false (hlow .reserved) hreserved
      fail := iff_of_false (hlow .fail) (ne_of_long hlong (by decide))
      failWithReason := fun r => iff_of_false (fun hnumber => hlow .failWithReason hnumber.1)
        fun htext => hbegins ⟨r, htext.symm⟩ }

/-- A decoded value is classified exactly when it is long enough and its address happens
to fit. -/
theorem statusExact_iff {name : StrView} (hvalue : Denotes m raw.data raw.size (s ++ [0]))
    (hlen : (s ++ [0]).length < 2 ^ 64) :
    StatusExact m raw s
        { Entry.ofRaw name raw with type := .status, data := rewriteStatus m (Data.ofRaw raw) } ↔
      5 ≤ s.length ∧ StatusByChance (raw.data.setWidth 32) s := by
  by_cases hlong : 5 ≤ s.length
  · rw [and_iff_right hlong, rewriteStatus_of_long hvalue hlen hlong]
    constructor
    · intro h
      exact NumberExact.byChance hlong ⟨h.okay, h.disabled, h.reserved, h.fail, h.failWithReason⟩
    · intro hchance
      have h := hchance.numberExact hlong
      exact ⟨rfl, h.okay, h.disabled, h.reserved, h.fail, h.failWithReason,
        (statusReads_inside_iff hvalue hlen).mpr hlong⟩
  · exact iff_of_false (fun h => hlong ((statusReads_inside_iff hvalue hlen).mp h.inside))
      fun h => hlong h.1

end Status

namespace Occurrence

variable {parent : Option Cells} {own : Cells} {name value s : List U8}

theorem status_decoded (x : Occurrence parent own name value)
    (h : keywordOfBytes name = some .status) :
    x.decoded = { Entry.ofRaw x.nameView x.raw with
      type := .status
      data := rewriteStatus x.memory (Data.ofRaw x.raw) } := by
  obtain ⟨first, ⟨cells, cells', bump, bump', err, hfirst, -⟩, hsecond⟩ := x.rewritten
  have hkeyword := x.keyword_eq.trans h
  unfold rewriteFirst at hfirst
  rw [show (Entry.ofRaw x.nameView x.raw).name = x.nameView from rfl, hkeyword] at hfirst
  cases hfirst
  refine secondTurn_other hsecond fun keyword hother hrows => ?_
  obtain rfl := Option.some.inj (hkeyword.symm.trans hother)
  exact absurd hrows (by rintro (hreg | hranges | hbus) <;> contradiction)

/-- After the pass a status is classified right only by the chance of its address. -/
theorem status_exact_iff (x : Occurrence parent own (literal "status") (s ++ [0])) :
    StatusExact x.memory x.raw s x.decoded ↔
      5 ≤ s.length ∧ StatusByChance (x.raw.data.setWidth 32) s := by
  rw [x.status_decoded (by decide)]
  exact statusExact_iff x.value_denotes x.value_length

section AtRoot

variable (value : List U8)

/-- The name `status` and a value behind it. -/
def statusMemory : Mem := ofBytes 0x1000 (literal "status" ++ value)

def statusView : ByteView := ⟨0x1006, BitVec.ofNat 64 value.length⟩

def statusRaw : Entry := Entry.ofRaw ⟨0x1000, 6⟩ (statusView value)

def statusDecoded : Entry :=
  { statusRaw value with
    type := .status
    data := rewriteStatus (statusMemory value) (Data.ofRaw (statusView value)) }

variable {value}

theorem statusMemory_holds (hlen : value.length < 2 ^ 32) :
    Holds (statusMemory value) 0x1000 (literal "status") ∧
      Holds (statusMemory value) 0x1006 value := by
  have hsix : (literal "status").length = 6 := rfl
  exact holds_append.mp (holds_ofBytes _ (by rw [List.length_append, hsix]; omega))

theorem statusAtRoot_completed (hlen : value.length < 2 ^ 32) (hhdmBase : U64) (answers : Answers)
    (bump : Bump.State) :
    recursivePropertyRewrite (statusMemory value) hhdmBase answers [statusRaw value] .none bump =
      .ok (.empty, .node ⟨2, 1⟩ [statusDecoded value] .none .none, bump) := by
  have hkeyword : keywordOf (statusMemory value) ⟨0x1000, 6⟩ = some .status := by
    rw [keywordOf_eq ⟨by decide, (statusMemory_holds hlen).1⟩ (by decide)]
    decide
  have hfirst : rewriteFirst (statusMemory value) hhdmBase answers ⟨2, 1⟩ bump (statusRaw value) =
      .ok (.empty, statusDecoded value, ⟨2, 1⟩, bump) := by
    rw [rewriteFirst, show (statusRaw value).name = ⟨0x1000, 6⟩ from rfl, hkeyword]
    rfl
  refine rewrite_of_turns hfirst ?_
  rw [rewriteSecond, show (statusDecoded value).name = ⟨0x1000, 6⟩ from rfl, hkeyword]

/-- The root's only property is a `status`. -/
def statusAtRoot (hlen : value.length < 2 ^ 32) : Occurrence none ⟨2, 1⟩ (literal "status") value where
  memory := statusMemory value
  hhdmBase := 0
  answers := fun _ => .granted 0
  bump := { headers := fun _ => ⟨0, 0, 0⟩ }
  properties := [statusRaw value]
  children := .none
  err := .empty
  nodes' := .node ⟨2, 1⟩ [statusDecoded value] .none .none
  bump' := { headers := fun _ => ⟨0, 0, 0⟩ }
  nameView := ⟨0x1000, 6⟩
  raw := statusView value
  decoded := statusDecoded value
  completed := statusAtRoot_completed hlen 0 _ _
  noError := Error.isErr_empty
  occurs := .here (List.mem_singleton.mpr rfl)
  name_denotes := ⟨by decide, (statusMemory_holds hlen).1⟩
  name_length := by decide
  value_denotes := ⟨rfl, (statusMemory_holds hlen).2⟩
  value_length := by omega

/-- A text that stands for nothing is taken for nothing. -/
theorem status_exact_iff_unknown :
    StatusExact (statusMemory (literal "unknown" ++ [0])) (statusView (literal "unknown" ++ [0]))
      (literal "unknown") (statusDecoded (literal "unknown" ++ [0])) := by
  have hlen : (literal "unknown" ++ [0]).length < 2 ^ 32 := by decide
  have hchance : StatusByChance 0x1006 (literal "unknown") := by
    unfold StatusByChance
    rw [if_neg (by decide), if_neg (by decide), if_neg (by decide)]
    refine ⟨by decide, fun status => ?_⟩
    cases status <;> decide
  exact (status_exact_iff (statusAtRoot hlen)).mpr ⟨by decide, hchance⟩

/-- `okay` is not found, and its comparison with `fail-` leaves the value. -/
theorem not_statusExact_okay :
    ¬ ∀ x : Occurrence none ⟨2, 1⟩ (literal "status") (literal "okay" ++ [0]),
      StatusExact x.memory x.raw (literal "okay") x.decoded := by
  intro hexact
  have hlen : (literal "okay" ++ [0]).length < 2 ^ 32 := by decide
  have hinside := (hexact (statusAtRoot hlen)).inside
  have hlong := (statusReads_inside_iff (s := literal "okay")
    (statusAtRoot hlen).value_denotes (by decide)).mp hinside
  exact absurd hlong (by decide)

end AtRoot

end Occurrence

end Octiron.DeviceTree
