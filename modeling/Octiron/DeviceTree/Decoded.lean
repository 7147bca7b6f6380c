import Octiron.DeviceTree.Content
import Octiron.DeviceTree.Rows
import Octiron.DeviceTree.Strings

/-! What a rewritten property says, from the bytes of its value and whatever else its
decoder reads. -/
namespace Octiron.DeviceTree

open Lib.Word Lib.ByteMemory Exec Pmm

namespace Data

@[simp] theorem low32_setLow32 (data : Data) (v : U32) : (data.setLow32 v).low32 = v := by
  unfold low32 setLow32
  rw [BitVec.setWidth_or, BitVec.setWidth_and]
  simp

@[simp] theorem flag_setFlag (data : Data) (b : Bool) : (data.setFlag b).flag = b := by
  unfold flag setFlag
  rw [BitVec.setWidth_or, BitVec.setWidth_and]
  cases b <;> simp

@[simp] theorem low32_setStatus (data : Data) (value : DeviceStatus) (reason : StrView) :
    (data.setStatus value reason).low32 = value.val := low32_setLow32 data value.val

@[simp] theorem reason_setStatus (data : Data) (value : DeviceStatus) (reason : StrView) :
    (data.setStatus value reason).reason = reason := rfl

end Data

section Status

variable (m : Mem) (raw : ByteView)

/-- What the test for a reason compares: the bytes from the sixth one on, as many as
the whole value has. -/
def FailsWithReason : Prop := bytesFrom m (raw.data + 5) raw.size.toNat = literal "fail-"

instance : Decidable (FailsWithReason m raw) := inferInstanceAs (Decidable (_ = _))

def plainStatus (value : List U8) : Option DeviceStatus :=
  if value = literal "okay" then some .okay
  else if value = literal "disabled" then some .disabled
  else if value = literal "reserved" then some .reserved
  else if value = literal "fail" then some .fail
  else none

/-- The status of a value: where no text matches, the low half of its own address. -/
def statusContent : Content :=
  match plainStatus ((StrView.ofByteView raw).bytes m) with
  | some status => .status status.val []
  | none =>
    if FailsWithReason m raw then .status DeviceStatus.failWithReason.val (literal "fail-")
    else .status (raw.data.setWidth 32) []

theorem plainStatus_val {value : List U8} {status : DeviceStatus}
    (h : plainStatus value = some status) : status.val ≠ DeviceStatus.failWithReason.val := by
  unfold plainStatus at h
  split_ifs at h
  all_goals
    obtain rfl := Option.some.inj h
    decide

/-- What the comparisons store. -/
theorem rewriteStatus_eq (data : Data) :
    rewriteStatus m data =
      match plainStatus ((StrView.ofByteView data.raw).bytes m) with
      | some status => data.setStatus status ⟨0, 0⟩
      | none =>
        if FailsWithReason m data.raw then
          data.setStatus .failWithReason ((StrView.ofByteView data.raw).advance 5)
        else data := by
  have hreason : (((StrView.ofByteView data.raw).advance 5).bytes m = literal "fail-") =
      FailsWithReason m data.raw := rfl
  unfold rewriteStatus plainStatus
  simp only [compare_eq_zero, eq_comm (a := literal _), hreason]
  split_ifs <;> rfl

/-- The status member, read after the comparisons. -/
theorem rewriteStatus_content (name : StrView) :
    ({ Entry.ofRaw name raw with type := .status, data := rewriteStatus m (Data.ofRaw raw) } :
      Entry).content m = statusContent m raw := by
  unfold Entry.content statusContent
  rw [rewriteStatus_eq, show (Data.ofRaw raw).raw = raw by rfl]
  dsimp only
  cases hplain : plainStatus ((StrView.ofByteView raw).bytes m) with
  | some status =>
    dsimp only
    rw [Data.low32_setStatus, if_neg (plainStatus_val hplain)]
  | none =>
    dsimp only
    by_cases hfails : FailsWithReason m raw
    · rw [if_pos hfails, if_pos hfails, Data.low32_setStatus, if_pos rfl, Data.reason_setStatus]
      exact congrArg (Content.status _) hfails
    · rw [if_neg hfails, if_neg hfails]
      -- the length of the reason is a word of the union that `raw` does not reach
      split <;> rfl

end Status

/-- The properties that the second lap decodes. -/
def Keyword.IsRows (keyword : Keyword) : Prop :=
  keyword = .reg ∨ keyword = .ranges ∨ keyword = .busRanges

section FirstLap

variable {m : Mem} {hhdmBase : U64} {answers : Answers} {name : StrView} {raw : ByteView}
  {first prop' : Entry}

/-- What the first lap makes of a value; lists of strings are left out. -/
def firstContent (m : Mem) (raw : ByteView) : Option Keyword → Content
  | some .model | some .deviceType => .string ((StrView.ofByteView raw).bytes m)
  | some .phandle | some .addressCells | some .sizeCells | some .virtualReg
  | some .interruptParent | some .interruptCells => .integer (readBigEndian32 m raw.data)
  | some .status => statusContent m raw
  | some .dmaCoherent => .flag true
  | some .dmaNoncoherent => .flag false
  | some .interruptController => .present
  | _ => .raw ((StrView.ofByteView raw).bytes m)

theorem firstTurn_content (h : FirstTurn m hhdmBase answers (Entry.ofRaw name raw) first)
    (hcompatible : keywordOf m name ≠ some .compatible) :
    first.name = name ∧ first.content m = firstContent m raw (keywordOf m name) := by
  obtain ⟨cells, cells', bump, bump', err, hturn, -⟩ := h
  unfold rewriteFirst at hturn
  rw [show (Entry.ofRaw name raw).name = name by rfl] at hturn
  generalize keywordOf m name = keyword at *
  cases keyword with
  | none =>
    obtain ⟨-, rfl, -⟩ := ok_triple_inj hturn
    exact ⟨rfl, rfl⟩
  | some keyword =>
    cases keyword
    case compatible => exact absurd rfl hcompatible
    case status =>
      obtain ⟨-, rfl, -⟩ := ok_triple_inj hturn
      exact ⟨rfl, rewriteStatus_content m raw name⟩
    case phandle | virtualReg | interruptParent | interruptCells =>
      obtain ⟨-, rfl, -⟩ := ok_triple_inj hturn
      exact ⟨rfl, congrArg Content.integer (Data.low32_setLow32 _ _)⟩
    case addressCells | sizeCells =>
      dsimp only at hturn
      split at hturn
      all_goals
        obtain ⟨-, rfl, -⟩ := ok_triple_inj hturn
        exact ⟨rfl, congrArg Content.integer (Data.low32_setLow32 _ _)⟩
    case dmaCoherent | dmaNoncoherent =>
      obtain ⟨-, rfl, -⟩ := ok_triple_inj hturn
      exact ⟨rfl, congrArg Content.flag (Data.flag_setFlag _ _)⟩
    all_goals
      obtain ⟨-, rfl, -⟩ := ok_triple_inj hturn
      exact ⟨rfl, rfl⟩

/-- The first lap leaves what the second one decodes. -/
theorem firstTurn_rows {keyword : Keyword}
    (h : FirstTurn m hhdmBase answers (Entry.ofRaw name raw) first)
    (hkeyword : keywordOf m name = some keyword) (hrows : keyword.IsRows) :
    first = Entry.ofRaw name raw := by
  obtain ⟨cells, cells', bump, bump', err, hturn, -⟩ := h
  unfold rewriteFirst at hturn
  rw [show (Entry.ofRaw name raw).name = name by rfl, hkeyword] at hturn
  obtain rfl | rfl | rfl := hrows
  all_goals
    obtain ⟨-, hresult⟩ := ok_pair_inj hturn
    exact (Prod.mk.inj hresult).1.symm

theorem firstTurn_compatible (h : FirstTurn m hhdmBase answers (Entry.ofRaw name raw) first)
    (hkeyword : keywordOf m name = some .compatible) :
    ∃ bump bump', rewriteCompatible m hhdmBase answers bump (Entry.ofRaw name raw) =
      .ok (first, bump') := by
  obtain ⟨cells, cells', bump, bump', err, hturn, -⟩ := h
  unfold rewriteFirst at hturn
  rw [show (Entry.ofRaw name raw).name = name by rfl, hkeyword] at hturn
  obtain ⟨⟨prop, bump₁⟩, hrewrite, hturn⟩ := bind_eq_ok.mp hturn
  obtain ⟨-, hresult⟩ := Prod.mk.inj (pure_eq_ok.mp hturn)
  obtain ⟨rfl, -⟩ := Prod.mk.inj hresult
  exact ⟨bump, bump₁, hrewrite⟩

/-- The second lap leaves what it does not decode. -/
theorem secondTurn_other {parent : Option Cells} {own : Cells}
    (h : SecondTurn m hhdmBase answers parent own first prop')
    (hother : ∀ keyword, keywordOf m first.name = some keyword → ¬ keyword.IsRows) :
    prop' = first := by
  obtain ⟨bump, bump', hturn⟩ := h
  unfold rewriteSecond at hturn
  split at hturn
  · next hreg => exact absurd (.inl rfl) (hother _ hreg)
  · next hranges => exact absurd (.inr (.inl rfl)) (hother _ hranges)
  · next hranges => exact absurd (.inr (.inr rfl)) (hother _ hranges)
  · exact (ok_pair_inj hturn).1.symm

end FirstLap

section SecondLap

variable {m : Mem} {hhdmBase : U64} {answers : Answers} {parent : Option Cells} {own : Cells}
  {bump bump' : Bump.State} {prop prop' : Entry}

theorem toNat_cellBytes {cells : U32} (h : cells.toNat ≤ 3) :
    (cellBytes cells).toNat = 4 * cells.toNat := by
  obtain rfl | rfl | rfl | rfl := cells_cases h <;> rfl

theorem regWidth_eq {cells : Cells} (haddress : cells.address.toNat ≤ 3)
    (hsize : cells.size.toNat ≤ 2) :
    (cellBytes cells.address + cellBytes cells.size).setWidth 64 =
      BitVec.ofNat 64 (4 * cells.address.toNat + 4 * cells.size.toNat) := by
  apply BitVec.eq_of_toNat_eq
  rw [BitVec.toNat_setWidth, BitVec.toNat_add, toNat_cellBytes haddress,
    toNat_cellBytes (hsize.trans (by decide)), BitVec.toNat_ofNat]
  omega

/-- An exact division, back in natural numbers. -/
theorem mul_toNat_divide {size : U64} {w : Nat} (hw : w < 2 ^ 64)
    (hmod : (size % BitVec.ofNat 64 w == 0) = true) :
    w * (size / BitVec.ofNat 64 w).toNat = size.toNat := by
  have hzero : (size % BitVec.ofNat 64 w).toNat = 0 :=
    congrArg BitVec.toNat (beq_iff_eq.mp hmod)
  rw [BitVec.toNat_umod, toNat_ofNat_of_lt hw] at hzero
  rw [BitVec.toNat_udiv, toNat_ofNat_of_lt hw]
  exact Nat.mul_div_cancel' (Nat.dvd_of_mod_eq_zero hzero)

/-- What a completed `property_rewrite_reg` has checked and stored. -/
theorem propertyRewriteReg_eq_ok
    (h : propertyRewriteReg m hhdmBase answers parent bump prop = .ok (prop', bump')) :
    ∃ cells addressArray sizeArray n, parent = some cells ∧ cells.address.toNat ≤ 3 ∧
      cells.size.toNat ≤ 2 ∧ 0 < n ∧ 0 < 4 * cells.address.toNat + 4 * cells.size.toNat ∧
      (4 * cells.address.toNat + 4 * cells.size.toNat) * n = prop.data.raw.size.toNat ∧
      readRows (regRow m prop.data.raw.data cells addressArray sizeArray)
        (BitVec.ofNat 64 (4 * cells.address.toNat + 4 * cells.size.toNat)) n 0 = .ok prop'.pairs ∧
      ∀ memory, prop'.content memory = .pairs (BitVec.ofNat 64 n) prop'.pairs := by
  obtain ⟨cells, hparent, h⟩ := bind_eq_ok.mp h
  obtain ⟨nPairs, hdivide, h⟩ := bind_eq_ok.mp h
  obtain ⟨_, hpos, h⟩ := bind_eq_ok.mp h
  obtain ⟨_, hmod, h⟩ := bind_eq_ok.mp h
  obtain ⟨_, haddress, h⟩ := bind_eq_ok.mp h
  obtain ⟨_, hsize, h⟩ := bind_eq_ok.mp h
  obtain ⟨⟨addressArray, bump₁⟩, -, h⟩ := bind_eq_ok.mp h
  obtain ⟨⟨sizeArray, bump₂⟩, -, h⟩ := bind_eq_ok.mp h
  obtain ⟨-, -, h⟩ := bind_eq_ok.mp h
  obtain ⟨-, -, h⟩ := bind_eq_ok.mp h
  obtain ⟨pairs, hrows, h⟩ := bind_eq_ok.mp h
  obtain ⟨rfl, -⟩ := Prod.mk.inj (pure_eq_ok.mp h)
  have haddress : cells.address.toNat ≤ 3 := of_decide_eq_true (kassert_eq_ok.mp haddress)
  have hsize : cells.size.toNat ≤ 2 := of_decide_eq_true (kassert_eq_ok.mp hsize)
  have hmod := kassert_eq_ok.mp hmod
  have hpos : 0 < nPairs.toNat := of_decide_eq_true (kassert_eq_ok.mp hpos)
  obtain ⟨hwidth, rfl⟩ := divide_eq_ok.mp hdivide
  rw [regWidth_eq haddress hsize] at hmod hrows hwidth hpos
  have hparent : parent = some cells := by
    cases parent with
    | none => exact nomatch hparent
    | some p => rw [Except.ok.inj hparent]
  refine ⟨cells, addressArray, sizeArray, _, hparent, haddress, hsize, hpos, ?_,
    mul_toNat_divide (by omega) hmod, hrows, fun memory => ?_⟩
  · apply Nat.pos_of_ne_zero
    intro hzero
    exact hwidth (congrArg (BitVec.ofNat 64) hzero)
  · rw [BitVec.ofNat_toNat, BitVec.setWidth_eq, ← regWidth_eq haddress hsize]
    rfl

theorem rangesWidth_eq {address parentAddress size : U32} (haddress : address.toNat ≤ 3)
    (hparent : parentAddress.toNat ≤ 3) (hsize : size.toNat ≤ 2) :
    (cellBytes address + cellBytes parentAddress + cellBytes size).setWidth 64 =
      BitVec.ofNat 64 (4 * address.toNat + (4 * parentAddress.toNat + 4 * size.toNat)) := by
  apply BitVec.eq_of_toNat_eq
  rw [BitVec.toNat_setWidth, BitVec.toNat_add, BitVec.toNat_add, toNat_cellBytes haddress,
    toNat_cellBytes hparent, toNat_cellBytes (hsize.trans (by decide)), BitVec.toNat_ofNat]
  omega

/-- What a completed `property_rewrite_ranges` has checked and stored. -/
theorem propertyRewriteRanges_eq_ok
    (h : propertyRewriteRanges m hhdmBase answers parent own bump prop = .ok (prop', bump')) :
    (prop.data.raw.size = 0 ∧ ∀ memory, prop'.content memory = .triples 0 prop.triples) ∨
    ∃ p cbusAddressArray pbusAddressArray sizeArray n w, parent = some p ∧ own.size.toNat ≤ 2 ∧
      0 < n ∧ 0 < w ∧
      w = 4 * own.address.toNat + (4 * p.address.toNat + 4 * own.size.toNat) ∧
      w * n = prop.data.raw.size.toNat ∧
      readRows (rangeRow m prop.data.raw.data own p.address cbusAddressArray pbusAddressArray
        sizeArray) (BitVec.ofNat 64 w) n 0 = .ok prop'.triples ∧
      ∀ memory, prop'.content memory = .triples (BitVec.ofNat 64 n) prop'.triples := by
  unfold propertyRewriteRanges at h
  dsimp only at h
  split at h
  · next hempty =>
    obtain ⟨rfl, -⟩ := ok_pair_inj h
    exact .inl ⟨hempty, fun _ => rfl⟩
  obtain ⟨p, hparent, h⟩ := bind_eq_ok.mp h
  obtain ⟨nTrips, hdivide, h⟩ := bind_eq_ok.mp h
  obtain ⟨_, hpos, h⟩ := bind_eq_ok.mp h
  obtain ⟨_, hmod, h⟩ := bind_eq_ok.mp h
  obtain ⟨-, -, h⟩ := bind_eq_ok.mp h
  obtain ⟨_, hsize, h⟩ := bind_eq_ok.mp h
  obtain ⟨⟨cbusAddressArray, bump₁⟩, -, h⟩ := bind_eq_ok.mp h
  obtain ⟨⟨pbusAddressArray, bump₂⟩, -, h⟩ := bind_eq_ok.mp h
  obtain ⟨⟨sizeArray, bump₃⟩, -, h⟩ := bind_eq_ok.mp h
  obtain ⟨triples, hrows, h⟩ := bind_eq_ok.mp h
  obtain ⟨rfl, -⟩ := Prod.mk.inj (pure_eq_ok.mp h)
  have hsize : own.size.toNat ≤ 2 := of_decide_eq_true (kassert_eq_ok.mp hsize)
  have hmod := kassert_eq_ok.mp hmod
  have hpos : 0 < nTrips.toNat := of_decide_eq_true (kassert_eq_ok.mp hpos)
  obtain ⟨hwidth, rfl⟩ := divide_eq_ok.mp hdivide
  -- the first row has checked both address counts
  obtain ⟨row, hrow⟩ := readRows_row hrows hpos
  rw [show (0 : U64) + _ * BitVec.ofNat 64 0 = BitVec.ofNat 64 0 by
    rw [BitVec.mul_zero]; rfl] at hrow
  obtain ⟨-, haddress, hparentAddress⟩ := rangeRow_eq_ok hrow
  rw [rangesWidth_eq haddress.2 hparentAddress.2 hsize] at hmod hrows hwidth hpos
  have hparent : parent = some p := by
    cases parent with
    | none => exact nomatch hparent
    | some p => rw [Except.ok.inj hparent]
  refine .inr ⟨p, cbusAddressArray, pbusAddressArray, sizeArray, _, _, hparent, hsize, hpos, ?_,
    rfl, mul_toNat_divide (by omega) hmod, hrows, fun memory => ?_⟩
  · omega
  · rw [BitVec.ofNat_toNat, BitVec.setWidth_eq, ← rangesWidth_eq haddress.2 hparentAddress.2 hsize]
    rfl

end SecondLap

end Octiron.DeviceTree
