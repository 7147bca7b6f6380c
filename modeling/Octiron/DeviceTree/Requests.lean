import Octiron.DeviceTree.Decoded

/-! What the decoders ask the bump allocator for, and what they decode when every
request gets an address.  The decoded values do not depend on the addresses. -/
namespace Octiron.DeviceTree

open Lib.Word Lib.ByteMemory Exec Pmm

/-- The requests, each a size and an alignment, are served one after the other: null
only for an empty request. -/
def Serves (hhdmBase : U64) (answers : Answers) : Bump.State → List (U64 × U64) → Prop
  | _, [] => True
  | bump, request :: rest =>
    ∃ array bump', Bump.allocAligned hhdmBase answers bump request.1 request.2 =
        .ok (array, bump') ∧
      (array = 0 → request.1 = 0 ∨ request.2 = 0) ∧ Serves hhdmBase answers bump' rest

section Checks

variable (parent : Option Cells) (cells : Cells) (raw : ByteView)

def regWidth (cells : Cells) : U64 := (cellBytes cells.address + cellBytes cells.size).setWidth 64

def rangesWidth (cells : Cells) (parentAddressCells : U32) : U64 :=
  (cellBytes cells.address + cellBytes parentAddressCells + cellBytes cells.size).setWidth 64

/-- What `property_rewrite_reg` does before it allocates: the parent's cell counts and
the number of pairs. -/
def regCheck : Exec (Cells × U64) := do
  let parent ← derefParent parent
  let nPairs ← divide raw.size (regWidth parent)
  kassert (nPairs > 0)
  kassert (raw.size % regWidth parent == 0)
  kassert (parent.address ≤ 3)
  kassert (parent.size ≤ 2)
  return (parent, nPairs)

/-- The same of `property_rewrite_ranges`, on a value that is not empty. -/
def rangesCheck : Exec (Cells × U64) := do
  let parent ← derefParent parent
  let nTrips ← divide raw.size (rangesWidth cells parent.address)
  kassert (nTrips > 0)
  kassert (raw.size % rangesWidth cells parent.address == 0)
  kassert (cells.address ≤ 3)
  kassert (cells.size ≤ 2)
  return (parent, nTrips)

/-- An array of `n` elements of so many cells. -/
def arrayRequest (cells : U32) (n : U64) : U64 × U64 :=
  ((cellBytes cells).setWidth 64 * n, (cellBytes cells).setWidth 64)

def regRequests : List (U64 × U64) :=
  match regCheck parent raw with
  | .ok (parent, nPairs) => [arrayRequest parent.address nPairs, arrayRequest parent.size nPairs]
  | .error _ => []

def rangesRequests : List (U64 × U64) :=
  if raw.size = 0 then []
  else match rangesCheck parent cells raw with
    | .ok (_, nTrips) => [arrayRequest cells.address nTrips, arrayRequest cells.address nTrips,
      arrayRequest cells.size nTrips]
    | .error _ => []

end Checks

section Decoders

variable (m : Mem)

def compatibleRequests (raw : ByteView) : List (U64 × U64) :=
  [(8 * BitVec.ofNat 64 (countStrings m raw + 1), 8)]

/-- A list of strings gets through: its array is not empty, and the splitting ends. -/
def Splits (raw : ByteView) : Prop :=
  8 * BitVec.ofNat 64 (countStrings m raw + 1) ≠ 0 ∧
    (splitStrings m raw (raw.size.toNat + 1) 0 0 fun _ => ⟨0, 0⟩).isOk = true

instance (raw : ByteView) : Decidable (Splits m raw) := inferInstanceAs (Decidable (_ ∧ _))

/-- The pairs of a `reg`, read as if every array lay at address one. -/
def regPairs (parent : Option Cells) (raw : ByteView) :
    Exec (U64 × List (Option U128 × Option U64)) := do
  let (parent, nPairs) ← regCheck parent raw
  let pairs ← readRows (regRow m raw.data parent 1 1) (regWidth parent) nPairs.toNat 0
  return (nPairs, pairs)

/-- The triples of a `ranges` that is not empty, in the same way. -/
def rangesTriples (parent : Option Cells) (cells : Cells) (raw : ByteView) :
    Exec (U64 × List (U64 × U64 × Option U64)) := do
  let (parent, nTrips) ← rangesCheck parent cells raw
  let triples ← readRows (rangeRow m raw.data cells parent.address 1 1 1)
    (rangesWidth cells parent.address) nTrips.toNat 0
  return (nTrips, triples)

end Decoders

section Served

variable {hhdmBase : U64} {answers : Answers} {bump : Bump.State} {request : U64 × U64}
  {rest : List (U64 × U64)}

/-- A served request got null exactly when it was empty. -/
theorem Serves.next (h : Serves hhdmBase answers bump (request :: rest)) :
    ∃ array bump', Bump.allocAligned hhdmBase answers bump request.1 request.2 =
        .ok (array, bump') ∧
      (array = 0 ↔ request.1 = 0 ∨ request.2 = 0) ∧ Serves hhdmBase answers bump' rest := by
  obtain ⟨array, bump', halloc, hnull, hrest⟩ := h
  refine ⟨array, bump', halloc, ⟨hnull, fun hempty => ?_⟩, hrest⟩
  rw [Bump.allocAligned, if_pos hempty] at halloc
  exact (ok_pair_inj halloc).1.symm

instance decidableServes : (bump : Bump.State) → (requests : List (U64 × U64)) →
    Decidable (Serves hhdmBase answers bump requests)
  | _, [] => isTrue trivial
  | bump, request :: rest =>
    match halloc : Bump.allocAligned hhdmBase answers bump request.1 request.2 with
    | .error _ => isFalse fun ⟨_, _, hok, _⟩ => by
      rw [halloc] at hok
      cases hok
    | .ok (array, bump') =>
      have := decidableServes bump' rest
      decidable_of_iff ((array = 0 → request.1 = 0 ∨ request.2 = 0) ∧
          Serves hhdmBase answers bump' rest)
        ⟨fun h => ⟨array, bump', halloc, h⟩, fun ⟨_, _, hok, h⟩ => by
          rw [halloc] at hok
          cases hok
          exact h⟩

end Served

section Arrays

variable {m : Mem} {array ptr data j : U64} {cells : Cells}

theorem deref_one : deref 1 = .ok () := deref_of_ne (by decide)

theorem regAddress_array {count : U32} (h : count ≠ 0 → array ≠ 0) :
    regAddress m array ptr count = regAddress m 1 ptr count := by
  unfold regAddress
  by_cases hzero : count = 0
  · rw [if_pos hzero, if_pos hzero]
  · rw [deref_of_ne (h hzero), deref_one]

theorem sizeElement_array {count : U32} (h : count ≠ 0 → array ≠ 0) :
    sizeElement m array ptr count = sizeElement m 1 ptr count := by
  unfold sizeElement
  by_cases hzero : count = 0
  · rw [if_pos hzero, if_pos hzero]
  · rw [deref_of_ne (h hzero), deref_one]

theorem rangeAddress_array {count : U32} (h : array ≠ 0) :
    rangeAddress m array ptr count = rangeAddress m 1 ptr count := by
  unfold rangeAddress
  rw [deref_of_ne h, deref_one]

/-- A row does not depend on where its arrays are. -/
theorem regRow_array {addressArray sizeArray : U64} (haddress : cells.address ≠ 0 → addressArray ≠ 0)
    (hsize : cells.size ≠ 0 → sizeArray ≠ 0) :
    regRow m data cells addressArray sizeArray = regRow m data cells 1 1 := by
  funext j
  unfold regRow
  rw [regAddress_array haddress]
  simp only [sizeElement_array hsize]

theorem rangeRow_array {parentAddressCells : U32} {cbusAddressArray pbusAddressArray sizeArray : U64}
    (hcbus : cbusAddressArray ≠ 0) (hpbus : pbusAddressArray ≠ 0)
    (hsize : cells.size ≠ 0 → sizeArray ≠ 0) :
    rangeRow m data cells parentAddressCells cbusAddressArray pbusAddressArray sizeArray =
      rangeRow m data cells parentAddressCells 1 1 1 := by
  funext j
  unfold rangeRow
  rw [rangeAddress_array hcbus]
  simp only [rangeAddress_array hpbus, sizeElement_array hsize]

/-- A loop whose first row does not end does not end. -/
theorem readRows_stops {ρ : Type} {row : U64 → Exec ρ} {width : U64} {n : Nat}
    (hrow : ∀ r, row 0 ≠ .ok r) (hn : 0 < n) : ∃ stop, readRows row width n 0 = .error stop := by
  obtain ⟨n, rfl⟩ := Nat.exists_eq_succ_of_ne_zero hn.ne'
  cases hfirst : row 0 with
  | error stop =>
    refine ⟨stop, ?_⟩
    rw [readRows, hfirst, error_bind]
  | ok r => exact absurd hfirst (hrow r)

end Arrays

section CheckResults

variable {parent : Option Cells} {cells p : Cells} {raw : ByteView} {n : U64}

/-- Asking for an array of nothing is asking for an array of elements without cells. -/
theorem arrayRequest_empty_iff {count : U32} (hcount : count.toNat ≤ 3) (hn : 0 < n.toNat)
    (hfit : 4 * count.toNat * n.toNat < 2 ^ 64) :
    (arrayRequest count n).1 = 0 ∨ (arrayRequest count n).2 = 0 ↔ count = 0 := by
  have halignment : (arrayRequest count n).2.toNat = 4 * count.toNat := by
    rw [arrayRequest, cellBytes_setWidth hcount]
    exact toNat_ofNat_of_lt (by omega)
  have hsize : (arrayRequest count n).1.toNat = 4 * count.toNat * n.toNat := by
    rw [arrayRequest, cellBytes_setWidth hcount, BitVec.toNat_mul, toNat_ofNat_of_lt (by omega),
      Nat.mod_eq_of_lt hfit]
  rw [← BitVec.toNat_inj, ← BitVec.toNat_inj, ← BitVec.toNat_inj, hsize, halignment]
  change _ = 0 ∨ _ = 0 ↔ count.toNat = 0
  rw [Nat.mul_eq_zero]
  omega

theorem regCheck_eq_ok (h : regCheck parent raw = .ok (cells, n)) :
    parent = some cells ∧ cells.address.toNat ≤ 3 ∧ cells.size.toNat ≤ 2 ∧ 0 < n.toNat ∧
      (4 * cells.address.toNat + 4 * cells.size.toNat) * n.toNat = raw.size.toNat := by
  obtain ⟨p, hparent, h⟩ := bind_eq_ok.mp h
  obtain ⟨nPairs, hdivide, h⟩ := bind_eq_ok.mp h
  obtain ⟨_, hpos, h⟩ := bind_eq_ok.mp h
  obtain ⟨_, hmod, h⟩ := bind_eq_ok.mp h
  obtain ⟨_, haddress, h⟩ := bind_eq_ok.mp h
  obtain ⟨_, hsize, h⟩ := bind_eq_ok.mp h
  obtain ⟨rfl, rfl⟩ := Prod.mk.inj (pure_eq_ok.mp h)
  have haddress : p.address.toNat ≤ 3 := of_decide_eq_true (kassert_eq_ok.mp haddress)
  have hsize : p.size.toNat ≤ 2 := of_decide_eq_true (kassert_eq_ok.mp hsize)
  have hmod := kassert_eq_ok.mp hmod
  obtain ⟨-, rfl⟩ := divide_eq_ok.mp hdivide
  rw [regWidth, regWidth_eq haddress hsize] at hmod hpos ⊢
  refine ⟨?_, haddress, hsize, of_decide_eq_true (kassert_eq_ok.mp hpos),
    mul_toNat_divide (by omega) hmod⟩
  cases parent with
  | none => cases hparent
  | some q => rw [Except.ok.inj hparent]

theorem rangesCheck_eq_ok (h : rangesCheck parent cells raw = .ok (p, n)) :
    parent = some p ∧ cells.address.toNat ≤ 3 ∧ cells.size.toNat ≤ 2 ∧ 0 < n.toNat ∧
      (p.address.toNat ≤ 3 →
        (4 * cells.address.toNat + (4 * p.address.toNat + 4 * cells.size.toNat)) * n.toNat =
          raw.size.toNat) := by
  obtain ⟨q, hparent, h⟩ := bind_eq_ok.mp h
  obtain ⟨nTrips, hdivide, h⟩ := bind_eq_ok.mp h
  obtain ⟨_, hpos, h⟩ := bind_eq_ok.mp h
  obtain ⟨_, hmod, h⟩ := bind_eq_ok.mp h
  obtain ⟨_, haddress, h⟩ := bind_eq_ok.mp h
  obtain ⟨_, hsize, h⟩ := bind_eq_ok.mp h
  obtain ⟨rfl, rfl⟩ := Prod.mk.inj (pure_eq_ok.mp h)
  have haddress : cells.address.toNat ≤ 3 := of_decide_eq_true (kassert_eq_ok.mp haddress)
  have hsize : cells.size.toNat ≤ 2 := of_decide_eq_true (kassert_eq_ok.mp hsize)
  have hmod := kassert_eq_ok.mp hmod
  obtain ⟨-, rfl⟩ := divide_eq_ok.mp hdivide
  refine ⟨?_, haddress, hsize, of_decide_eq_true (kassert_eq_ok.mp hpos), fun hp => ?_⟩
  · cases parent with
    | none => cases hparent
    | some r => rw [Except.ok.inj hparent]
  · rw [rangesWidth, rangesWidth_eq haddress hp hsize] at hmod ⊢
    exact mul_toNat_divide (by omega) hmod

end CheckResults

section Turns

variable {m : Mem} {hhdmBase : U64} {answers : Answers} {parent : Option Cells} {own : Cells}
  {bump : Bump.State} {prop : Entry}

theorem propertyRewriteReg_eq : propertyRewriteReg m hhdmBase answers parent bump prop = do
    let (parent, nPairs) ← regCheck parent prop.data.raw
    let (addressArray, bump) ← Bump.allocAligned hhdmBase answers bump
      (arrayRequest parent.address nPairs).1 (arrayRequest parent.address nPairs).2
    let (sizeArray, bump) ← Bump.allocAligned hhdmBase answers bump
      (arrayRequest parent.size nPairs).1 (arrayRequest parent.size nPairs).2
    kassert (if cellBytes parent.address = 0 then addressArray == 0 else addressArray != 0)
    kassert (if cellBytes parent.size = 0 then sizeArray == 0 else sizeArray != 0)
    let pairs ← readRows (regRow m prop.data.raw.data parent addressArray sizeArray)
      (regWidth parent) nPairs.toNat 0
    return ({ prop with
      type := .reg
      data := { prop.data with word0 := nPairs, word1 := addressArray, word2 := sizeArray }
      pairs := pairs }, bump) := by
  unfold propertyRewriteReg regCheck
  simp only [bind_assoc, pure_bind]
  rfl

theorem cellBytes_eq_zero {count : U32} (h : count.toNat ≤ 3) : cellBytes count = 0 ↔ count = 0 := by
  rw [← BitVec.toNat_inj, ← BitVec.toNat_inj, toNat_cellBytes h]
  change 4 * count.toNat = 0 ↔ count.toNat = 0
  omega

/-- The assertions on an array hold of what a served request got. -/
theorem kassert_array {count : U32} {array : U64} (hcount : count.toNat ≤ 3)
    (hnull : array = 0 ↔ count = 0) :
    kassert (if cellBytes count = 0 then array == 0 else array != 0) = .ok () := by
  by_cases hzero : count = 0
  · rw [if_pos ((cellBytes_eq_zero hcount).mpr hzero), hnull.mpr hzero]
    rfl
  · rw [if_neg (mt (cellBytes_eq_zero hcount).mp hzero), bne_iff_ne.mpr (mt hnull.mp hzero)]
    rfl

/-- With its two requests served, `reg` decodes to the same pairs wherever they go. -/
theorem propertyRewriteReg_served
    (h : Serves hhdmBase answers bump (regRequests parent prop.data.raw)) :
    (propertyRewriteReg m hhdmBase answers parent bump prop).toOption.map
        (fun result => (result.1.name, result.1.content m)) =
      (regPairs m parent prop.data.raw).toOption.map
        fun result => (prop.name, .pairs result.1 result.2) := by
  rw [propertyRewriteReg_eq]
  unfold regPairs
  unfold regRequests at h
  cases hcheck : regCheck parent prop.data.raw with
  | error stop => rfl
  | ok result =>
    obtain ⟨cells, n⟩ := result
    obtain ⟨-, haddress, hsize, hn, hlength⟩ := regCheck_eq_ok hcheck
    rw [hcheck] at h
    obtain ⟨addressArray, bump₁, haddressArray, hnull₁, h⟩ := h.next
    obtain ⟨sizeArray, bump₂, hsizeArray, hnull₂, -⟩ := h.next
    have hbytes := prop.data.raw.size.isLt
    rw [Nat.add_mul] at hlength
    rw [arrayRequest_empty_iff haddress hn (by omega)] at hnull₁
    rw [arrayRequest_empty_iff (hsize.trans (by decide)) hn (by omega)] at hnull₂
    have hrow : regRow m prop.data.raw.data cells addressArray sizeArray =
        regRow m prop.data.raw.data cells 1 1 :=
      regRow_array (mt hnull₁.mp) (mt hnull₂.mp)
    simp only [ok_bind, haddressArray, hsizeArray, kassert_array haddress hnull₁,
      kassert_array (hsize.trans (by decide)) hnull₂, hrow]
    cases readRows (regRow m prop.data.raw.data cells 1 1) (regWidth cells) n.toNat 0 with
    | error stop => rfl
    | ok pairs => rfl

theorem propertyRewriteRanges_eq (hne : prop.data.raw.size ≠ 0) :
    propertyRewriteRanges m hhdmBase answers parent own bump prop = do
      let (parent, nTrips) ← rangesCheck parent own prop.data.raw
      let (cbusAddressArray, bump) ← Bump.allocAligned hhdmBase answers bump
        (arrayRequest own.address nTrips).1 (arrayRequest own.address nTrips).2
      let (pbusAddressArray, bump) ← Bump.allocAligned hhdmBase answers bump
        (arrayRequest own.address nTrips).1 (arrayRequest own.address nTrips).2
      let (sizeArray, bump) ← Bump.allocAligned hhdmBase answers bump
        (arrayRequest own.size nTrips).1 (arrayRequest own.size nTrips).2
      let triples ← readRows (rangeRow m prop.data.raw.data own parent.address cbusAddressArray
        pbusAddressArray sizeArray) (rangesWidth own parent.address) nTrips.toNat 0
      return ({ prop with
        type := .ranges
        data := { prop.data with
          word0 := nTrips
          word1 := cbusAddressArray
          word2 := pbusAddressArray
          word3 := sizeArray }
        triples := triples }, bump) := by
  unfold propertyRewriteRanges rangesCheck
  dsimp only
  rw [if_neg hne]
  simp only [bind_assoc, pure_bind]
  rfl

/-- Rows of an address count that is not one to three do not end. -/
theorem rangeRow_ne_ok {data cbusAddressArray pbusAddressArray sizeArray : U64} {p : U32}
    (h : ¬ (own.address ≠ 0 ∧ p.toNat ≤ 3)) (r : U64 × U64 × Option U64) :
    rangeRow m data own p cbusAddressArray pbusAddressArray sizeArray 0 ≠ .ok r := by
  intro hrow
  rw [show (0 : U64) = BitVec.ofNat 64 0 from rfl] at hrow
  obtain ⟨-, haddress, hparent⟩ := rangeRow_eq_ok hrow
  refine h ⟨?_, hparent.2⟩
  intro hzero
  rw [hzero] at haddress
  exact absurd haddress.1 (by decide)

/-- The same of `ranges` and its three requests. -/
theorem propertyRewriteRanges_served (hne : prop.data.raw.size ≠ 0)
    (h : Serves hhdmBase answers bump (rangesRequests parent own prop.data.raw)) :
    (propertyRewriteRanges m hhdmBase answers parent own bump prop).toOption.map
        (fun result => (result.1.name, result.1.content m)) =
      (rangesTriples m parent own prop.data.raw).toOption.map
        fun result => (prop.name, .triples result.1 result.2) := by
  rw [propertyRewriteRanges_eq hne]
  unfold rangesTriples
  unfold rangesRequests at h
  rw [if_neg hne] at h
  cases hcheck : rangesCheck parent own prop.data.raw with
  | error stop => rfl
  | ok result =>
    obtain ⟨p, n⟩ := result
    obtain ⟨-, haddress, hsize, hn, hlength⟩ := rangesCheck_eq_ok hcheck
    rw [hcheck] at h
    obtain ⟨cbusAddressArray, bump₁, hcbus, hnull₁, h⟩ := h.next
    obtain ⟨pbusAddressArray, bump₂, hpbus, hnull₂, h⟩ := h.next
    obtain ⟨sizeArray, bump₃, hsizeArray, hnull₃, -⟩ := h.next
    simp only [ok_bind, hcbus, hpbus, hsizeArray]
    by_cases hcounts : own.address ≠ 0 ∧ p.address.toNat ≤ 3
    · have hbytes := prop.data.raw.size.isLt
      have hlength := hlength hcounts.2
      rw [Nat.add_mul, Nat.add_mul] at hlength
      rw [arrayRequest_empty_iff haddress hn (by omega)] at hnull₁ hnull₂
      rw [arrayRequest_empty_iff (hsize.trans (by decide)) hn (by omega)] at hnull₃
      rw [rangeRow_array (mt hnull₁.mp hcounts.1) (mt hnull₂.mp hcounts.1) (mt hnull₃.mp)]
      cases readRows (rangeRow m prop.data.raw.data own p.address 1 1 1)
        (rangesWidth own p.address) n.toNat 0 with
      | error stop => rfl
      | ok triples => rfl
    · obtain ⟨stop, hstop⟩ := @readRows_stops _ (rangeRow m prop.data.raw.data own p.address
        cbusAddressArray pbusAddressArray sizeArray) (rangesWidth own p.address) n.toNat
          (rangeRow_ne_ok hcounts) hn
      obtain ⟨stop', hstop'⟩ := @readRows_stops _ (rangeRow m prop.data.raw.data own p.address
        1 1 1) (rangesWidth own p.address) n.toNat (rangeRow_ne_ok hcounts) hn
      rw [hstop, hstop']
      rfl

/-- A list of strings is split or not, wherever its array goes. -/
theorem rewriteCompatible_served
    (h : Serves hhdmBase answers bump (compatibleRequests m prop.data.raw)) :
    (rewriteCompatible m hhdmBase answers bump prop).toOption.map (fun result => result.1.name) =
      if Splits m prop.data.raw then some prop.name else none := by
  obtain ⟨array, bump', halloc, hnull, -⟩ := h.next
  have halign : ¬ (8 : U64) = 0 := by decide
  dsimp only at halloc hnull
  rw [or_iff_left halign] at hnull
  unfold rewriteCompatible
  dsimp only
  rw [halloc, ok_bind]
  dsimp only
  by_cases hempty : 8 * BitVec.ofNat 64 (countStrings m prop.data.raw + 1) = 0
  · rw [hnull.mpr hempty, if_neg fun hsplits => hsplits.1 hempty]
    rfl
  · rw [bne_iff_ne.mpr (mt hnull.mp hempty), kassert_true, ok_bind]
    cases hstrings : splitStrings m prop.data.raw (prop.data.raw.size.toNat + 1) 0 0
      fun _ => ⟨0, 0⟩ with
    | error stop =>
      have hnot : ¬ Splits m prop.data.raw := by
        rintro ⟨-, hok⟩
        rw [hstrings] at hok
        cases hok
      rw [if_neg hnot]
      rfl
    | ok strings =>
      have hsplits : Splits m prop.data.raw := ⟨hempty, by rw [hstrings]; rfl⟩
      rw [if_pos hsplits]
      rfl

end Turns

end Octiron.DeviceTree
