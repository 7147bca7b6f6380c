import Octiron.DeviceTree.Decoded
import Octiron.DeviceTree.Records
import Octiron.DeviceTree.StringStores

/-! The turns of both laps in memory, each in lockstep with the turn that keeps its arrays
apart. -/
namespace Octiron.DeviceTree

open Lib.Word Lib.ByteMemory Lib.Lockstep Exec Pmm
open Bump.InMemory (Represents)

/-- The block that a turn of the first lap asks for. -/
def firstBlocks (m : Mem) (prop : Entry) : List Block :=
  match keywordOf m prop.name with
  | some .compatible => compatibleBlocks m prop.data.raw
  | _ => []

def secondBlocks (m : Mem) (parent : Option Cells) (own : Cells) (prop : Entry) : List Block :=
  match keywordOf m prop.name with
  | some .reg => regBlocks parent prop.data.raw
  | some .ranges | some .busRanges => rangesBlocks parent own prop.data.raw
  | _ => []

namespace InMemory

/-- What a turn may read of the blob. -/
structure EntryReadable (reads : U64 → Prop) (m : Mem) (entry : Entry) : Prop where
  name : ∀ x, Within x entry.name.data entry.name.size.toNat → reads x
  value : ∃ k, Readable reads m entry.data.raw k

/-- What a turn of the second lap may read; what the first lap has made of the value of
other properties is not looked at again. -/
structure RowsReadable (reads : U64 → Prop) (m : Mem) (entry : Entry) : Prop where
  name : ∀ x, Within x entry.name.data entry.name.size.toNat → reads x
  value : ∀ keyword, keywordOf m entry.name = some keyword → keyword.IsRows →
    ∃ k, Readable reads m entry.data.raw k

section Reads

variable {reads : U64 → Prop} {m mem : Mem} {raw : ByteView} {k : Nat}

theorem bytesFrom_congr {a : U64} {n : Nat} (h : SameBytes mem a m a n) :
    bytesFrom mem a n = bytesFrom m a n :=
  List.map_congr_left fun i hi => h i (List.mem_range.mp hi)

theorem keywordOf_congr {name : StrView} (h : ∀ x, Within x name.data name.size.toNat → reads x)
    (hagree : AgreeOn reads m mem) : keywordOf mem name = keywordOf m name := by
  rw [keywordOf_bytes, keywordOf_bytes, StrView.bytes, StrView.bytes]
  exact congrArg _ (bytesFrom_congr (hagree.sameBytes h name.size.isLt.le))

/-- The first four bytes, be they part of the value or not. -/
theorem decodeInteger_congr {data : Data} (h : Readable reads m data.raw k)
    (hagree : AgreeOn reads m mem) : decodeInteger mem data = decodeInteger m data := by
  have hbehind := h.behind
  have hsame := @Readable.sameBytes _ _ mem _ _ h hagree 0 4 (by omega)
  rw [BitVec.add_zero] at hsame
  rw [decodeInteger, decodeInteger, readBigEndian32_eq_iff.mpr hsame]

/-- A value is the same in both memories. -/
theorem Readable.bytes (h : Readable reads m raw k) (hagree : AgreeOn reads m mem) :
    (StrView.ofByteView raw).bytes mem = (StrView.ofByteView raw).bytes m := by
  have hbehind := h.behind
  have hsame := @Readable.sameBytes _ _ mem _ _ h hagree 0 raw.size.toNat (by omega)
  rw [BitVec.add_zero] at hsame
  exact bytesFrom_congr hsame

/-- So are the bytes that are compared for a reason. -/
theorem failsWithReason_congr (h : Readable reads m raw k) (hagree : AgreeOn reads m mem) :
    FailsWithReason mem raw ↔ FailsWithReason m raw := by
  have hbehind := h.behind
  have hreason := @Readable.sameBytes _ _ mem _ _ h hagree 5 raw.size.toNat (by omega)
  unfold FailsWithReason
  exact Eq.congr_left (bytesFrom_congr hreason)

theorem rewriteStatus_congr {data : Data} (h : Readable reads m data.raw k)
    (hagree : AgreeOn reads m mem) : rewriteStatus mem data = rewriteStatus m data := by
  rw [rewriteStatus_eq, rewriteStatus_eq, h.bytes hagree]
  split
  · rfl
  · simp only [failsWithReason_congr h hagree]

/-- The bytes that the rows of a value are read from. -/
theorem Readable.rows (h : Readable reads m raw k) (p own : Cells) (x : U64)
    (hx : Within x raw.data (raw.size.toNat + overreach p.address own.size)) : reads x := by
  have hbehind := h.behind
  refine h.covers x (hx.trans_le ?_)
  unfold overreach
  split <;> omega

end Reads

/-- What a turn of the first lap leaves. -/
structure FirstDone (keep reads : U64 → Prop) (m : Mem) (h : Heap) (node prop : U64)
    (a : Error × Entry × Cells × Bump.State) (b : Error × Heap) : Prop where
  err : a.1 = b.1
  simulates : Simulates keep reads m b.2 a.2.2.2
  changes : ChangesOnly (fun x => ¬ keep x ∨ Within x (prop + 24) 56 ∨ Within x (node + 16) 8) h.mem
    b.2.mem
  data : dataAt b.2.mem prop = a.2.1.data
  type : typeAt b.2.mem prop = a.2.1.type.val
  cells : cellsAt b.2.mem node = a.2.2.1

section First

variable {keep reads : U64 → Prop} {m : Mem} {h h' : Heap} {bump bump' : Bump.State} {node prop : U64}
  {entry entry' : Entry} {own own' : Cells} {hhdmBase : U64} {answers : Answers} {err : Error}

/-- A property that is retyped. -/
theorem retype_done (type : PropertyType) (decode : Mem → Data → Data)
    (hsim : Simulates keep reads m h bump)
    (hprop : PropertyKept keep reads h.mem prop entry)
    (hdecode : ∀ mem, AgreeOn reads m mem → decode mem entry.data = decode m entry.data) :
    TurnDone keep reads m h prop ({ entry with type := type, data := decode m entry.data }, bump)
      { h with mem := retype h.mem prop type decode } := by
  have hagree : AgreeOn reads m (store32 h.mem (prop + 24) type.val) :=
    hsim.agrees.trans (changesOnly_storeType.agreeOn fun x hx => hprop.apart x (within_property hx))
  have hretype : retype h.mem prop type decode =
      setProperty h.mem prop type (decode m entry.data) := by
    unfold retype setProperty
    dsimp only
    rw [dataAt_storeType, hprop.data, hdecode _ hagree]
  rw [hretype]
  exact turnDone_setProperty hsim (.refl keep h.mem) hprop rfl rfl

/-- The node's record keeps its counts. -/
theorem TurnDone.cells (hturn : TurnDone keep reads m h prop (entry', bump') h')
    (hnode : ∀ x, Within x node 56 → keep x) (hapart : Apart node 56 prop 80)
    (hown : cellsAt h.mem node = own) : cellsAt h'.mem node = own := by
  refine (cellsAt_congr fun x hx => hturn.changes.apply ?_).trans hown
  have hin : Within x node 56 := within_field hx (by decide) (by decide)
  rintro (hnot | hfield)
  · exact hnot (hnode x hin)
  · exact hapart x hin (within_property hfield)

theorem TurnDone.first (hturn : TurnDone keep reads m h prop (entry', bump') h')
    (hnode : ∀ x, Within x node 56 → keep x) (hapart : Apart node 56 prop 80)
    (hown : cellsAt h.mem node = own) :
    FirstDone keep reads m h node prop (err, entry', own, bump') (err, h') where
  err := rfl
  simulates := hturn.simulates
  changes := hturn.changes.mono fun _ hx => hx.imp_right .inl
  data := hturn.data
  type := hturn.type
  cells := hturn.cells hnode hapart hown

/-- And then the counts are stored. -/
theorem TurnDone.setCells {mem : Mem} (hturn : TurnDone keep reads m h prop (entry', bump') h')
    (hnode : ∀ x, Within x node 56 → keep x ∧ ¬ reads x) (hapart : Apart node 56 prop 80)
    (hchanges : ChangesOnly (Within · (node + 16) 8) h'.mem mem)
    (hown : cellsAt mem node = own') :
    FirstDone keep reads m h node prop (err, entry', own', bump') (err, { h' with mem := mem }) := by
  have hin : ∀ x, Within x (node + 16) 8 → Within x node 56 := fun x hx =>
    within_field hx (by decide) (by decide)
  refine ⟨rfl, hturn.simulates.store hchanges fun x hx => ?_, ?_, ?_, ?_, hown⟩
  · exact ⟨(hnode x (hin x hx)).2, fun hheader =>
      hturn.simulates.header x hheader (hnode x (hin x hx)).1⟩
  · exact (hturn.changes.mono fun x hx => hx.imp_right .inl).trans
      (hchanges.mono fun x hx => .inr (.inr hx))
  · rw [← hturn.data]
    exact dataAt_congr fun x hx => hchanges.apply fun hcells => hapart x (hin x hcells) hx
  · rw [← hturn.type]
    exact load32_congr fun x hx => hchanges.apply fun hcells =>
      hapart x (hin x hcells) (within_field hx (by decide) (by decide))

/-- A turn that has nothing to do. -/
theorem firstDone_refl (hsim : Simulates keep reads m h bump)
    (hprop : PropertyKept keep reads h.mem prop entry) (htype : typeAt h.mem prop = entry.type.val)
    (hown : cellsAt h.mem node = own) :
    FirstDone keep reads m h node prop (err, entry, own, bump) (err, h) :=
  ⟨rfl, hsim, .refl _ _, hprop.data, htype, hown⟩

theorem rewriteFirst_lockstep (hsim : Simulates keep reads m h bump) (hreads : ∀ x, reads x → keep x)
    (hprop : PropertyKept keep reads h.mem prop entry) (htype : typeAt h.mem prop = entry.type.val)
    (hown : cellsAt h.mem node = own) (hnode : ∀ x, Within x node 56 → keep x ∧ ¬ reads x)
    (hapart : Apart node 56 prop 80) (hreadable : EntryReadable reads m entry)
    (hspared : Spared hhdmBase answers keep bump (firstBlocks m entry)) :
    Related (fun a b => FirstDone keep reads m h node prop a b ∧
        (keywordOf m entry.name = some .compatible →
          WhileKept hhdmBase answers bump (firstBlocks m entry) b.2.mem (StringsHeld a.2.1)))
      (DeviceTree.rewriteFirst m hhdmBase answers own bump entry)
      (rewriteFirst hhdmBase answers node prop h) := by
  obtain ⟨k, hvalue⟩ := hreadable.value
  have hkeep := fun x hx => (hnode x hx).1
  have hinteger : ∀ mem, AgreeOn reads m mem →
      decodeInteger mem entry.data = decodeInteger m entry.data :=
    fun mem hagree => decodeInteger_congr hvalue hagree
  have hstatus : ∀ mem, AgreeOn reads m mem →
      rewriteStatus mem entry.data = rewriteStatus m entry.data :=
    fun mem hagree => rewriteStatus_congr hvalue hagree
  unfold DeviceTree.rewriteFirst rewriteFirst firstBlocks at *
  rw [hprop.name, keywordOf_congr hreadable.name hsim.agrees]
  cases hkeyword : keywordOf m entry.name with
  | none => exact ⟨firstDone_refl hsim hprop htype hown, nofun⟩
  | some keyword =>
    rw [hkeyword] at hspared
    cases keyword
    case compatible =>
      refine (rewriteCompatible_lockstep hsim hreads hprop hvalue hspared).bind ?_
      rintro ⟨entry', bump'⟩ h' ⟨hturn, -, hheld⟩
      exact ⟨hturn.first hkeep hapart hown, fun _ => hheld⟩
    case status =>
      exact ⟨(retype_done .status rewriteStatus hsim hprop hstatus).first hkeep hapart hown, nofun⟩
    case phandle =>
      exact ⟨(retype_done .phandle decodeInteger hsim hprop hinteger).first hkeep hapart hown, nofun⟩
    case virtualReg =>
      exact ⟨(retype_done .virtualReg decodeInteger hsim hprop hinteger).first hkeep hapart hown, nofun⟩
    case interruptParent =>
      exact ⟨(retype_done .interruptParent decodeInteger hsim hprop hinteger).first hkeep hapart hown, nofun⟩
    case interruptCells =>
      exact ⟨(retype_done .interruptCells decodeInteger hsim hprop hinteger).first hkeep hapart hown, nofun⟩
    case addressCells =>
      have hturn := retype_done .addressCells decodeInteger hsim hprop hinteger
      have hcells : (dataAt (retype h.mem prop .addressCells decodeInteger) prop).low32 =
          readBigEndian32 m entry.data.raw.data := by
        rw [hturn.data]
        exact Data.low32_setLow32 _ _
      dsimp only
      rw [hcells]
      split
      · exact ⟨hturn.first hkeep hapart hown, nofun⟩
      · refine ⟨hturn.setCells hnode hapart changesOnly_setAddressCells ?_, nofun⟩
        have hsame := hturn.cells hkeep hapart hown
        dsimp only at hsame
        rw [cellsAt_setAddressCells, hsame]
    case sizeCells =>
      have hturn := retype_done .sizeCells decodeInteger hsim hprop hinteger
      have hcells : (dataAt (retype h.mem prop .sizeCells decodeInteger) prop).low32 =
          readBigEndian32 m entry.data.raw.data := by
        rw [hturn.data]
        exact Data.low32_setLow32 _ _
      dsimp only
      rw [hcells]
      split
      · exact ⟨hturn.first hkeep hapart hown, nofun⟩
      · refine ⟨hturn.setCells hnode hapart changesOnly_setSizeCells ?_, nofun⟩
        have hsame := hturn.cells hkeep hapart hown
        dsimp only at hsame
        rw [cellsAt_setSizeCells, hsame]
    case dmaCoherent =>
      exact ⟨(retype_done .dmaCoherence (fun _ data => data.setFlag true) hsim hprop fun _ _ => rfl).first hkeep
        hapart hown, nofun⟩
    case dmaNoncoherent =>
      exact ⟨(retype_done .dmaCoherence (fun _ data => data.setFlag false) hsim hprop fun _ _ => rfl).first hkeep
        hapart hown, nofun⟩
    case model =>
      exact ⟨(retype_done .model (fun _ data => data) hsim hprop fun _ _ => rfl).first hkeep
        hapart hown, nofun⟩
    case deviceType =>
      exact ⟨(retype_done .deviceType (fun _ data => data) hsim hprop fun _ _ => rfl).first hkeep
        hapart hown, nofun⟩
    case interruptController =>
      exact ⟨(retype_done .interruptController (fun _ data => data) hsim hprop fun _ _ => rfl).first hkeep
        hapart hown, nofun⟩
    all_goals exact ⟨firstDone_refl hsim hprop htype hown, nofun⟩

end First

section Placed

variable {m : Mem} {bump bump' : Bump.State} {entry entry' : Entry} {own own' : Cells}
  {parent : Option Cells} {hhdmBase : U64} {answers : Answers} {err : Error}

/-- A turn that completes has got its block. -/
theorem rewriteFirst_placed
    (h : DeviceTree.rewriteFirst m hhdmBase answers own bump entry = .ok (err, entry', own', bump')) :
    ∃ arrays, place hhdmBase answers bump (firstBlocks m entry) = .ok (arrays, bump') := by
  unfold DeviceTree.rewriteFirst at h
  unfold firstBlocks
  cases hkeyword : keywordOf m entry.name with
  | none =>
    rw [hkeyword] at h
    cases h
    exact ⟨_, rfl⟩
  | some keyword =>
    rw [hkeyword] at h
    cases keyword
    case compatible =>
      obtain ⟨⟨rewritten, bump₁⟩, hrewrite, h⟩ := bind_eq_ok.mp h
      cases h
      obtain ⟨⟨array, bump₂⟩, halloc, hrewrite⟩ := bind_eq_ok.mp hrewrite
      obtain ⟨⟨⟩, -, hrewrite⟩ := bind_eq_ok.mp hrewrite
      obtain ⟨strings, -, hrewrite⟩ := bind_eq_ok.mp hrewrite
      cases hrewrite
      refine ⟨[(array, 16 * (countStrings m entry.data.raw + 1))], ?_⟩
      simp only [compatibleBlocks, place, halloc, ok_bind]
      rfl
    case addressCells | sizeCells =>
      dsimp only at h
      split at h <;>
      · cases h
        exact ⟨_, rfl⟩
    all_goals
      cases h
      exact ⟨_, rfl⟩

theorem rewriteSecond_placed
    (h : DeviceTree.rewriteSecond m hhdmBase answers parent own bump entry = .ok (entry', bump')) :
    ∃ arrays, place hhdmBase answers bump (secondBlocks m parent own entry) = .ok (arrays, bump') := by
  have hranges : ∀ {entry' : Entry} {bump' : Bump.State},
      DeviceTree.propertyRewriteRanges m hhdmBase answers parent own bump entry = .ok (entry', bump') →
      ∃ arrays, place hhdmBase answers bump (rangesBlocks parent own entry.data.raw) =
        .ok (arrays, bump') := by
    intro entry' bump' h
    by_cases hempty : entry.data.raw.size = 0
    · unfold DeviceTree.propertyRewriteRanges at h
      dsimp only at h
      rw [if_pos hempty] at h
      cases h
      rw [rangesBlocks, if_pos hempty]
      exact ⟨_, rfl⟩
    rw [DeviceTree.propertyRewriteRanges_eq hempty] at h
    obtain ⟨⟨p, n⟩, hcheck, h⟩ := bind_eq_ok.mp h
    obtain ⟨⟨cbus, bump₁⟩, hcbus, h⟩ := bind_eq_ok.mp h
    obtain ⟨⟨pbus, bump₂⟩, hpbus, h⟩ := bind_eq_ok.mp h
    obtain ⟨⟨size, bump₃⟩, hsize, h⟩ := bind_eq_ok.mp h
    obtain ⟨rows, -, h⟩ := bind_eq_ok.mp h
    cases h
    rw [rangesBlocks_of_check hempty hcheck]
    simp only [place, arrayBlock, hcbus, hpbus, hsize, ok_bind]
    exact ⟨_, rfl⟩
  unfold DeviceTree.rewriteSecond at h
  unfold secondBlocks
  cases hkeyword : keywordOf m entry.name with
  | none =>
    rw [hkeyword] at h
    cases h
    exact ⟨_, rfl⟩
  | some keyword =>
    rw [hkeyword] at h
    cases keyword
    case reg =>
      dsimp only at h
      rw [DeviceTree.propertyRewriteReg_eq] at h
      obtain ⟨⟨p, n⟩, hcheck, h⟩ := bind_eq_ok.mp h
      obtain ⟨⟨addressArray, bump₁⟩, haddress, h⟩ := bind_eq_ok.mp h
      obtain ⟨⟨sizeArray, bump₂⟩, hsize, h⟩ := bind_eq_ok.mp h
      obtain ⟨⟨⟩, -, h⟩ := bind_eq_ok.mp h
      obtain ⟨⟨⟩, -, h⟩ := bind_eq_ok.mp h
      obtain ⟨rows, -, h⟩ := bind_eq_ok.mp h
      cases h
      change ∃ arrays, place hhdmBase answers bump (regBlocks parent entry.data.raw) = _
      rw [regBlocks_of_check hcheck]
      simp only [place, arrayBlock, haddress, hsize, ok_bind]
      exact ⟨_, rfl⟩
    case ranges | busRanges => exact hranges h
    all_goals
      cases h
      exact ⟨_, rfl⟩

/-- The first lap leaves a property alone that the second decodes. -/
theorem rewriteFirst_rows {keyword : Keyword} (hkeyword : keywordOf m entry.name = some keyword)
    (hrows : keyword.IsRows)
    (h : DeviceTree.rewriteFirst m hhdmBase answers own bump entry = .ok (err, entry', own', bump')) :
    entry' = entry := by
  unfold DeviceTree.rewriteFirst at h
  rw [hkeyword] at h
  obtain rfl | rfl | rfl := hrows
  all_goals
    cases h
    rfl

theorem EntryReadable.rows {reads : U64 → Prop} (hreadable : EntryReadable reads m entry)
    (h : DeviceTree.rewriteFirst m hhdmBase answers own bump entry = .ok (err, entry', own', bump')) :
    RowsReadable reads m entry' where
  name := by
    rw [rewriteFirst_name h]
    exact hreadable.name
  value keyword hkeyword hrows := by
    rw [rewriteFirst_name h] at hkeyword
    rw [rewriteFirst_rows hkeyword hrows h]
    exact hreadable.value

end Placed

section Second

variable {keep reads : U64 → Prop} {m : Mem} {h : Heap} {bump bump' : Bump.State} {node prop : U64}
  {entry entry' : Entry} {own p : Cells} {parent : Option Cells} {hhdmBase : U64} {answers : Answers}

/-- The arrays of a property that went through both laps hold what the pass has read. -/
def ArraysHeld (m : Mem) (parent : Option Cells) (own : Cells) (entry : Entry) (mem : Mem) : Prop :=
  match keywordOf m entry.name with
  | some .compatible => StringsHeld entry mem
  | some .reg => ∀ p, parent = some p → RegHeld p entry mem
  | some .ranges | some .busRanges =>
    entry.data.word0 = 0 ∨ ∀ p, parent = some p → RangesHeld p own entry mem
  | _ => True

/-- Three cells at most are decoded, and one at least. -/
theorem ranges_parent (hne : entry.data.raw.size ≠ 0)
    (h : DeviceTree.propertyRewriteRanges m hhdmBase answers (some p) own bump entry =
      .ok (entry', bump')) : 1 ≤ p.address.toNat ∧ p.address.toNat ≤ 3 := by
  obtain ⟨hempty, -⟩ | ⟨q, cbus, pbus, size, n, w, hq, -, hn, -, -, -, hrows, -⟩ :=
    propertyRewriteRanges_eq_ok h
  · exact absurd hempty hne
  · obtain rfl := Option.some.inj hq
    obtain ⟨row, hrow⟩ := readRows_row hrows hn
    have hzero : (0 : U64) + BitVec.ofNat 64 w * BitVec.ofNat 64 0 = BitVec.ofNat 64 0 := by simp
    rw [hzero] at hrow
    exact (rangeRow_eq_ok hrow).2.2

theorem ranges_word0 (hempty : entry.data.raw.size = 0)
    (h : DeviceTree.propertyRewriteRanges m hhdmBase answers parent own bump entry =
      .ok (entry', bump')) : entry'.data.word0 = 0 := by
  unfold DeviceTree.propertyRewriteRanges at h
  dsimp only at h
  rw [if_pos hempty] at h
  obtain ⟨rfl, -⟩ := ok_pair_inj h
  rfl

/-- A `ranges` turn whose arrays are apart. -/
theorem rangesTurn_lockstep (hsim : Simulates keep reads m h bump) (hreads : ∀ x, reads x → keep x)
    (hcounts : Counts keep h.mem node own parent) (hprop : PropertyKept keep reads h.mem prop entry)
    {k : Nat} (hvalue : Readable reads m entry.data.raw k)
    (hspared : Spared hhdmBase answers keep bump (rangesBlocks parent own entry.data.raw)) :
    Related (fun a b => TurnDone keep reads m h prop a b ∧
        (BlocksApart hhdmBase answers bump (rangesBlocks parent own entry.data.raw) →
          WhileKept hhdmBase answers bump (rangesBlocks parent own entry.data.raw) b.mem fun mem =>
            a.1.data.word0 = 0 ∨ ∀ p, parent = some p → RangesHeld p own a.1 mem))
      (DeviceTree.propertyRewriteRanges m hhdmBase answers parent own bump entry)
      (propertyRewriteRanges hhdmBase answers node prop h) := by
  have hlockstep := (propertyRewriteRanges_lockstep hsim hreads hcounts hprop
    (fun p _ => hvalue.rows p own) hspared).left_eq
  refine hlockstep.mono ?_
  rintro ⟨entry', bump'⟩ h' ⟨⟨hturn, hheld⟩, hcompleted⟩
  refine ⟨hturn, fun hapart arrays bump'' hplace mem hkeep => ?_⟩
  by_cases hempty : entry.data.raw.size = 0
  · exact .inl (ranges_word0 hempty hcompleted)
  · refine .inr fun p hp => ?_
    subst hp
    exact (hheld p rfl (ranges_parent hempty hcompleted) hempty hapart).2 arrays bump'' hplace mem hkeep

theorem rewriteSecond_lockstep (hsim : Simulates keep reads m h bump) (hreads : ∀ x, reads x → keep x)
    (hcounts : Counts keep h.mem node own parent) (hprop : PropertyKept keep reads h.mem prop entry)
    (htype : typeAt h.mem prop = entry.type.val) (hreadable : RowsReadable reads m entry)
    (hspared : Spared hhdmBase answers keep bump (secondBlocks m parent own entry)) :
    Related (fun a b => TurnDone keep reads m h prop a b ∧
        (keywordOf m entry.name ≠ some .compatible →
          BlocksApart hhdmBase answers bump (secondBlocks m parent own entry) →
          WhileKept hhdmBase answers bump (secondBlocks m parent own entry) b.mem
            (ArraysHeld m parent own a.1)))
      (DeviceTree.rewriteSecond m hhdmBase answers parent own bump entry)
      (rewriteSecond hhdmBase answers node prop h) := by
  have hsame : TurnDone keep reads m h prop (entry, bump) h := ⟨hsim, .refl _ _, hprop.data, htype⟩
  unfold DeviceTree.rewriteSecond rewriteSecond secondBlocks at *
  rw [hprop.name, keywordOf_congr hreadable.name hsim.agrees]
  cases hkeyword : keywordOf m entry.name with
  | none =>
    refine ⟨hsame, fun _ _ _ _ _ _ _ => ?_⟩
    rw [ArraysHeld, hkeyword]
    trivial
  | some keyword =>
    rw [hkeyword] at hspared
    cases keyword
    case reg =>
      obtain ⟨k, hvalue⟩ := hreadable.value _ hkeyword (.inl rfl)
      refine (propertyRewriteReg_lockstep hsim hreads hcounts hprop (fun p _ => hvalue.rows p p)
        hspared).left_eq.mono ?_
      rintro ⟨entry', bump'⟩ h' ⟨⟨hturn, hheld⟩, hcompleted⟩
      refine ⟨hturn, fun _ hapart arrays bump'' hplace mem hkeep => ?_⟩
      rw [ArraysHeld, propertyRewriteReg_name hcompleted, hkeyword]
      exact fun p hp => (hheld p hp hapart).2 arrays bump'' hplace mem hkeep
    case ranges =>
      obtain ⟨k, hvalue⟩ := hreadable.value _ hkeyword (.inr (.inl rfl))
      refine (rangesTurn_lockstep hsim hreads hcounts hprop hvalue hspared).left_eq.mono ?_
      rintro ⟨entry', bump'⟩ h' ⟨⟨hturn, hheld⟩, hcompleted⟩
      refine ⟨hturn, fun _ hapart arrays bump'' hplace mem hkeep => ?_⟩
      rw [ArraysHeld, propertyRewriteRanges_name hcompleted, hkeyword]
      exact hheld hapart arrays bump'' hplace mem hkeep
    case busRanges =>
      obtain ⟨k, hvalue⟩ := hreadable.value _ hkeyword (.inr (.inr rfl))
      refine (rangesTurn_lockstep hsim hreads hcounts hprop hvalue hspared).left_eq.mono ?_
      rintro ⟨entry', bump'⟩ h' ⟨⟨hturn, hheld⟩, hcompleted⟩
      refine ⟨hturn, fun _ hapart arrays bump'' hplace mem hkeep => ?_⟩
      rw [ArraysHeld, propertyRewriteRanges_name hcompleted, hkeyword]
      exact hheld hapart arrays bump'' hplace mem hkeep
    case compatible => exact ⟨hsame, fun hne => absurd rfl hne⟩
    all_goals
      refine ⟨hsame, fun _ _ _ _ _ _ _ => ?_⟩
      rw [ArraysHeld, hkeyword]
      trivial

end Second

end InMemory

end Octiron.DeviceTree
