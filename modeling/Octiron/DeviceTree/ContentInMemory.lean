import Octiron.DeviceTree.LocatedInMemory
import Octiron.DeviceTree.RangesInMemory

/-! What a rewritten property says in memory: its record is read through the member that its
type selects, and its arrays through the pointers in there. -/
namespace Octiron.DeviceTree

open Lib.Word Lib.ByteMemory Lib.Tables Exec Pmm

/-- All of them, in the order of their values. -/
def PropertyType.all : List PropertyType :=
  [.raw, .compatible, .model, .phandle, .status, .addressCells, .sizeCells, .reg, .virtualReg,
    .dmaCoherence, .deviceType, .ranges, .interruptParent, .interruptController, .interruptCells,
    .interruptMap]

def PropertyType.ofVal (v : U32) : Option PropertyType :=
  PropertyType.all.find? fun type => type.val == v

theorem PropertyType.ofVal_val (type : PropertyType) : PropertyType.ofVal type.val = some type := by
  cases type <;> rfl

namespace InMemory

section Elements

variable (m : Mem) (array : U64) (cells : U32) (n i : Nat)

/-- An element of an address array of `reg`, if the count has given it a type. -/
def regAddressAt : Option U128 :=
  if cells = 0 then none
  else some (BitVec.ofNat 128 ((⟨array, regElementBytes cells⟩ : Column).get m i))

def sizeAt : Option U64 :=
  if cells = 0 then none
  else some (BitVec.ofNat 64 ((⟨array, 4 * cells.toNat⟩ : Column).get m i))

def rangeAddressAt : U64 := BitVec.ofNat 64 ((⟨array, rangeElementBytes cells⟩ : Column).get m i)

def stringsAt : List StrView :=
  (List.range n).map fun k => viewAt m (array + BitVec.ofNat 64 (16 * k))

variable (p own : Cells) (data : Data)

def pairsAt : List (Option U128 × Option U64) :=
  (List.range data.word0.toNat).map fun i =>
    (regAddressAt m data.word1 p.address i, sizeAt m data.word2 p.size i)

def triplesAt : List (U64 × U64 × Option U64) :=
  (List.range data.word0.toNat).map fun i => (rangeAddressAt m data.word1 own.address i,
    rangeAddressAt m data.word2 p.address i, sizeAt m data.word3 own.size i)

/-- The content of the property at `prop`; `n` is the length of a list of strings, which its
record does not give. -/
def contentAt (parent : Option Cells) (n : Nat) (prop : U64) : Option Content :=
  (PropertyType.ofVal (typeAt m prop)).map fun type => Entry.content m
    { name := viewAt m prop
      type := type
      data := dataAt m prop
      strings := stringsAt m (dataAt m prop).word0 n
      pairs := parent.elim [] fun p => pairsAt m p (dataAt m prop)
      triples := parent.elim [] fun p => triplesAt m p own (dataAt m prop) }

end Elements

section Rows

variable {m mem : Mem} {ptr : U64} {cells : U32} {i : Nat} {p own : Cells} {entry : Entry}

theorem ofNat_mod_of_lt {w k : Nat} {v : BitVec w} (h : v.toNat < k) :
    BitVec.ofNat w (v.toNat % k) = v := by
  rw [Nat.mod_eq_of_lt h, BitVec.ofNat_toNat, BitVec.setWidth_eq]

/-- The widths hold what is read. -/
theorem regValue_lt (h : cells.toNat ≤ 3) :
    (regValue m ptr cells).elim 0 BitVec.toNat < 256 ^ regElementBytes cells := by
  obtain rfl | rfl | rfl | rfl := cells_cases h
  · exact Nat.one_pos
  · rw [regValue_one, Option.elim_some, BitVec.toNat_setWidth]
    exact (Nat.mod_le _ _).trans_lt (readBigEndian32 m ptr).isLt
  · rw [regValue_two, Option.elim_some, BitVec.toNat_setWidth]
    exact (Nat.mod_le _ _).trans_lt (readBigEndian64 m ptr).isLt
  · rw [regValue_three]
    exact (readBigEndian128 m ptr).isLt

theorem regValue_isSome (hne : cells ≠ 0) : ∃ v, regValue m ptr cells = some v := by
  unfold regValue
  rw [if_neg hne]
  split_ifs <;> exact ⟨_, rfl⟩

theorem sizeValue_isSome (hne : cells ≠ 0) : ∃ v, sizeValue m ptr cells = some v := by
  unfold sizeValue
  rw [if_neg hne]
  split_ifs <;> exact ⟨_, rfl⟩

theorem regAddressAt_eq {array : U64} (h : cells.toNat ≤ 3)
    (hget : (⟨array, regElementBytes cells⟩ : Column).get mem i =
      (regValue m ptr cells).elim 0 BitVec.toNat % 256 ^ regElementBytes cells) :
    regAddressAt mem array cells i = regValue m ptr cells := by
  unfold regAddressAt
  rw [hget]
  split
  · next hzero => rw [hzero, regValue_zero]
  · next hne =>
    have hlt := @regValue_lt m ptr cells h
    obtain ⟨v, hv⟩ := @regValue_isSome m ptr cells hne
    rw [hv, Option.elim_some] at hlt ⊢
    rw [ofNat_mod_of_lt hlt]

theorem sizeAt_eq {array : U64} (h : cells.toNat ≤ 2)
    (hget : (⟨array, 4 * cells.toNat⟩ : Column).get mem i =
      (sizeValue m ptr cells).elim 0 BitVec.toNat % 256 ^ (4 * cells.toNat)) :
    sizeAt mem array cells i = sizeValue m ptr cells := by
  unfold sizeAt
  rw [hget]
  split
  · next hzero => rw [hzero, sizeValue_zero]
  · next hne =>
    have hlt := @sizeValue_lt m ptr cells h
    obtain ⟨v, hv⟩ := @sizeValue_isSome m ptr cells hne
    rw [hv, Option.elim_some] at hlt ⊢
    rw [ofNat_mod_of_lt hlt]

theorem rangeAddressAt_eq {array : U64} (hlow : 1 ≤ cells.toNat) (h : cells.toNat ≤ 3)
    (hget : (⟨array, rangeElementBytes cells⟩ : Column).get mem i =
      (rangeValue m ptr cells).toNat % 256 ^ rangeElementBytes cells) :
    rangeAddressAt mem array cells i = rangeValue m ptr cells := by
  have hne : cells ≠ 0 := by
    rintro rfl
    exact absurd hlow (by decide)
  rw [rangeAddressAt, hget, ofNat_mod_of_lt (rangeValue_lt h hne)]

/-- A row that a loop has read. -/
theorem readRows_mem {ρ : Type} {row : U64 → Exec ρ} {width j : U64} {n : Nat} {rows : List ρ} {r : ρ}
    (h : readRows row width n j = .ok rows) (hmem : r ∈ rows) : ∃ k, row k = .ok r := by
  induction n generalizing j rows with
  | zero =>
    obtain rfl := Except.ok.inj h
    exact absurd hmem List.not_mem_nil
  | succ n ih =>
    obtain ⟨first, hfirst, h⟩ := bind_eq_ok.mp h
    obtain ⟨rest, hrest, h⟩ := bind_eq_ok.mp h
    obtain rfl := pure_eq_ok.mp h
    rcases List.mem_cons.mp hmem with rfl | hmem
    · exact ⟨j, hfirst⟩
    · exact ih hrest hmem

/-- Pairs that are held read back as they were read from the value. -/
theorem pairsAt_eq {data addressArray sizeArray width : U64} {n : Nat} (haddress : p.address.toNat ≤ 3)
    (hsize : p.size.toNat ≤ 2)
    (hrows : readRows (regRow m data p addressArray sizeArray) width n 0 = .ok entry.pairs)
    (hheld : RegHeld p entry mem) : pairsAt mem p entry.data = entry.pairs := by
  obtain ⟨hrowsHeld, hcount⟩ := hheld
  refine List.ext_getElem (by rw [pairsAt, List.length_map, List.length_range, hcount]) fun i _ hi => ?_
  obtain ⟨k, hrow⟩ := readRows_mem hrows (List.getElem_mem hi)
  rw [← BitVec.setWidth_eq k, ← BitVec.ofNat_toNat] at hrow
  have hvalue := regRow_eq_ok haddress hrow
  have hin : i < (entry.pairs.map regValues).length := by rwa [List.length_map]
  have hget := fun j hj hv => hrowsHeld i hin j hj hv
  simp only [List.getElem_map, hvalue] at hget
  rw [hvalue]
  simp only [pairsAt, List.getElem_map, List.getElem_range]
  exact Prod.ext (regAddressAt_eq haddress (hget 0 (show 0 < 2 by decide) (show 0 < 2 by decide)))
    (sizeAt_eq hsize (hget 1 (show 1 < 2 by decide) (show 1 < 2 by decide)))

theorem triplesAt_eq {data cbusAddressArray pbusAddressArray sizeArray width : U64} {n : Nat}
    (hsize : own.size.toNat ≤ 2)
    (hrows : readRows (rangeRow m data own p.address cbusAddressArray pbusAddressArray sizeArray) width
      n 0 = .ok entry.triples)
    (hheld : RangesHeld p own entry mem) : triplesAt mem p own entry.data = entry.triples := by
  obtain ⟨hrowsHeld, hcount⟩ := hheld
  refine List.ext_getElem (by rw [triplesAt, List.length_map, List.length_range, hcount])
    fun i _ hi => ?_
  obtain ⟨k, hrow⟩ := readRows_mem hrows (List.getElem_mem hi)
  rw [← BitVec.setWidth_eq k, ← BitVec.ofNat_toNat] at hrow
  obtain ⟨hvalue, haddress, hparent⟩ := rangeRow_eq_ok hrow
  have hin : i < (entry.triples.map rangeValues).length := by rwa [List.length_map]
  have hget := fun j hj hv => hrowsHeld i hin j hj hv
  simp only [List.getElem_map, hvalue] at hget
  rw [hvalue]
  simp only [triplesAt, List.getElem_map, List.getElem_range]
  refine Prod.ext ?_ (Prod.ext ?_ ?_)
  · exact rangeAddressAt_eq haddress.1 haddress.2
      (hget 0 (show 0 < 3 by decide) (show 0 < 3 by decide))
  · exact rangeAddressAt_eq hparent.1 hparent.2
      (hget 1 (show 1 < 3 by decide) (show 1 < 3 by decide))
  · exact sizeAt_eq hsize (hget 2 (show 2 < 3 by decide) (show 2 < 3 by decide))

end Rows

section Value

variable {reads : U64 → Prop} {m mem : Mem} {raw : ByteView} {k : Nat} {hhdmBase : U64}
  {answers : Answers} {bump : Bump.State} {entry : Entry}

theorem statusContent_congr (h : Readable reads m raw k) (hagree : AgreeOn reads m mem) :
    statusContent mem raw = statusContent m raw := by
  rw [statusContent, statusContent, h.bytes hagree]
  simp only [failsWithReason_congr h hagree]

/-- The strings of a value are found alike. -/
theorem splitStrings_congr (h : Readable reads m raw k) (hagree : AgreeOn reads m mem) {turns j : Nat}
    {i : U64} {array : Nat → StrView} (hi : i.toNat ≤ k + 1) :
    splitStrings mem raw turns i j array = splitStrings m raw turns i j array := by
  have hbehind := h.behind
  have hlast := h.last
  induction turns generalizing i j array with
  | zero => rfl
  | succ turns ih =>
    rw [splitStrings, splitStrings]
    split
    · next hmore =>
      have hlt : i.toNat < raw.size.toNat := hmore
      obtain ⟨hsame, string, hstring, hend⟩ := fromNullTerm_at h hagree (show i.toNat ≤ k by omega)
      rw [hsame, hstring, ok_bind, ok_bind]
      refine ih ?_
      rw [BitVec.toNat_add, BitVec.toNat_add]
      change (i.toNat + (string.size.toNat + 1) % 2 ^ 64) % 2 ^ 64 ≤ k + 1
      omega
    · rfl

theorem rewriteCompatible_congr (h : Readable reads m entry.data.raw k) (hagree : AgreeOn reads m mem) :
    DeviceTree.rewriteCompatible mem hhdmBase answers bump entry =
      DeviceTree.rewriteCompatible m hhdmBase answers bump entry := by
  unfold DeviceTree.rewriteCompatible
  dsimp only
  rw [countStrings_congr h hagree]
  simp only [splitStrings_congr h hagree (show (0 : U64).toNat ≤ k + 1 from Nat.zero_le _)]

end Value

section Reading

variable {reads : U64 → Prop} {m mem : Mem} {hhdmBase : U64} {answers : Answers} {bump bump' : Bump.State}
  {parent : Option Cells} {own : Cells} {nameView : StrView} {raw : ByteView} {first entry' : Entry}
  {prop next : U64} {k : Nat}

theorem type_of_pairs {nPairs : U64} {list : List (Option U128 × Option U64)}
    (h : entry'.content m = .pairs nPairs list) : entry'.type = .reg := by
  cases htype : entry'.type
  case reg => rfl
  all_goals
    rw [Entry.content, htype] at h
    cases h

theorem type_of_triples {nTrips : U64} {list : List (U64 × U64 × Option U64)}
    (h : entry'.content m = .triples nTrips list) :
    entry'.type = .ranges ∧ entry'.data.word0 = nTrips ∧ entry'.triples = list := by
  cases htype : entry'.type
  case ranges =>
    rw [Entry.content, htype] at h
    obtain ⟨hcount, hlist⟩ := Content.triples.inj h
    exact ⟨rfl, hcount, hlist⟩
  all_goals
    rw [Entry.content, htype] at h
    cases h

/-- Whatever only the first lap decodes has no arrays. -/
theorem firstTurn_reading (h : FirstTurn m hhdmBase answers (Entry.ofRaw nameView raw) first)
    (hcompatible : keywordOf m nameView ≠ some .compatible) (hreadable : Readable reads m raw k)
    (hagree : AgreeOn reads m mem) (name : StrView) (strings : List StrView)
    (pairs : List (Option U128 × Option U64)) (triples : List (U64 × U64 × Option U64)) :
    Entry.content mem { first with name := name, strings := strings, pairs := pairs, triples := triples } =
      first.content m := by
  obtain ⟨-, hcontent⟩ := firstTurn_content h hcompatible
  rw [hcontent]
  obtain ⟨cells, cells', bump, bump', err, hturn, -⟩ := h
  have hbytes := hreadable.bytes hagree
  unfold DeviceTree.rewriteFirst at hturn
  rw [show (Entry.ofRaw nameView raw).name = nameView by rfl] at hturn
  generalize keywordOf m nameView = keyword at *
  cases keyword with
  | none =>
    obtain ⟨-, rfl, -⟩ := ok_triple_inj hturn
    exact congrArg Content.raw hbytes
  | some keyword =>
    cases keyword
    case compatible => exact absurd rfl hcompatible
    case status =>
      obtain ⟨-, rfl, -⟩ := ok_triple_inj hturn
      have hstatus := @rewriteStatus_congr reads m mem k (Data.ofRaw raw) hreadable hagree
      rw [show firstContent m raw (some .status) = statusContent m raw by rfl,
        ← statusContent_congr hreadable hagree, ← rewriteStatus_content mem raw nameView, hstatus]
      rfl
    case phandle | virtualReg | interruptParent | interruptCells =>
      obtain ⟨-, rfl, -⟩ := ok_triple_inj hturn
      exact congrArg Content.integer (Data.low32_setLow32 _ _)
    case addressCells | sizeCells =>
      dsimp only at hturn
      split at hturn
      all_goals
        obtain ⟨-, rfl, -⟩ := ok_triple_inj hturn
        exact congrArg Content.integer (Data.low32_setLow32 _ _)
    case dmaCoherent | dmaNoncoherent =>
      obtain ⟨-, rfl, -⟩ := ok_triple_inj hturn
      exact congrArg Content.flag (Data.flag_setFlag _ _)
    case model | deviceType =>
      obtain ⟨-, rfl, -⟩ := ok_triple_inj hturn
      exact congrArg Content.string hbytes
    case interruptController =>
      obtain ⟨-, rfl, -⟩ := ok_triple_inj hturn
      rfl
    all_goals
      obtain ⟨-, rfl, -⟩ := ok_triple_inj hturn
      exact congrArg Content.raw hbytes

/-- A list of strings that is held reads back. -/
theorem compatible_reading
    (h : DeviceTree.rewriteCompatible m hhdmBase answers bump (Entry.ofRaw nameView raw) =
      .ok (entry', bump')) (hreadable : Readable reads m raw k) (hagree : AgreeOn reads m mem)
    (hheld : StringsHeld entry' mem) : entry'.type = .compatible ∧
      stringsAt mem entry'.data.word0 (countStrings m raw + 1) = entry'.strings ∧
      entry'.strings.map (StrView.bytes mem) = entry'.strings.map (StrView.bytes m) := by
  have hcongr := (@rewriteCompatible_congr reads m mem k hhdmBase answers bump
    (Entry.ofRaw nameView raw) hreadable hagree).trans h
  have hlen := raw.length_bytes m
  have hlen' := raw.length_bytes mem
  obtain ⟨-, htype, hbytes⟩ := rewriteCompatible_strings (raw.denotes_bytes m)
    (by rw [hlen]; exact raw.size.isLt) h
  obtain ⟨-, -, hbytes'⟩ := rewriteCompatible_strings (raw.denotes_bytes mem)
    (by rw [hlen']; exact raw.size.isLt) hcongr
  have hsame : raw.bytes mem = raw.bytes m := hreadable.bytes hagree
  refine ⟨htype, ?_, ?_⟩
  · obtain ⟨⟨array, bump₁⟩, -, h⟩ := bind_eq_ok.mp h
    obtain ⟨-, -, h⟩ := bind_eq_ok.mp h
    obtain ⟨strings, -, h⟩ := bind_eq_ok.mp h
    obtain ⟨rfl, -⟩ := Prod.mk.inj (pure_eq_ok.mp h)
    have hcount := hheld
    rw [StringsHeld, List.length_map, List.length_range] at hcount
    exact hcount
  · rw [hbytes', hbytes, hsame]

/-- So does one with pairs, and one with triples. -/
theorem reg_reading (hkeyword : keywordOf m entry'.name = some .reg)
    (h : DeviceTree.propertyRewriteReg m hhdmBase answers parent bump (Entry.ofRaw nameView raw) =
      .ok (entry', bump')) (hheld : ArraysHeld m parent own entry' mem) : entry'.type = .reg ∧
      (parent.elim [] fun p => pairsAt mem p entry'.data) = entry'.pairs := by
  obtain ⟨p, _, _, n, rfl, haddress, hsize, -, -, -, hrows, hcontent⟩ := propertyRewriteReg_eq_ok h
  rw [ArraysHeld, hkeyword] at hheld
  exact ⟨type_of_pairs (hcontent m), pairsAt_eq haddress hsize hrows (hheld p rfl)⟩

theorem ranges_reading
    (hkeyword : keywordOf m entry'.name = some .ranges ∨ keywordOf m entry'.name = some .busRanges)
    (h : DeviceTree.propertyRewriteRanges m hhdmBase answers parent own bump (Entry.ofRaw nameView raw) =
      .ok (entry', bump')) (hheld : ArraysHeld m parent own entry' mem) : entry'.type = .ranges ∧
      (parent.elim [] fun p => triplesAt mem p own entry'.data) = entry'.triples := by
  have hheld : entry'.data.word0 = 0 ∨ ∀ p, parent = some p → RangesHeld p own entry' mem := by
    unfold ArraysHeld at hheld
    rcases hkeyword with hkeyword | hkeyword <;> rwa [hkeyword] at hheld
  obtain ⟨-, hcontent⟩ | ⟨p, _, _, _, n, w, rfl, hsize, hn, hpos, -, hlength, hrows, hcontent⟩ :=
    propertyRewriteRanges_eq_ok h
  · obtain ⟨htype, hcount, htriples⟩ := type_of_triples (hcontent m)
    rw [htriples]
    refine ⟨htype, ?_⟩
    cases parent with
    | none => rfl
    | some p =>
      rw [Option.elim_some, triplesAt, hcount]
      rfl
  · obtain ⟨htype, hcount, -⟩ := type_of_triples (hcontent m)
    refine ⟨htype, triplesAt_eq hsize hrows ?_⟩
    rcases hheld with hzero | hheld
    · -- there is a triple, so the count is not zero
      have hlt := raw.size.isLt
      have hfits : n ≤ w * n := Nat.le_mul_of_pos_left n hpos
      change w * n = raw.size.toNat at hlength
      have hnone := congrArg BitVec.toNat (hcount.symm.trans hzero)
      rw [toNat_ofNat_of_lt (by omega)] at hnone
      exact absurd hnone hn.ne'
    · exact hheld p rfl

/-- A property that the pass has left in memory, with its arrays, says what the pass on the
tree has made of it. -/
theorem contentAt_eq (hrecord : PropertyAt mem prop next entry')
    (hrewritten : Rewritten m hhdmBase answers parent own (Entry.ofRaw nameView raw) entry')
    (hreadable : Readable reads m raw k) (hagree : AgreeOn reads m mem)
    (harrays : ArraysHeld m parent own entry' mem) :
    contentAt mem own parent (countStrings m raw + 1) prop = some (entry'.content m) := by
  obtain ⟨first, hfirst, hsecond⟩ := hrewritten
  have hfirstName : first.name = nameView := by
    obtain ⟨_, _, _, _, _, hturn, -⟩ := hfirst
    exact rewriteFirst_name hturn
  have hname : entry'.name = nameView := by
    obtain ⟨_, _, hturn⟩ := hsecond
    exact (rewriteSecond_name hturn).trans hfirstName
  rw [contentAt, hrecord.type, PropertyType.ofVal_val, Option.map_some, hrecord.data]
  refine congrArg some ?_
  by_cases hrows : ∃ keyword, keywordOf m nameView = some keyword ∧ keyword.IsRows
  · obtain ⟨keyword, hkeyword, hrows⟩ := hrows
    obtain rfl := firstTurn_rows hfirst hkeyword hrows
    obtain ⟨bump, bump', hturn⟩ := hsecond
    unfold DeviceTree.rewriteSecond at hturn
    rw [hfirstName, hkeyword] at hturn
    rw [← hname] at hkeyword
    obtain rfl | rfl | rfl := hrows
    · obtain ⟨htype, hpairs⟩ := reg_reading hkeyword hturn harrays
      simp only [Entry.content, htype, hpairs]
    · obtain ⟨htype, htriples⟩ := ranges_reading (.inl hkeyword) hturn harrays
      simp only [Entry.content, htype, htriples]
    · obtain ⟨htype, htriples⟩ := ranges_reading (.inr hkeyword) hturn harrays
      simp only [Entry.content, htype, htriples]
  obtain rfl : entry' = first := secondTurn_other hsecond fun keyword hkeyword hother =>
    hrows ⟨keyword, hfirstName ▸ hkeyword, hother⟩
  by_cases hcompatible : keywordOf m nameView = some .compatible
  · obtain ⟨bump, bump', hrewrite⟩ := firstTurn_compatible hfirst hcompatible
    rw [ArraysHeld, hname, hcompatible] at harrays
    obtain ⟨htype, hstrings, hbytes⟩ := compatible_reading hrewrite hreadable hagree harrays
    simp only [Entry.content, htype, hstrings, hbytes]
  · exact firstTurn_reading hfirst hcompatible hreadable hagree _ _ _ _

end Reading

end InMemory

end Octiron.DeviceTree
