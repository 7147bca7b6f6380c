import Octiron.DeviceTree.Arrays
import Octiron.DeviceTree.Locality

/-! The records of a `compatible` list.  Each is a `str_view`, of two words, and the
block is asked for with one word for each. -/
namespace Octiron.DeviceTree

open Lib.Word Lib.ByteMemory Lib.Elements Exec Pmm

/-- A pointer and a length. -/
def sizeofStrView : Nat := 16

/-- What `rewriteCompatible` asks for: `sizeof(str_view*)` for each record. -/
def recordsSize (n : Nat) : U64 := 8 * BitVec.ofNat 64 n

section Strings

variable {strings : List (List U8)}

/-- The value of a list: every string ends with a NUL. -/
def encodeStrings (strings : List (List U8)) : List U8 := strings.flatMap fun s => s ++ [0]

theorem segments_encodeStrings (hfree : ∀ s ∈ strings, 0 ∉ s) :
    segments (encodeStrings strings) = strings := by
  induction strings with
  | nil => exact segments_of_not_mem (by simp [encodeStrings])
  | cons s rest ih =>
    have hs : encodeStrings (s :: rest) = s ++ 0 :: encodeStrings rest := by simp [encodeStrings]
    rw [hs, segments_append (hfree s List.mem_cons_self),
      ih fun t ht => hfree t (List.mem_cons_of_mem s ht)]

theorem count_encodeStrings (hfree : ∀ s ∈ strings, 0 ∉ s) :
    (encodeStrings strings).count 0 = strings.length := by
  induction strings with
  | nil => rfl
  | cons s rest ih =>
    have hs : encodeStrings (s :: rest) = s ++ 0 :: encodeStrings rest := by simp [encodeStrings]
    rw [hs, count_append_zero (hfree s List.mem_cons_self),
      ih fun t ht => hfree t (List.mem_cons_of_mem s ht), List.length_cons]

end Strings

section Records

variable {m : Mem} {hhdmBase : U64} {answers : Answers} {bump bump' : Bump.State}
  {prop prop' : Entry} {strings : List (List U8)}

/-- Two words for each record do not fit in one. -/
theorem not_recordsInside (array : U64) (n : Nat) (hn : 0 < n) :
    ¬ ElementsInside array sizeofStrView n (recordsSize n).toNat := by
  rw [elementsInside_iff (recordsSize n).isLt, recordsSize, BitVec.toNat_mul, BitVec.toNat_ofNat]
  have hword : (8 : U64).toNat * (n % 2 ^ 64) % 2 ^ 64 ≤ 8 * n := by
    refine (Nat.mod_le _ _).trans ?_
    exact Nat.mul_le_mul_left 8 (Nat.mod_le n _)
  have htwo : 8 * n < sizeofStrView * n := Nat.mul_lt_mul_of_pos_right (by decide) hn
  omega

/-- The block of the records, and what is in them. -/
theorem rewriteCompatible_records (hfree : ∀ s ∈ strings, 0 ∉ s)
    (hvalue : Denotes m prop.data.raw.data prop.data.raw.size (encodeStrings strings))
    (hlen : (encodeStrings strings).length < 2 ^ 64)
    (h : rewriteCompatible m hhdmBase answers bump prop = .ok (prop', bump')) :
    Bump.allocAligned hhdmBase answers bump (recordsSize (strings.length + 1)) 8 =
        .ok (prop'.data.word0, bump') ∧
      prop'.data.word0 ≠ 0 ∧ prop'.strings.map (StrView.bytes m) = strings ++ [[]] := by
  have hcount : countStrings m prop.data.raw = strings.length := by
    rw [← count_encodeStrings hfree, countStrings]
    exact congrArg (List.count 0) (Denotes.bytes (s := StrView.ofByteView prop.data.raw) hvalue hlen)
  have hstrings := (rewriteCompatible_strings hvalue hlen h).2.2
  rw [segments_encodeStrings hfree] at hstrings
  obtain ⟨⟨array, bump₁⟩, halloc, h⟩ := bind_eq_ok.mp h
  obtain ⟨_, hnull, h⟩ := bind_eq_ok.mp h
  obtain ⟨array', -, h⟩ := bind_eq_ok.mp h
  obtain ⟨rfl, rfl⟩ := Prod.mk.inj (pure_eq_ok.mp h)
  rw [hcount] at halloc
  exact ⟨halloc, bne_iff_ne.mp (kassert_eq_ok.mp hnull), hstrings⟩

/-- Behind the block, where the second half of the records is, the next block begins. -/
theorem next_in_records {array size alignment : U64} {n j : Nat} (hnull : array ≠ 0)
    (h : Bump.allocAligned hhdmBase answers bump (recordsSize n) 8 = .ok (array, bump'))
    (halign : alignment.toNat = 2 ^ j) (hj : j ≤ 3) (hsize : size ≠ 0)
    (hlist : bump'.regionList ≠ 0)
    (hroom : ¬ bump'.current.end_ < array + recordsSize n + size) :
    ∃ bump'', Bump.allocAligned hhdmBase answers bump' size alignment =
      .ok (array + recordsSize n, bump'') := by
  have hrecords : recordsSize n ≠ 0 := by
    intro hzero
    rw [hzero, Bump.allocAligned, if_pos (.inl rfl)] at h
    exact hnull (ok_pair_inj h).1.symm
  obtain ⟨hregion, hcursor, x, hx⟩ :=
    Bump.allocAligned_cursor (w := ⟨bump, []⟩) h hrecords (by decide)
  have height : (8 : U64).toNat = 2 ^ 3 := rfl
  have hdvd : 2 ^ 3 ∣ (array + recordsSize n).toNat := by
    have harray : 2 ^ 3 ∣ array.toNat := hx ▸ dvd_alignUp height
    have hwhole : 2 ^ 3 ∣ 2 ^ 64 := Nat.pow_dvd_pow 2 (by decide)
    have hsizeDvd : 2 ^ 3 ∣ (recordsSize n).toNat := by
      rw [recordsSize, BitVec.toNat_mul]
      exact (Nat.dvd_mod_iff hwhole).mpr (Nat.dvd_mul_right 8 _)
    rw [BitVec.toNat_add]
    exact (Nat.dvd_mod_iff hwhole).mpr (Nat.dvd_add harray hsizeDvd)
  have haligned : alignUp bump'.current.curr alignment = bump'.current.curr := by
    rw [hcursor]
    exact alignUp_of_dvd halign ((Nat.pow_dvd_pow 2 hj).trans hdvd)
  have hpositive : alignment ≠ 0 := Bump.ne_zero_of_toNat_pos (halign ▸ Nat.two_pow_pos j)
  rw [← hcursor] at hroom ⊢
  exact Bump.allocAligned_at_cursor hregion hlist hsize hpositive haligned hroom

end Records

section Turn

variable {m : Mem} {hhdmBase : U64} {answers : Answers} {cells cells' : Cells}
  {bump bump' : Bump.State} {prop prop' : Entry} {strings : List (List U8)} {err : Error}

/-- Once a `compatible` is processed its records say what they should, but never lie in
their block, and the next request that fits beside it gets the bytes of the last ones. -/
theorem rewriteFirst_records_outside (hname : prop.name.bytes m = literal "compatible")
    (hfree : ∀ s ∈ strings, 0 ∉ s)
    (hvalue : Denotes m prop.data.raw.data prop.data.raw.size (encodeStrings strings))
    (hlen : (encodeStrings strings).length < 2 ^ 64)
    (h : rewriteFirst m hhdmBase answers cells bump prop = .ok (err, prop', cells', bump')) :
    Bump.allocAligned hhdmBase answers bump (recordsSize (strings.length + 1)) 8 =
        .ok (prop'.data.word0, bump') ∧
      prop'.strings.map (StrView.bytes m) = strings ++ [[]] ∧
      ¬ ElementsInside prop'.data.word0 sizeofStrView (strings.length + 1)
        (recordsSize (strings.length + 1)).toNat ∧
      ∀ size alignment j, alignment.toNat = 2 ^ j → j ≤ 3 → size ≠ 0 → bump'.regionList ≠ 0 →
        ¬ bump'.current.end_ < prop'.data.word0 + recordsSize (strings.length + 1) + size →
        ∃ bump'', Bump.allocAligned hhdmBase answers bump' size alignment =
          .ok (prop'.data.word0 + recordsSize (strings.length + 1), bump'') := by
  unfold rewriteFirst at h
  rw [(@keywordOf_eq_some_iff _ _ .compatible).mpr hname] at h
  obtain ⟨⟨rewritten, bump₁⟩, hrewrite, h⟩ := bind_eq_ok.mp h
  cases h
  obtain ⟨hblock, hnull, hstrings⟩ := rewriteCompatible_records hfree hvalue hlen hrewrite
  exact ⟨hblock, hstrings, not_recordsInside _ _ (Nat.succ_pos _),
    fun size alignment j halign hj hsize hlist hroom =>
      next_in_records hnull hblock halign hj hsize hlist hroom⟩

/-- What a completed pass leaves of such a property is what its turn stored. -/
theorem Occurrence.records_outside {parent : Option Cells} {own : Cells}
    (hfree : ∀ s ∈ strings, 0 ∉ s)
    (x : Occurrence parent own (literal "compatible") (encodeStrings strings)) :
    ∃ bump bump', Bump.allocAligned x.hhdmBase x.answers bump (recordsSize (strings.length + 1)) 8 =
        .ok (x.decoded.data.word0, bump') ∧
      ¬ ElementsInside x.decoded.data.word0 sizeofStrView (strings.length + 1)
        (recordsSize (strings.length + 1)).toNat := by
  obtain ⟨bump, bump', hrewrite⟩ := x.compatible_rewrite (by decide)
  obtain ⟨hblock, -, -⟩ :=
    rewriteCompatible_records hfree x.value_denotes x.value_length hrewrite
  exact ⟨bump, bump', hblock, not_recordsInside _ _ (Nat.succ_pos _)⟩

end Turn

section OneString

/-- A list of one string. -/
def oneStringMemory : Mem := ofBytes 0x1000 (literal "compatible" ++ encodeStrings [literal "a"])

def oneString : Entry := Entry.ofRaw ⟨0x1000, 10⟩ ⟨0x100a, 2⟩

theorem oneString_holds : oneString.name.bytes oneStringMemory = literal "compatible" ∧
    Denotes oneStringMemory oneString.data.raw.data oneString.data.raw.size
      (encodeStrings [literal "a"]) := by
  have hholds : Holds oneStringMemory 0x1000
      (literal "compatible" ++ encodeStrings [literal "a"]) := holds_ofBytes _ (by decide)
  obtain ⟨hname, hvalue⟩ := holds_append.mp hholds
  have hdenotes : Denotes oneStringMemory oneString.name.data oneString.name.size
      (literal "compatible") := ⟨rfl, hname⟩
  exact ⟨hdenotes.bytes (by decide), rfl, hvalue⟩

theorem oneString_completes : ∃ err prop' cells' bump', rewriteFirst oneStringMemory
    0xffffffc000000000 Bump.spacedPages ⟨0, 0⟩ Bump.emptyState oneString =
      .ok (err, prop', cells', bump') := by
  have hok : (rewriteFirst oneStringMemory 0xffffffc000000000 Bump.spacedPages ⟨0, 0⟩
      Bump.emptyState oneString).isOk = true := by
    decide +kernel
  obtain ⟨⟨err, prop', cells', bump'⟩, hresult⟩ := exists_ok hok
  exact ⟨err, prop', cells', bump', hresult⟩

theorem oneString_free : ∀ s ∈ [literal "a"], 0 ∉ s := by
  intro s hs
  obtain rfl := List.mem_singleton.mp hs
  decide

theorem rewriteFirst_records_outside_oneString :
    ∃ err prop' cells' bump', rewriteFirst oneStringMemory 0xffffffc000000000 Bump.spacedPages
        ⟨0, 0⟩ Bump.emptyState oneString = .ok (err, prop', cells', bump') ∧
      prop'.strings.map (StrView.bytes oneStringMemory) = [literal "a", []] ∧
      ¬ ElementsInside prop'.data.word0 sizeofStrView 2 (recordsSize 2).toNat := by
  obtain ⟨err, prop', cells', bump', hresult⟩ := oneString_completes
  obtain ⟨-, hstrings, houtside, -⟩ := rewriteFirst_records_outside oneString_holds.1 oneString_free
    oneString_holds.2 (by decide) hresult
  exact ⟨err, prop', cells', bump', hresult, hstrings, houtside⟩

/-- The records of one string are not in their block. -/
theorem not_recordsInside_oneString :
    ¬ ∀ err prop' cells' bump', rewriteFirst oneStringMemory 0xffffffc000000000 Bump.spacedPages
        ⟨0, 0⟩ Bump.emptyState oneString = .ok (err, prop', cells', bump') →
      ElementsInside prop'.data.word0 sizeofStrView 2 (recordsSize 2).toNat := by
  intro hinside
  obtain ⟨err, prop', cells', bump', hresult⟩ := oneString_completes
  exact not_recordsInside _ 2 (by decide) (hinside _ _ _ _ hresult)

end OneString

end Octiron.DeviceTree
