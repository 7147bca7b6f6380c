import Octiron.DeviceTree.Rewrite

/-! What the names and the values of a property decide: the keyword that a name is
compared equal to, and the strings that a list is split into. -/
namespace Octiron.DeviceTree

open Lib.Word Lib.ByteMemory Exec

section Names

variable {m : Mem} {name : StrView} {bytes : List U8}

def keywordOfBytes (bytes : List U8) : Option Keyword :=
  keywords.find? fun keyword => literal keyword.text == bytes

theorem compare_eq_zero {text : List U8} :
    name.compare m text = 0 ↔ text = name.bytes m := compareBytes_eq_zero

theorem keywordOf_bytes : keywordOf m name = keywordOfBytes (name.bytes m) := by
  have hcompare : ∀ keyword : Keyword,
      (name.compare m (literal keyword.text) == 0) = (literal keyword.text == name.bytes m) := by
    intro keyword
    rw [Bool.eq_iff_iff, beq_iff_eq, beq_iff_eq, compare_eq_zero]
  simp only [keywordOf, keywordOfBytes, hcompare]

theorem keywordOf_eq (h : Denotes m name.data name.size bytes) (hlen : bytes.length < 2 ^ 64) :
    keywordOf m name = keywordOfBytes bytes := by
  rw [keywordOf_bytes, h.bytes hlen]

theorem bytes_of_keywordOf {keyword : Keyword} (h : keywordOf m name = some keyword) :
    name.bytes m = literal keyword.text := by
  have hcompare := List.find?_some h
  exact (compare_eq_zero.mp (beq_iff_eq.mp hcompare)).symm

/-- The texts differ, so the order of the comparisons is of no account. -/
theorem keywordOf_eq_some_iff {keyword : Keyword} :
    keywordOf m name = some keyword ↔ name.bytes m = literal keyword.text := by
  refine ⟨bytes_of_keywordOf, fun h => ?_⟩
  rw [keywordOf_bytes, h]
  cases keyword <;> decide

end Names

/-- The strings of a value, each ended by a NUL; a tail without one is none. -/
def segments (value : List U8) : List (List U8) := (value.splitOn 0).dropLast

theorem segments_of_not_mem {value : List U8} (h : 0 ∉ value) : segments value = [] := by
  rw [segments, List.splitOn_eq_singleton h]
  rfl

theorem segments_append {s rest : List U8} (h : 0 ∉ s) :
    segments (s ++ 0 :: rest) = s :: segments rest := by
  rw [segments, List.splitOn_append_cons_self_of_not_mem h]
  exact List.dropLast_cons_of_ne_nil (List.splitOn_ne_nil _ _)

theorem count_append_zero {s rest : List U8} (h : 0 ∉ s) :
    (s ++ 0 :: rest).count 0 = rest.count 0 + 1 := by
  rw [List.count_append, List.count_eq_zero.mpr h, List.count_cons_self, Nat.zero_add]

section Splitting

variable {m : Mem} {raw : ByteView} {turns j : Nat} {array array' : Nat → StrView}

/-- The loop leaves the records before its own alone. -/
theorem splitStrings_frame {i : U64} (h : splitStrings m raw turns i j array = .ok array')
    {k : Nat} (hk : k < j) : array' k = array k := by
  induction turns generalizing i j array with
  | zero => exact nomatch h
  | succ turns ih =>
    unfold splitStrings at h
    split at h
    · obtain ⟨string, -, h⟩ := bind_eq_ok.mp h
      rw [ih h (hk.trans (Nat.lt_succ_self j))]
      exact Function.update_of_ne hk.ne _ _
    · rw [Except.ok.inj h]

/-- The string that stands at the front of the rest of a value: where the loop is, what it
finds there and where it goes on. -/
theorem string_at {before s rest : List U8}
    (hdenotes : Denotes m raw.data raw.size (before ++ (s ++ 0 :: rest)))
    (hlen : (before ++ (s ++ 0 :: rest)).length < 2 ^ 64) (hs : 0 ∉ s) :
    BitVec.ofNat 64 before.length < raw.size ∧
      StrView.fromNullTerm m (raw.data + BitVec.ofNat 64 before.length) =
        .ok ⟨raw.data + BitVec.ofNat 64 before.length, BitVec.ofNat 64 s.length⟩ ∧
      BitVec.ofNat 64 before.length + (BitVec.ofNat 64 s.length + 1) =
        BitVec.ofNat 64 (before ++ (s ++ [0])).length ∧
      StrView.bytes m ⟨raw.data + BitVec.ofNat 64 before.length, BitVec.ofNat 64 s.length⟩ = s := by
  have hlength : (before ++ (s ++ 0 :: rest)).length =
      before.length + (s.length + (rest.length + 1)) := by simp
  have hs_lt : s.length < 2 ^ 64 := by omega
  have hstring : Holds m (raw.data + BitVec.ofNat 64 before.length) (s ++ [0]) := by
    have hrest := (holds_append.mp hdenotes.2).2
    rw [show s ++ 0 :: rest = (s ++ [0]) ++ rest by simp] at hrest
    exact (holds_append.mp hrest).1
  refine ⟨?_, StrView.fromNullTerm_of_holds hstring hs hs_lt, ?_, ?_⟩
  · rw [hdenotes.1, BitVec.lt_def, toNat_ofNat_of_lt hlen, toNat_ofNat_of_lt (by omega)]
    omega
  · rw [List.length_append, List.length_append, BitVec.ofNat_add, BitVec.ofNat_add]
    rfl
  · exact Denotes.bytes ⟨rfl, (holds_append.mp hstring).1⟩ hs_lt

/-- The records from `j` on are the strings that the rest of the value holds. -/
theorem splitStrings_segments {before rest : List U8}
    (hdenotes : Denotes m raw.data raw.size (before ++ rest))
    (hlen : (before ++ rest).length < 2 ^ 64)
    (h : splitStrings m raw turns (BitVec.ofNat 64 before.length) j array = .ok array') :
    (List.range (rest.count 0)).map (fun k => (array' (j + k)).bytes m) = segments rest := by
  induction turns generalizing before rest j array with
  | zero => exact nomatch h
  | succ turns ih =>
    by_cases hnone : 0 ∉ rest
    · rw [List.count_eq_zero.mpr hnone, segments_of_not_mem hnone]
      rfl
    obtain ⟨s, rest, rfl, hs⟩ := List.eq_append_cons_of_mem (not_not.mp hnone)
    obtain ⟨hbefore, hstring, hnext, hbytes⟩ := string_at hdenotes hlen hs
    unfold splitStrings at h
    rw [if_pos hbefore, hstring, ok_bind] at h
    have hlist : before ++ (s ++ 0 :: rest) = before ++ (s ++ [0]) ++ rest := by simp
    rw [hnext] at h
    rw [hlist] at hdenotes hlen
    have htail := ih hdenotes hlen h
    have hhead : array' j = ⟨raw.data + BitVec.ofNat 64 before.length, BitVec.ofNat 64 s.length⟩ :=
      (splitStrings_frame h (Nat.lt_succ_self j)).trans (Function.update_self _ _ _)
    have hcount : (s ++ 0 :: rest).count 0 = rest.count 0 + 1 := count_append_zero hs
    rw [hcount, List.range_succ_eq_map, List.map_cons, List.map_map, Nat.add_zero, hhead, hbytes,
      segments_append hs, ← htail]
    congr 1
    apply List.map_congr_left
    intro k _
    rw [Function.comp_apply, Nat.succ_eq_add_one, Nat.add_assoc, Nat.add_comm 1 k]

/-- A rewritten `compatible` lists the strings of its value, and then an empty one. -/
theorem rewriteCompatible_strings {hhdmBase : U64} {answers : Pmm.Answers} {bump bump' : Bump.State}
    {prop prop' : Entry} {value : List U8}
    (hdenotes : Denotes m prop.data.raw.data prop.data.raw.size value)
    (hlen : value.length < 2 ^ 64)
    (h : rewriteCompatible m hhdmBase answers bump prop = .ok (prop', bump')) :
    prop'.name = prop.name ∧ prop'.type = .compatible ∧
      prop'.strings.map (StrView.bytes m) = segments value ++ [[]] := by
  obtain ⟨⟨array, bump₁⟩, -, h⟩ := bind_eq_ok.mp h
  obtain ⟨-, -, h⟩ := bind_eq_ok.mp h
  obtain ⟨strings, hstrings, h⟩ := bind_eq_ok.mp h
  obtain ⟨rfl, -⟩ := Prod.mk.inj (pure_eq_ok.mp h)
  refine ⟨rfl, rfl, ?_⟩
  have hcount : countStrings m prop.data.raw = value.count 0 := by
    rw [countStrings]
    exact congrArg (List.count 0) (Denotes.bytes (s := StrView.ofByteView prop.data.raw) hdenotes hlen)
  have hsegments := @splitStrings_segments _ _ _ _ _ _ [] _ hdenotes hlen hstrings
  dsimp only
  rw [hcount, List.map_map, List.range_succ, List.map_append, ← hsegments]
  congr 1
  · apply List.map_congr_left
    intro k hk
    rw [Function.comp_apply, Function.update_of_ne (List.mem_range.mp hk).ne, Nat.zero_add]
  · simp [StrView.bytes, bytesFrom]

end Splitting

end Octiron.DeviceTree
