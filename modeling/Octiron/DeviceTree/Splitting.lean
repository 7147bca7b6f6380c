import Octiron.DeviceTree.CompatibleRecords

/-! The two loops of the `compatible` branch on any value at all: one counts the NULs and
the other goes from string to string, and they agree on the number of records. -/
namespace Octiron.DeviceTree

open Lib.Word Lib.ByteMemory Exec

section Loops

variable (m : Mem) (raw : ByteView)

/-- The assignments to the array that `splitStrings` makes, each with its index, in
order. -/
def splitStores : Nat → U64 → Nat → Exec (List (Nat × StrView))
  | 0, _, _ => .error .endless
  | turns + 1, i, j =>
    if i < raw.size then do
      let string ← StrView.fromNullTerm m (raw.data + i)
      let stores ← splitStores turns (i + (string.size + 1)) (j + 1)
      return (j, string) :: stores
    else .ok []

/-- At the end of the value or further on there is a NUL; no object is as long as the
address space. -/
def Followed : Prop :=
  ∃ k, raw.size.toNat ≤ k ∧ k + 1 < 2 ^ 64 ∧ m (raw.data + BitVec.ofNat 64 k) = 0

end Loops

/-- The value is empty or ends in NUL. -/
def Terminated (value : List U8) : Prop := value = [] ∨ value.getLast? = some 0

def applyStores (array : Nat → StrView) (stores : List (Nat × StrView)) : Nat → StrView :=
  stores.foldl (fun array store => Function.update array store.1 store.2) array

section Terminated

theorem Terminated.rest {s rest : List U8} (h : Terminated (s ++ 0 :: rest)) : Terminated rest := by
  rcases h with hnil | hlast
  · simp at hnil
  · cases rest with
    | nil => exact .inl rfl
    | cons b rest =>
      rw [List.getLast?_append_cons, List.getLast?_cons_cons] at hlast
      exact .inr hlast

end Terminated

section Counting

variable {m : Mem} {raw : ByteView}

end Counting

section Stores

variable {m : Mem} {raw : ByteView} {turns j : Nat} {i : U64} {array : Nat → StrView}

/-- The loop of the model makes exactly these assignments. -/
theorem splitStrings_eq_stores : splitStrings m raw turns i j array =
    (splitStores m raw turns i j) >>= fun stores => .ok (applyStores array stores) := by
  induction turns generalizing i j array with
  | zero => rfl
  | succ turns ih =>
    rw [splitStrings, splitStores]
    split
    · cases StrView.fromNullTerm m (raw.data + i) with
      | error stop => rfl
      | ok string =>
        rw [ok_bind, ok_bind, ih]
        cases splitStores m raw turns (i + (string.size + 1)) (j + 1) with
        | error stop => rfl
        | ok stores => rfl
    · rfl

/-- A NUL behind the value ends the search from byte `k` of it on. -/
theorem string_past_end {before rest : List U8}
    (hdenotes : Denotes m raw.data raw.size (before ++ rest))
    (hlen : (before ++ rest).length < 2 ^ 64) (hfollowed : Followed m raw) (hfree : 0 ∉ rest) :
    ∃ string, StrView.fromNullTerm m (raw.data + BitVec.ofNat 64 before.length) = .ok string ∧
      ¬ BitVec.ofNat 64 before.length + (string.size + 1) < raw.size := by
  obtain ⟨k, hk, hlast, hzero⟩ := hfollowed
  have hsize : raw.size.toNat = before.length + rest.length := by
    rw [hdenotes.1, toNat_ofNat_of_lt hlen, List.length_append]
  have hoffset : m (raw.data + BitVec.ofNat 64 before.length +
      BitVec.ofNat 64 (k - before.length)) = 0 := by
    rw [add_ofNat_add, Nat.add_sub_cancel' (by omega), hzero]
  obtain ⟨len, hle, hstrlen, hend⟩ := Memory.strlen_of_zero (by omega) hoffset
  have hpast : rest.length ≤ len := by
    by_contra hshort
    have hbyte := (holds_append.mp hdenotes.2).2.apply (Nat.lt_of_not_le hshort)
    rw [hend] at hbyte
    exact hfree (hbyte ▸ List.getElem_mem _)
  refine ⟨⟨_, BitVec.ofNat 64 len⟩, by rw [StrView.fromNullTerm, hstrlen]; rfl, ?_⟩
  rw [BitVec.lt_def, BitVec.toNat_add, BitVec.toNat_add, toNat_ofNat_of_lt (by omega),
    toNat_ofNat_of_lt (by omega), hsize]
  change ¬ (before.length + (len + 1) % 2 ^ 64) % 2 ^ 64 < _
  omega

theorem splitStores_end (hend : ¬ i < raw.size) (hturns : 0 < turns) :
    splitStores m raw turns i j = .ok [] := by
  obtain ⟨turns, rfl⟩ := Nat.exists_eq_succ_of_ne_zero hturns.ne'
  exact if_neg hend

/-- The loop ends, and no index is beyond the count of the NULs that are left; if the last
byte is one, each string has its record. -/
theorem splitStores_spec {before rest : List U8}
    (hdenotes : Denotes m raw.data raw.size (before ++ rest))
    (hlen : (before ++ rest).length < 2 ^ 64) (hfollowed : Followed m raw)
    (hturns : rest.length < turns) :
    ∃ stores, splitStores m raw turns (BitVec.ofNat 64 before.length) j = .ok stores ∧
      (∀ store ∈ stores, store.1 ≤ j + rest.count 0) ∧
      (Terminated rest →
        stores.map (fun store => store.1) = List.range' j (rest.count 0) ∧
        stores.map (fun store => store.2.bytes m) = segments rest) := by
  induction turns generalizing before rest j with
  | zero => exact absurd hturns (Nat.not_lt_zero _)
  | succ turns ih =>
    by_cases hnone : 0 ∉ rest
    · cases rest with
      | nil =>
        have hsize : BitVec.ofNat 64 before.length = raw.size := by
          rw [hdenotes.1, List.append_nil]
        refine ⟨[], splitStores_end (by rw [hsize]; simp) (Nat.succ_pos _), List.forall_mem_nil _, ?_⟩
        exact fun _ => ⟨rfl, rfl⟩
      | cons b rest =>
        obtain ⟨string, hstring, hend⟩ := string_past_end hdenotes hlen hfollowed hnone
        have hbefore : BitVec.ofNat 64 before.length < raw.size := by
          rw [List.length_append, List.length_cons] at hlen
          rw [hdenotes.1, BitVec.lt_def, toNat_ofNat_of_lt (by omega),
            toNat_ofNat_of_lt (by simp; omega), List.length_append, List.length_cons]
          omega
        rw [List.length_cons] at hturns
        refine ⟨[(j, string)], ?_, ?_, ?_⟩
        · rw [splitStores, if_pos hbefore, hstring, ok_bind, splitStores_end hend (by omega)]
          rfl
        · rintro store hstore
          rw [List.mem_singleton.mp hstore]
          exact Nat.le_add_right j _
        · rintro (hnil | hlast)
          · cases hnil
          · exact absurd (List.mem_of_getLast? hlast) hnone
    · obtain ⟨s, rest, rfl, hs⟩ := List.eq_append_cons_of_mem (not_not.mp hnone)
      obtain ⟨hbefore, hstring, hnext, hbytes⟩ := string_at hdenotes hlen hs
      have hlist : before ++ (s ++ 0 :: rest) = before ++ (s ++ [0]) ++ rest := by simp
      rw [hlist] at hdenotes hlen
      rw [List.length_append, List.length_cons] at hturns
      obtain ⟨stores, hstores, hindices, hrecords⟩ :=
        @ih (j + 1) (before ++ (s ++ [0])) rest hdenotes hlen (by omega)
      have hcount : (s ++ 0 :: rest).count 0 = rest.count 0 + 1 := count_append_zero hs
      refine ⟨(j, ⟨raw.data + BitVec.ofNat 64 before.length, BitVec.ofNat 64 s.length⟩) :: stores,
        ?_, ?_, ?_⟩
      · rw [splitStores, if_pos hbefore, hstring, ok_bind, hnext, hstores]
        rfl
      · rintro store hstore
        rw [hcount]
        rcases List.mem_cons.mp hstore with rfl | hlater
        · exact Nat.le_add_right j _
        · have hle := hindices store hlater
          omega
      · intro hterminated
        obtain ⟨hfirst, hsecond⟩ := hrecords hterminated.rest
        rw [List.map_cons, List.map_cons, hfirst, hsecond, hbytes, hcount, segments_append hs]
        exact ⟨rfl, rfl⟩

end Stores

/-- The splitting loop from the first byte of the value on. -/
theorem splitStores_value {m : Mem} {raw : ByteView} (hfollowed : Followed m raw) :
    ∃ stores, splitStores m raw (raw.size.toNat + 1) 0 0 = .ok stores ∧
      (∀ array, splitStrings m raw (raw.size.toNat + 1) 0 0 array = .ok (applyStores array stores)) ∧
      (∀ store ∈ stores, store.1 ≤ countStrings m raw) ∧
      (Terminated (raw.bytes m) →
        stores.map (fun store => store.1) = List.range (countStrings m raw) ∧
        stores.map (fun store => store.2.bytes m) = segments (raw.bytes m)) := by
  have hlength := raw.length_bytes m
  obtain ⟨stores, hstores, hindices, hrecords⟩ :=
    @splitStores_spec m raw (raw.size.toNat + 1) 0 [] (raw.bytes m) (raw.denotes_bytes m)
      (hlength ▸ raw.size.isLt) hfollowed (by rw [hlength]; omega)
  rw [Nat.zero_add] at hindices
  refine ⟨stores, hstores, fun array => ?_, hindices, fun hterminated => ?_⟩
  · rw [splitStrings_eq_stores]
    exact congrArg (· >>= _) hstores
  · rw [List.range_eq_range']
    exact hrecords hterminated

section Branch

variable {m : Mem} {hhdmBase array : U64} {answers : Pmm.Answers} {bump bump' : Bump.State}
  {prop : Entry}

/-- The branch returns as soon as it has its block. -/
theorem rewriteCompatible_returns (hfollowed : Followed m prop.data.raw) (hnull : array ≠ 0)
    (halloc : Bump.allocAligned hhdmBase answers bump
      (recordsSize (countStrings m prop.data.raw + 1)) 8 = .ok (array, bump')) :
    ∃ prop', rewriteCompatible m hhdmBase answers bump prop = .ok (prop', bump') := by
  obtain ⟨stores, -, hrun, -⟩ := splitStores_value hfollowed
  rw [recordsSize] at halloc
  rw [rewriteCompatible]
  simp only [halloc, ok_bind, bne_iff_ne.mpr hnull, kassert_true, hrun]
  exact ⟨_, rfl⟩

end Branch

end Octiron.DeviceTree
