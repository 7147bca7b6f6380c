import Octiron.Riscv.Mapping

/-! What a call of `map_small_page` can end with, for any arguments, and which
addresses its alignment test refuses: `alignof(page_table)` is that of a table
entry, so every multiple of eight passes, and the bits between eight and the page
size get among the flags of the entry. -/
namespace Octiron.Riscv.Sv39

open Lib Lib.Word Lib.ByteMemory Pmm

/-- The state behind the block of a level, if the block goes on. -/
def ensured (answers : Answers) (st : State) (entry : U64) : Option State :=
  if isValid (load64 st.mem entry) then some st
  else match answers st.allocs with
    | .failed _ _ => none
    | .granted page => some (st.install page entry)

/-- The state in which a call looks at its level-0 entry and the address of that
entry, unless it ends before. -/
def reachLevel0 (answers : Answers) (st : State) (root va : U64) : Option (State × U64) :=
  let l2Entry := entryAddr root (vpn va 2)
  (ensured answers st l2Entry).bind fun st =>
    let l1Entry := entryAddr (getAddress (load64 st.mem l2Entry)) (vpn va 1)
    (ensured answers st l1Entry).map fun st =>
      (st, entryAddr (getAddress (load64 st.mem l1Entry)) (vpn va 0))

/-- The four ways a call ends. -/
inductive Ends (answers : Answers) (st : State) (root va pa flags : U64) : Error × State → Prop where
  | refused (htest : ¬ PassesTest va pa) :
      Ends answers st root va pa flags (.ofCode .pagingUnalignedAddr, st)
  | unallocated {err : Error} {st' : State} (htest : PassesTest va pa)
      (hreach : reachLevel0 answers st root va = none) :
      Ends answers st root va pa flags (err.push .pagingAllocFailed, st')
  | occupied {st' : State} {l0Entry : U64} (htest : PassesTest va pa)
      (hreach : reachLevel0 answers st root va = some (st', l0Entry))
      (hvalid : isValid (load64 st'.mem l0Entry) = true) :
      Ends answers st root va pa flags (.ofCode .pagingMapExists, st')
  | written {st' : State} {l0Entry : U64} (htest : PassesTest va pa)
      (hreach : reachLevel0 answers st root va = some (st', l0Entry))
      (hfree : isValid (load64 st'.mem l0Entry) = false) :
      Ends answers st root va pa flags (.ofCode .success,
        { st' with mem := store64 st'.mem l0Entry (tableEntry pa (flags ||| tefValid)) })

section Ends

variable {answers : Answers} {st : State} {root va pa flags : U64}

theorem ensureTable_of_ensured {entry : U64} {st' : State} {rest : Error → State → Error × State}
    (h : ensured answers st entry = some st') :
    ensureTable answers st (.ofCode .success) entry rest = rest (.ofCode .success) st' := by
  cases hvalid : isValid (load64 st.mem entry) with
  | true =>
    rw [ensured, if_pos hvalid] at h
    rw [ensureTable_of_valid hvalid, Option.some.inj h]
  | false =>
    rw [ensured, if_neg (by simp [hvalid])] at h
    cases hanswer : answers st.allocs with
    | failed err herr =>
      rw [hanswer] at h
      cases h
    | granted page =>
      rw [hanswer] at h
      rw [ensureTable_of_granted hvalid hanswer, Option.some.inj h]

theorem ensureTable_of_not_ensured {entry : U64} {rest : Error → State → Error × State}
    (h : ensured answers st entry = none) :
    ∃ err, ensureTable answers st (.ofCode .success) entry rest =
      (Error.push err .pagingAllocFailed, { st with allocs := st.allocs + 1 }) := by
  cases hvalid : isValid (load64 st.mem entry) with
  | true =>
    rw [ensured, if_pos hvalid] at h
    cases h
  | false =>
    rw [ensured, if_neg (by simp [hvalid])] at h
    cases hanswer : answers st.allocs with
    | failed err herr => exact ⟨err, ensureTable_of_failed hvalid hanswer⟩
    | granted page =>
      rw [hanswer] at h
      cases h

theorem mapSmallPage_of_not_passesTest (htest : ¬ PassesTest va pa) :
    mapSmallPage answers st root va pa flags = (.ofCode .pagingUnalignedAddr, st) := by
  rw [mapSmallPage, if_pos]
  rw [Bool.or_eq_true, Bool.not_eq_true', Bool.not_eq_true']
  by_contra hboth
  push Not at hboth
  exact htest ⟨Bool.not_eq_false _ ▸ hboth.1, Bool.not_eq_false _ ▸ hboth.2⟩

/-- Every call ends in one of the four ways. -/
theorem mapSmallPage_ends :
    Ends answers st root va pa flags (mapSmallPage answers st root va pa flags) := by
  by_cases htest : PassesTest va pa
  · rw [mapSmallPage_of_passesTest htest]
    cases h₂ : ensured answers st (entryAddr root (vpn va 2)) with
    | none =>
      obtain ⟨err, heq⟩ := @ensureTable_of_not_ensured answers st _
        (mapAtLevel1 answers va pa flags (entryAddr root (vpn va 2))) h₂
      rw [heq]
      exact .unallocated htest (by rw [reachLevel0, h₂, Option.bind_none])
    | some st₁ =>
      rw [ensureTable_of_ensured h₂, mapAtLevel1]
      set l2Entry := entryAddr root (vpn va 2) with hl2
      set l1Entry := entryAddr (getAddress (load64 st₁.mem l2Entry)) (vpn va 1) with hl1
      cases h₁ : ensured answers st₁ l1Entry with
      | none =>
        obtain ⟨err, heq⟩ := @ensureTable_of_not_ensured answers st₁ _
          (mapAtLevel0 va pa flags l1Entry) h₁
        rw [heq]
        refine .unallocated htest ?_
        simp only [reachLevel0, ← hl2, h₂, Option.bind_some, ← hl1, h₁, Option.map_none]
      | some st₂ =>
        have hreach : reachLevel0 answers st root va =
            some (st₂, entryAddr (getAddress (load64 st₂.mem l1Entry)) (vpn va 0)) := by
          simp only [reachLevel0, ← hl2, h₂, Option.bind_some, ← hl1, h₁, Option.map_some]
        rw [ensureTable_of_ensured h₁, mapAtLevel0]
        split
        · rename_i hvalid
          exact .occupied htest hreach hvalid
        · rename_i hfree
          exact .written htest hreach (Bool.not_eq_true _ ▸ hfree)
  · rw [mapSmallPage_of_not_passesTest htest]
    exact .refused htest

end Ends

theorem ofCode_injective : Function.Injective Error.ofCode := by
  intro code code' heq
  apply ErrorCode.val_injective
  rw [← Error.top_ofCode, heq, Error.top_ofCode]

section Claim

variable (answers : Answers) (st : State) (root va pa flags : U64)

/-- Unaligned addresses are refused and nothing is changed. -/
def RefusesUnaligned : Prop :=
  ¬ (isAligned va pageSize = true ∧ isAligned pa pageSize = true) →
    mapSmallPage answers st root va pa flags = (.ofCode .pagingUnalignedAddr, st)

/-- The level-0 entry of a successful call has the flags and the address it was
given, and is the last thing the call wrote. -/
def WritesCleanEntry : Prop :=
  ∀ st', mapSmallPage answers st root va pa flags = (.ofCode .success, st') →
    ∃ before l0Entry, reachLevel0 answers st root va = some (before, l0Entry) ∧
      st'.mem = store64 before.mem l0Entry (load64 st'.mem l0Entry) ∧
      load64 st'.mem l0Entry &&& 0x3FF = flags ||| tefValid ∧
      getAddress (load64 st'.mem l0Entry) = pa

end Claim

section Aligned

variable {answers : Answers} {st : State} {root va pa flags : U64}

/-- A call whose addresses pass the test does not answer that they are unaligned. -/
theorem mapSmallPage_ne_unaligned (htest : PassesTest va pa) :
    (mapSmallPage answers st root va pa flags).1 ≠ .ofCode .pagingUnalignedAddr := by
  generalize hresult : mapSmallPage answers st root va pa flags = result
  have hends := hresult ▸ @mapSmallPage_ends answers st root va pa flags
  cases hends with
  | refused hrefused => exact absurd htest hrefused
  | unallocated => exact push_pagingAllocFailed_ne _ (by decide)
  | occupied => exact ofCode_injective.ne (by decide)
  | written => exact ofCode_injective.ne (by decide)

/-- A successful call wrote an entry for its arguments and ended there. -/
theorem mapSmallPage_success {st' : State}
    (hcall : mapSmallPage answers st root va pa flags = (.ofCode .success, st')) :
    ∃ before l0Entry, reachLevel0 answers st root va = some (before, l0Entry) ∧
      st' = { before with
        mem := store64 before.mem l0Entry (tableEntry pa (flags ||| tefValid)) } := by
  have hends := hcall ▸ @mapSmallPage_ends answers st root va pa flags
  generalize hresult : (Error.ofCode .success, st') = result at hends
  obtain ⟨herr, hst⟩ := Prod.mk.inj hresult.symm
  cases hends with
  | refused => exact absurd (ofCode_injective herr) (by decide)
  | unallocated => exact absurd herr (push_pagingAllocFailed_ne _ (by decide))
  | occupied => exact absurd (ofCode_injective herr) (by decide)
  | written _ hreach _ => exact ⟨_, _, hreach, hst.symm⟩

theorem writesCleanEntry_of_page (hpa : isAligned pa pageSize = true)
    (hflags : flags &&& tefMask = flags) : WritesCleanEntry answers st root va pa flags := by
  intro st' hcall
  have hlow := flags_lt hflags
  obtain ⟨before, l0Entry, hreach, rfl⟩ := mapSmallPage_success hcall
  refine ⟨before, l0Entry, hreach, ?_, ?_, ?_⟩
  · rw [load64_store64_same]
  · rw [load64_store64_same, ← frameAddr_frameOf hpa, tableEntry_and hlow]
  · rw [load64_store64_same, getAddress_eq, ← frameAddr_frameOf hpa, entryFrame_tableEntry hlow]

end Aligned

/-- The refusal and the clean entry are what a call gives exactly if its addresses
are both page-aligned, or one of them is not even a multiple of eight. -/
theorem mapSmallPage_clean_iff {answers : Answers} {st : State} {root va pa flags : U64}
    (hflags : flags &&& tefMask = flags) :
    RefusesUnaligned answers st root va pa flags ∧ WritesCleanEntry answers st root va pa flags ↔
      (isAligned va pageSize = true ∧ isAligned pa pageSize = true) ∨ ¬ PassesTest va pa := by
  constructor
  · rintro ⟨hrefuses, -⟩
    by_contra hneither
    obtain ⟨hunaligned, htest⟩ := not_or.mp hneither
    have hresult := congrArg Prod.fst (hrefuses hunaligned)
    exact mapSmallPage_ne_unaligned (Classical.not_not.mp htest) hresult
  · rintro (haligned | htest)
    · exact ⟨fun hunaligned => absurd haligned hunaligned,
        writesCleanEntry_of_page haligned.2 hflags⟩
    · have hrefused := @mapSmallPage_of_not_passesTest answers st root va pa flags htest
      refine ⟨fun _ => hrefused, fun st' hcall => ?_⟩
      rw [hrefused] at hcall
      exact absurd (ofCode_injective (congrArg Prod.fst hcall)) (by decide)

/-- A page-aligned pair, and a pair of odd addresses. -/
theorem mapSmallPage_clean_zeroState :
    WritesCleanEntry pageByPage zeroState 0x1000 0x5000 0x80000000 tefRead ∧
      RefusesUnaligned pageByPage zeroState 0x1000 0x5001 0x80000001 tefRead :=
  ⟨((mapSmallPage_clean_iff (by decide)).mpr (.inl (by decide))).2,
    ((mapSmallPage_clean_iff (by decide)).mpr (.inr (by unfold PassesTest; decide))).1⟩

/-- A read-only mapping of `0x80000010` is not refused, and the address bit makes its
entry writable. -/
theorem not_refusesUnaligned_sixteen :
    ¬ RefusesUnaligned pageByPage zeroState 0x1000 0x5000 0x80000010 tefRead ∧
      isWritable (tableEntry 0x80000010 (tefRead ||| tefValid)) = true := by
  refine ⟨fun hrefuses => ?_, by decide⟩
  have hresult := congrArg Prod.fst (hrefuses (by decide))
  exact mapSmallPage_ne_unaligned ⟨by decide, by decide⟩ hresult

end Octiron.Riscv.Sv39
