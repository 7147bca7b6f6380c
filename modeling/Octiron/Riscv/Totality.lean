import Octiron.Riscv.Translate
import Octiron.Lib.Runs

/-! Which addresses a walk of the kernel's own tables comes to an end for.  The
mapper looks at the valid bit of an entry, the walker at its permissions, so a page
mapped without any is taken for a pointer below the last level. -/
namespace Octiron.Riscv.Sv39

open Lib Lib.Word Lib.ByteMemory Lib.RadixTree Pmm

/-- The arguments of a call. -/
structure Request where
  va : U64
  pa : U64
  flags : U64

/-- The tables, and the calls that succeeded so far, newest first. -/
structure World where
  st : State
  mapped : List Request

section Runs

variable (answers : Answers) (root : U64)

/-- One call, recorded if it returns no error. -/
inductive Maps : World → Request → World → Prop where
  | call {w : World} {r : Request} {err : Error} {st' : State} (hargs : CallOk r.va r.pa r.flags)
      (hcall : mapSmallPage answers w.st root r.va r.pa r.flags = (err, st'))
      (hfresh : Fresh root st'.pages) :
      Maps w r ⟨st', if err.isErr then w.mapped else r :: w.mapped⟩

/-- A page-aligned root of 512 zero entries. -/
def ZeroRoot (w : World) : Prop :=
  isAligned root pageSize = true ∧
    ∃ m, (∀ i : Index, tables m (frameOf root) i = 0) ∧ w = ⟨⟨m, 0, []⟩, []⟩

def Built (w : World) : Prop := Runs.Run (ZeroRoot root) (Maps answers root) w

end Runs

/-- The walk for `va` does not run off its loop, and finds nothing exactly when no page
around `va` has been mapped. -/
def Translates (root : U64) (w : World) (va : U64) : Prop :=
  virtToPhys w.st.mem root va ≠ none ∧
    (virtToPhys w.st.mem root va = some (-1) ↔ ∀ r ∈ w.mapped, keyOf r.va ≠ keyOf va)

/-- The page map holds what the successful calls put there, and nothing else. -/
structure Tracks (root : Frame) (w : World) : Prop where
  inv : Inv root w.st
  args : ∀ r ∈ w.mapped, CallOk r.va r.pa r.flags
  present : ∀ r ∈ w.mapped,
    pageMap w.st.mem (frameAddr root) (keyOf r.va) = some (tableEntry r.pa (r.flags ||| tefValid))
  absent : ∀ key, (∀ r ∈ w.mapped, keyOf r.va ≠ key) → pageMap w.st.mem (frameAddr root) key = none

section Tracks

variable {answers : Answers} {root : Frame} {w w' : World} {r : Request}

theorem ZeroRoot.tracks (h : ZeroRoot (frameAddr root) w) : Tracks root w := by
  obtain ⟨-, m, hzero, rfl⟩ := h
  rw [frameOf_frameAddr] at hzero
  refine ⟨inv_start hzero, nofun, nofun, fun key _ => pageMap_eq_none_of_reach ?_⟩
  rw [keyPath, reach, hzero, isValid_zero]
  rfl

theorem Tracks.step (h : Tracks root w) (hstep : Maps answers (frameAddr root) w r w') :
    Tracks root w' := by
  cases hstep with
  | @call err st' hargs hcall hfresh =>
    have hspec := mapSmallPage_spec h.inv hargs (by rw [hcall]; exact hfresh)
    rw [hcall] at hspec
    obtain ⟨hinv, houtcome⟩ := hspec
    have hsame : pageMap st'.mem (frameAddr root) = pageMap w.st.mem (frameAddr root) →
        Tracks root ⟨st', w.mapped⟩ := by
      intro hmap
      refine ⟨hinv, h.args, fun r' hr' => ?_, fun key hkey => ?_⟩
      · rw [hmap, h.present r' hr']
      · rw [hmap, h.absent key hkey]
    cases houtcome with
    | exists' _ hmap =>
      rw [if_pos (by decide)]
      exact hsame hmap
    | failed _ _ herr hmap =>
      rw [if_pos herr]
      exact hsame hmap
    | inserted hundefined _ hmap =>
      rw [if_neg (by decide)]
      refine ⟨hinv, List.forall_mem_cons.mpr ⟨hargs, h.args⟩, ?_, ?_⟩
      · refine List.forall_mem_cons.mpr ⟨by rw [hmap, Function.update_self], fun r' hr' => ?_⟩
        have hpresent := h.present r' hr'
        have hne : keyOf r'.va ≠ keyOf r.va := by
          intro heq
          rw [heq, hundefined] at hpresent
          exact nomatch hpresent
        rw [hmap, Function.update_of_ne hne, hpresent]
      · intro key hkey
        rw [List.forall_mem_cons] at hkey
        rw [hmap, Function.update_of_ne hkey.1.symm]
        exact h.absent key hkey.2

theorem Built.tracks (h : Built answers (frameAddr root) w) : Tracks root w :=
  Runs.RunWhere.induction (Q := Tracks root) (fun _ hw => hw.tracks)
    (fun _ _ _ _ htracks _ hstep => htracks.step hstep) h

/-- The address of a page is not the one that stands for none. -/
theorem pageAddress_ne {e va : U64} : getAddress e ||| va &&& pageSize ≠ -1 := by
  intro heq
  have hbit := congrArg (·.getLsbD 0) heq
  simp [getAddress, pageSize] at hbit

theorem Tracks.isLeaf_entry (h : Tracks root w) (hr : r ∈ w.mapped) :
    isLeaf (tableEntry r.pa (r.flags ||| tefValid)) = isLeaf r.flags := by
  have hargs := h.args r hr
  rw [← frameAddr_frameOf hargs.pa_aligned, isLeaf_tableEntry (flags_lt hargs.flags_ok),
    isLeaf_or_tefValid]

/-- A walk translates exactly if the page was mapped with a permission, or not at
all. -/
theorem Tracks.translates_iff (h : Tracks root w) (va : U64) :
    Translates (frameAddr root) w va ↔
      ∀ r ∈ w.mapped, keyOf r.va = keyOf va → isLeaf r.flags = true := by
  rw [Translates, virtToPhys_eq h.inv]
  by_cases hmapped : ∃ r ∈ w.mapped, keyOf r.va = keyOf va
  · obtain ⟨r, hr, hkey⟩ := hmapped
    have hpresent := h.present r hr
    have hleaf := h.isLeaf_entry hr
    rw [hkey] at hpresent
    rw [hpresent]
    dsimp only
    constructor
    · rintro ⟨hreturns, -⟩ r' hr' hkey'
      have hpresent' := h.present r' hr'
      rw [hkey', hpresent, Option.some_inj] at hpresent'
      by_contra hnot
      rw [if_neg] at hreturns
      · exact hreturns rfl
      · rw [hpresent', h.isLeaf_entry hr']
        exact hnot
    · intro hall
      rw [if_pos (hleaf.trans (hall r hr hkey))]
      refine ⟨Option.some_ne_none _, iff_of_false ?_ fun hnone => hnone r hr hkey⟩
      rw [Option.some_inj]
      exact pageAddress_ne
  · push Not at hmapped
    rw [h.absent _ hmapped]
    dsimp only
    refine iff_of_true ⟨Option.some_ne_none _, iff_of_true rfl hmapped⟩ fun r hr hkey => ?_
    exact absurd hkey (hmapped r hr)

end Tracks

section Claim

variable {answers : Answers} {root : U64} {w : World}

theorem Built.root_aligned (h : Built answers root w) : isAligned root pageSize = true := by
  obtain ⟨_, hroot, _⟩ := h
  exact hroot.1

/-- A walk of tables built by `map_small_page` comes to an end exactly if the page
around its address was mapped with a permission, or not at all. -/
theorem translates_iff_leaf (hrun : Built answers root w) (va : U64) :
    Translates root w va ↔ ∀ r ∈ w.mapped, keyOf r.va = keyOf va → isLeaf r.flags = true := by
  have hroot := frameAddr_frameOf hrun.root_aligned
  rw [← hroot] at hrun ⊢
  exact hrun.tracks.translates_iff va

end Claim

/-- The page at `0x5000` alone. -/
theorem built_zeroState {flags : U64} (hflags : flags &&& tefMask = flags) :
    ∃ w, Built pageByPage 0x1000 w ∧ w.mapped = [⟨0x5000, 0x80000000, flags⟩] := by
  have hargs : CallOk 0x5000 0x80000000 flags := ⟨by decide, by decide, hflags⟩
  have hstart : ZeroRoot 0x1000 ⟨zeroState, []⟩ :=
    ⟨by decide, fun _ => 0, fun i => congrFun (congrFun tables_zeroState _) i, rfl⟩
  have hcall := @mapSmallPage_zeroState 0x80000000 flags (by decide)
  refine ⟨_, Runs.RunWhere.next (.start hstart) trivial
    (.call (r := ⟨0x5000, 0x80000000, flags⟩) hargs hcall fresh_zeroState), ?_⟩
  rfl

/-- Mapped readable, the page is found. -/
theorem translates_readablePage :
    ∃ w, Built pageByPage 0x1000 w ∧ w.mapped = [⟨0x5000, 0x80000000, tefRead⟩] ∧
      Translates 0x1000 w 0x5123 := by
  obtain ⟨w, hrun, hmapped⟩ := @built_zeroState tefRead (by decide)
  refine ⟨w, hrun, hmapped, (translates_iff_leaf hrun 0x5123).mpr ?_⟩
  rw [hmapped]
  decide

/-- Mapped with the user bit alone, it takes the walk to the end of its loop. -/
theorem not_translates_userPage :
    ∃ w, Built pageByPage 0x1000 w ∧ w.mapped = [⟨0x5000, 0x80000000, tefUser⟩] ∧
      virtToPhys w.st.mem 0x1000 0x5000 = none ∧ ¬ Translates 0x1000 w 0x5000 := by
  obtain ⟨w, hrun, hmapped⟩ := @built_zeroState tefUser (by decide)
  have htracks : Tracks 1 w := @Built.tracks pageByPage 1 w hrun
  have hpresent := htracks.present ⟨0x5000, 0x80000000, tefUser⟩ (hmapped ▸ List.mem_cons_self)
  have hnone : virtToPhys w.st.mem 0x1000 0x5000 = none := by
    refine (virtToPhys_eq htracks.inv 0x5000).trans ?_
    rw [hpresent]
    decide
  exact ⟨w, hrun, hmapped, hnone, fun htranslates => htranslates.1 hnone⟩

end Octiron.Riscv.Sv39
