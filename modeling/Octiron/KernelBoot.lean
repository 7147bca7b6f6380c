import Octiron.KernelEntry
import Octiron.Pmm.PageRequests

/-! What the loop over the memory map makes of the map.  The first refused range ends
in a panic, and refused are a seventeenth range and one that starts in a managed one or
right behind it; otherwise the manager holds exactly the usable ranges. -/
namespace Octiron.Kernel

open Lib Lib.ByteMemory Lib.Span Lib.Cursors Exec Limine Pmm

/-- A usable range as the loop offers it. -/
def offerCall (args : U64 × U64) : PageCall := .addRegion args.1 args.2

def freshCursor (args : U64 × U64) : Cursor := .fresh args.1.toNat args.2.toNat

def rangeSpan (args : U64 × U64) : Span := ⟨args.1.toNat, args.2.toNat⟩

/-- The second range starts neither in the first nor right behind it. -/
def StartsClear (args args' : U64 × U64) : Prop :=
  ¬ (args.1.toNat ≤ args'.1.toNat ∧ args'.1.toNat ≤ args.1.toNat + args.2.toNat)

/-- The manager can take the ranges in this order. -/
def Bootable (ranges : List (U64 × U64)) : Prop :=
  ranges.length ≤ regionCountMax ∧ ranges.Pairwise StartsClear

/-- The ranges fit behind the ones already entered. -/
structure FitsBehind (entered ranges : List (U64 × U64)) : Prop where
  length_le : entered.length + ranges.length ≤ regionCountMax
  clear : ∀ args ∈ entered, ∀ args' ∈ ranges, StartsClear args args'
  pairwise : ranges.Pairwise StartsClear

theorem bootable_iff (ranges : List (U64 × U64)) : Bootable ranges ↔ FitsBehind [] ranges := by
  constructor
  · rintro ⟨hlength, hpairwise⟩
    exact ⟨by simpa using hlength, by simp, hpairwise⟩
  · rintro ⟨hlength, -, hpairwise⟩
    exact ⟨by simpa using hlength, hpairwise⟩

section FitsBehind

variable {entered rest : List (U64 × U64)} {args : U64 × U64}

/-- Entering one range more. -/
theorem fitsBehind_cons_iff : FitsBehind entered (args :: rest) ↔
    (entered.length < regionCountMax ∧ ∀ first ∈ entered, StartsClear first args) ∧
      FitsBehind (entered ++ [args]) rest := by
  constructor
  · rintro ⟨hlength, hclear, hpairwise⟩
    obtain ⟨hfirst, hrest⟩ := List.pairwise_cons.mp hpairwise
    rw [List.length_cons] at hlength
    refine ⟨⟨by omega, fun first hmem => hclear first hmem args List.mem_cons_self⟩, ?_, ?_, hrest⟩
    · rw [List.length_append, List.length_singleton]
      omega
    · intro first hmem args' hargs'
      rcases List.mem_append.mp hmem with hold | hnew
      · exact hclear first hold args' (List.mem_cons_of_mem _ hargs')
      · rw [List.mem_singleton.mp hnew]
        exact hfirst args' hargs'
  · rintro ⟨⟨hroom, hclear⟩, hlength, hclear', hpairwise⟩
    rw [List.length_append, List.length_singleton] at hlength
    refine ⟨by rw [List.length_cons]; omega, ?_, List.pairwise_cons.mpr ⟨?_, hpairwise⟩⟩
    · intro first hmem args' hargs'
      rcases List.mem_cons.mp hargs' with rfl | hrest
      · exact hclear first hmem
      · exact hclear' first (List.mem_append_left _ hmem) args' hrest
    · exact hclear' args (List.mem_append_right _ (List.mem_singleton_self args))

end FitsBehind

/-- The manager after the ranges have been entered and nothing granted. -/
def entered (ranges : List (U64 × U64)) : Front := ⟨ranges.map freshCursor, []⟩

section Reply

variable {ranges : List (U64 × U64)} {args : U64 × U64}

theorem reply_of_clear (hroom : ranges.length < regionCountMax)
    (hclear : ∀ first ∈ ranges, StartsClear first args) :
    (entered ranges).reply (offerCall args) =
      (.ofCode .success, none, entered (ranges ++ [args])) := by
  have hnone : ¬ ∃ c ∈ (entered ranges).cursors, c.base ≤ args.1.toNat ∧ args.1.toNat ≤ c.stop := by
    rintro ⟨c, hc, hin⟩
    obtain ⟨first, hfirst, rfl⟩ := List.mem_map.mp hc
    exact hclear first hfirst hin
  rw [offerCall, Front.reply, if_neg, if_neg hnone]
  · simp [entered, freshCursor]
  · rw [entered, List.length_map]
    omega

theorem reply_of_not_clear
    (h : ¬ (ranges.length < regionCountMax ∧ ∀ first ∈ ranges, StartsClear first args)) :
    ((entered ranges).reply (offerCall args)).1.isErr = true := by
  rw [offerCall, Front.reply]
  split
  · exact (by decide : (Error.ofCode .pmmRegionListFull).isErr = true)
  rename_i hroom
  rw [entered, List.length_map, Nat.not_le] at hroom
  have hmanaged : ∃ c ∈ (entered ranges).cursors, c.base ≤ args.1.toNat ∧
      args.1.toNat ≤ c.stop := by
    by_contra hnone
    refine h ⟨hroom, fun first hfirst hin => hnone ⟨_, List.mem_map_of_mem hfirst, hin⟩⟩
  rw [if_pos hmanaged]
  exact (by decide : (Error.ofCode .pmmRegionManaged).isErr = true)

end Reply

section Loop

variable {m m₀ : Mem} {blockBuf memmap : U64}

/-- The loop, from a manager with some ranges entered. -/
theorem addUsable_result (hne : memmap ≠ 0) {count i : Nat} {st : State}
    {ranges : List (U64 × U64)} (h : Refines blockBuf m₀ st (entered ranges))
    (hsound : ∀ args ∈ usableAmong m (memmapAt memmap) count i, (offerCall args).Sound blockBuf) :
    (FitsBehind ranges (usableAmong m (memmapAt memmap) count i) ∧
        ∃ st', (addUsable m memmap count i st).result = .ok st' ∧ Refines blockBuf m₀ st'
          (entered (ranges ++ usableAmong m (memmapAt memmap) count i))) ∨
      (¬ FitsBehind ranges (usableAmong m (memmapAt memmap) count i) ∧
        (addUsable m memmap count i st).result = .error .panic) := by
  induction count generalizing i st ranges with
  | zero =>
    refine .inl ⟨⟨?_, by simp [usableAmong], by simp [usableAmong]⟩, st, rfl, ?_⟩
    · have hlength := h.length_le
      rw [entered, List.length_map] at hlength
      simpa [usableAmong] using hlength
    · rw [usableAmong, List.append_nil]
      exact h
  | succ count ih =>
    rw [usableAmong] at hsound ⊢
    rw [addUsable, deref_of_ne hne]
    dsimp only
    split
    · rename_i husable
      rw [if_pos husable] at hsound
      obtain ⟨hfirst, hrest⟩ := List.forall_mem_cons.mp hsound
      set args : U64 × U64 := (entryBase m (memmapAt memmap i), entryLength m (memmapAt memmap i))
      obtain ⟨st₁, hadd, -, h₁⟩ := h.addRegion hfirst
      change Refines blockBuf m₀ st₁ ((entered ranges).reply (offerCall args)).2.2 at h₁
      change Pmm.addRegion st args.1 args.2 =
        .ok (((entered ranges).reply (offerCall args)).1, st₁) at hadd
      rw [fitsBehind_cons_iff, hadd]
      dsimp only
      by_cases hclear : ranges.length < regionCountMax ∧ ∀ first ∈ ranges, StartsClear first args
      · have hreply := reply_of_clear hclear.1 hclear.2
        rw [hreply] at h₁ ⊢
        have hok : (Error.ofCode .success).isErr = false := by decide
        have hloop := ih h₁ hrest
        rw [List.append_assoc, List.singleton_append] at hloop
        rw [and_iff_right hclear]
        simpa only [hok, Bool.false_eq_true, if_false] using hloop
      · have herr := reply_of_not_clear hclear
        refine .inr ⟨fun hfits => hclear hfits.1, ?_⟩
        rw [if_pos herr]
    · rename_i hother
      rw [if_neg hother] at hsound
      exact ih h hsound

end Loop

/-- The manager serves every later call as the cursors over the ranges do. -/
def ServesFrom (blockBuf : U64) (ranges : List (U64 × U64)) (st : Pmm.State) : Prop :=
  ∀ calls : List PageCall, (∀ call ∈ calls, call.Sound blockBuf) →
    ∃ st', performAll st calls = .ok (((entered ranges).replies calls).1, st')

section Boot

variable {m mem : Mem} {reqs : Requests} {blockBuf : U64} {pinfo : PlatformInfo} {st₀ : Pmm.State}

/-- What the parts before the loop hand to it. -/
theorem beforeMemmap_parts
    (h : beforeMemmap m reqs blockBuf { mem := mem } = .ok (pinfo, st₀)) :
    parsePlatformInfo m reqs = .ok pinfo ∧
      pmmInitialize { mem := mem } blockBuf .firstFit = .ok st₀ := by
  obtain ⟨pinfo', hparse, h⟩ := bind_eq_ok.mp h
  obtain ⟨_, _, h⟩ := bind_eq_ok.mp h
  obtain ⟨st', hinit, h⟩ := bind_eq_ok.mp h
  obtain ⟨rfl, rfl⟩ := Prod.mk.inj (pure_eq_ok.mp h)
  exact ⟨hparse, hinit⟩

theorem kernelCxxEntry_result (hobject : blockBuf.toNat + bufBytes ≤ 2 ^ 64)
    (hbefore : beforeMemmap m reqs blockBuf { mem := mem } = .ok (pinfo, st₀))
    (hfirst : 0 < (memmapEntryCount m reqs.memmapReq).toNat →
      load64 m (memmapEntries m reqs.memmapReq) ≠ 0)
    (hsound : ∀ args ∈ usableFromFirst m reqs.memmapReq, (offerCall args).Sound blockBuf) :
    (Bootable (usableFromFirst m reqs.memmapReq) ∧
        ∃ st, (kernelCxxEntry m reqs blockBuf { mem := mem }).result = .ok st ∧
          Refines blockBuf st₀.mem st (entered (usableFromFirst m reqs.memmapReq))) ∨
      (¬ Bootable (usableFromFirst m reqs.memmapReq) ∧
        (kernelCxxEntry m reqs blockBuf { mem := mem }).result = .error .panic) := by
  obtain ⟨hparse, hinit⟩ := beforeMemmap_parts hbefore
  obtain ⟨hcount, hmemmap⟩ := parsePlatformInfo_memmap hparse
  have h₀ : Refines blockBuf st₀.mem st₀ (entered []) := refines_init hobject hinit
  rw [bootable_iff, kernelCxxEntry, hbefore]
  dsimp only
  rw [hcount, hmemmap]
  by_cases hzero : (memmapEntryCount m reqs.memmapReq).toNat = 0
  · have hnone : usableFromFirst m reqs.memmapReq = [] := by
      rw [usableFromFirst, hzero]
      rfl
    rw [hnone, hzero]
    have hfits : FitsBehind [] [] := ⟨Nat.zero_le _, by simp, .nil⟩
    exact .inl ⟨hfits, st₀, rfl, h₀⟩
  · have hne := hfirst (Nat.pos_of_ne_zero hzero)
    rw [usableFromFirst] at hsound ⊢
    have hloop := addUsable_result hne h₀ hsound
    rw [List.nil_append] at hloop
    exact hloop

/-- With usable entries of whole pages apart from `BLOCK_BUF`, the kernel gets past the
memory map exactly when they are at most sixteen and none starts in an earlier one or right
behind it, and it panics otherwise.  Past it the totals are the sum of their lengths, and
later calls are served from them. -/
theorem kernelCxxEntry_boots_iff (hobject : blockBuf.toNat + bufBytes ≤ 2 ^ 64)
    (hbefore : beforeMemmap m reqs blockBuf { mem := mem } = .ok (pinfo, st₀))
    (hfirst : 0 < (memmapEntryCount m reqs.memmapReq).toNat →
      load64 m (memmapEntries m reqs.memmapReq) ≠ 0)
    (hsound : ∀ args ∈ usableFromFirst m reqs.memmapReq, (offerCall args).Sound blockBuf) :
    let ranges := usableFromFirst m reqs.memmapReq
    let result := (kernelCxxEntry m reqs blockBuf { mem := mem }).result
    ((∃ st, result = .ok st) ↔ Bootable ranges) ∧ (¬ Bootable ranges → result = .error .panic) ∧
      ∀ st, result = .ok st → (totalMemory st).toNat = total (ranges.map rangeSpan) ∧
        (freeMemory st).toNat = total (ranges.map rangeSpan) ∧ ServesFrom blockBuf ranges st := by
  intro ranges result
  have hrooms : room (entered ranges).cursors = total (ranges.map rangeSpan) ∧
      capacity (entered ranges).cursors = total (ranges.map rangeSpan) := by
    generalize ranges = rs
    induction rs with
    | nil => exact ⟨rfl, rfl⟩
    | cons args rest ih =>
      obtain ⟨hroom, hcapacity⟩ := ih
      simp only [entered, room, capacity, List.map_cons, List.sum_cons, total] at hroom hcapacity ⊢
      simp only [hroom, hcapacity, freshCursor, rangeSpan, Cursor.room_fresh,
        Cursor.capacity_fresh, and_self]
  rcases kernelCxxEntry_result hobject hbefore hfirst hsound with
    ⟨hbootable, st, hresult, h⟩ | ⟨hnot, hresult⟩
  · refine ⟨iff_of_true ⟨st, hresult⟩ hbootable, fun hnot => absurd hbootable hnot, ?_⟩
    intro st' hresult'
    obtain rfl := Except.ok.inj (hresult.symm.trans hresult')
    refine ⟨h.total.trans hrooms.2, h.free.trans hrooms.1, fun calls hcalls => ?_⟩
    obtain ⟨st'', hreplies, -⟩ := h.performAll hcalls
    exact ⟨st'', hreplies⟩
  · refine ⟨iff_of_false ?_ hnot, fun _ => hresult, ?_⟩
    · rintro ⟨st, hok⟩
      cases hresult.symm.trans hok
    · intro st hok
      cases hresult.symm.trans hok

/-- Two usable entries that lie apart. -/
theorem kernelCxxEntry_boots_iff_twoEntries :
    Bootable [(0x80000000, 0x100000), (0x90000000, 0x200000)] ∧
      ∃ st, (kernelCxxEntry (twoEntries 0x318) someRequests 0xffffffff80100000
          { mem := fun _ => 0 }).result = .ok st ∧
        (freeMemory st).toNat = 0x300000 := by
  have hranges : usableFromFirst (twoEntries 0x318) someRequests.memmapReq =
      [(0x80000000, 0x100000), (0x90000000, 0x200000)] := by
    decide +kernel
  obtain ⟨⟨pinfo, st₀⟩, hbefore⟩ := beforeMemmap_twoEntries 0x318 (.inl rfl)
  have hbootable : Bootable [(0x80000000, 0x100000), (0x90000000, 0x200000)] := by
    refine ⟨by decide, ?_⟩
    simp [StartsClear]
  have hsound : ∀ args ∈ usableFromFirst (twoEntries 0x318) someRequests.memmapReq,
      (offerCall args).Sound 0xffffffff80100000 := by
    rw [hranges]
    simp only [List.forall_mem_cons]
    refine ⟨⟨⟨by decide, by decide, by decide, by decide, by decide⟩, ?_⟩,
      ⟨⟨by decide, by decide, by decide, by decide, by decide⟩, ?_⟩, by simp⟩
    · exact (disjoint_iff (by decide) (by decide)).mpr (by decide)
    · exact (disjoint_iff (by decide) (by decide)).mpr (by decide)
  obtain ⟨hiff, -, hend⟩ := kernelCxxEntry_boots_iff (by decide) hbefore
    (fun _ => by decide +kernel) hsound
  rw [hranges] at hiff hend
  obtain ⟨st, hresult⟩ := hiff.mpr hbootable
  exact ⟨hbootable, st, hresult, (hend st hresult).2.1⟩

end Boot

end Octiron.Kernel
