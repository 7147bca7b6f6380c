import Octiron.Lib.Offers
import Octiron.Limine.PlatformInfo
import Octiron.Pmm.Model

/-! `kernel_entry.cpp` up to the end of its loop over the memory map, with the
calls of `pmm::add_region` it makes.  The boot loader's structures are only read. -/
namespace Octiron.Kernel

open Lib.ByteMemory Lib.Offers Exec Limine

/-- The `add_region` calls made, by their two arguments, and how the code ends. -/
structure Boot where
  calls : List (U64 × U64)
  result : Exec Pmm.State

section Model

variable (m : Mem)

/-- `&pinfo->memmap[i]`. -/
def memmapAt (memmap : U64) (i : Nat) : U64 := memmap + sizeofMemmapEntry * BitVec.ofNat 64 i

/-- The loop, with `count` turns to go from entry `i` on. -/
def addUsable (memmap : U64) : Nat → Nat → Pmm.State → Boot
  | 0, _, st => ⟨[], .ok st⟩
  | count + 1, i, st =>
    let entry := memmapAt memmap i
    match deref memmap with
    | .error stop => ⟨[], .error stop⟩
    | .ok _ =>
      if entryType m entry = memmapUsable then
        let args := (entryBase m entry, entryLength m entry)
        match Pmm.addRegion st args.1 args.2 with
        | .error stop => ⟨[args], .error stop⟩
        | .ok (err, st) =>
          if err.isErr then ⟨[args], .error .panic⟩
          else
            let rest := addUsable memmap count (i + 1) st
            { rest with calls := args :: rest.calls }
      else addUsable memmap count (i + 1) st

/-- What comes before the loop. -/
def beforeMemmap (reqs : Requests) (blockBuf : U64) (st : Pmm.State) :
    Exec (PlatformInfo × Pmm.State) := do
  let pinfo ← parsePlatformInfo m reqs
  kassert (pagingModeRiscvSv39 == pinfo.mode)
  let st ← Pmm.pmmInitialize st blockBuf .firstFit
  return (pinfo, st)

def kernelCxxEntry (reqs : Requests) (blockBuf : U64) (st : Pmm.State) : Boot :=
  match beforeMemmap m reqs blockBuf st with
  | .error stop => ⟨[], .error stop⟩
  | .ok (pinfo, st) => addUsable m pinfo.memmap pinfo.memmapCount.toNat 0 st

end Model

section Offers

/-- `add_region` as the loop sees it: any error ends it, and so does a call that
does not return. -/
def accept (st : Pmm.State) (args : U64 × U64) : Option Pmm.State :=
  match Pmm.addRegion st args.1 args.2 with
  | .error _ => none
  | .ok (err, st') => if err.isErr then none else some st'

/-- The usable ranges among `count` entries from the `i`-th on, the `k`-th of them
being at the address `entryAt k`. -/
def usableAmong (m : Mem) (entryAt : Nat → U64) : Nat → Nat → List (U64 × U64)
  | 0, _ => []
  | count + 1, i =>
    if entryType m (entryAt i) = memmapUsable then
      (entryBase m (entryAt i), entryLength m (entryAt i)) :: usableAmong m entryAt count (i + 1)
    else usableAmong m entryAt count (i + 1)

/-- The usable ranges of a response: its entries are where its pointers say. -/
def usableEntries (m : Mem) (response : U64) : List (U64 × U64) :=
  usableAmong m (fun i => load64 m (memmapEntries m response + 8 * BitVec.ofNat 64 i))
    (memmapEntryCount m response).toNat 0

/-- The usable ranges of as many entries as the response has, laid out one behind
the other from its first entry on. -/
def usableFromFirst (m : Mem) (response : U64) : List (U64 × U64) :=
  usableAmong m (memmapAt (load64 m (memmapEntries m response)))
    (memmapEntryCount m response).toNat 0

variable {m : Mem}

theorem usableAmong_congr {entryAt entryAt' : Nat → U64} {count i : Nat}
    (h : ∀ k < i + count, entryAt k = entryAt' k) :
    usableAmong m entryAt count i = usableAmong m entryAt' count i := by
  induction count generalizing i with
  | zero => rfl
  | succ count ih =>
    have hrest := ih (i := i + 1) fun k hk => h k (by omega)
    rw [usableAmong, usableAmong, h i (by omega), hrest]

/-- Where the entries do lie one behind the other, the two readings agree. -/
theorem usableFromFirst_of_contiguous {response : U64}
    (h : ∀ k < (memmapEntryCount m response).toNat,
      load64 m (memmapEntries m response + 8 * BitVec.ofNat 64 k) =
        memmapAt (load64 m (memmapEntries m response)) k) :
    usableFromFirst m response = usableEntries m response :=
  usableAmong_congr fun k hk => (h k (by omega)).symm

/-- The loop offers what lies one behind the other from `memmap` on. -/
theorem addUsable_calls {memmap : U64} (hne : memmap ≠ 0) (count i : Nat) (st : Pmm.State) :
    (addUsable m memmap count i st).calls =
      offered accept st (usableAmong m (memmapAt memmap) count i) := by
  induction count generalizing i st with
  | zero => rfl
  | succ count ih =>
    rw [addUsable, deref_of_ne hne, usableAmong]
    dsimp only
    split
    · rw [offered, accept]
      dsimp only
      cases Pmm.addRegion st (entryBase m (memmapAt memmap i))
          (entryLength m (memmapAt memmap i)) with
      | error stop => rfl
      | ok result =>
        obtain ⟨err, st'⟩ := result
        cases herr : err.isErr with
        | true => simp [herr]
        | false => simp [herr, ih]
    · exact ih (i + 1) st

theorem kernelCxxEntry_calls {reqs : Requests} {blockBuf : U64} {st st' : Pmm.State}
    {pinfo : PlatformInfo} (hbefore : beforeMemmap m reqs blockBuf st = .ok (pinfo, st'))
    (hfirst : 0 < (memmapEntryCount m reqs.memmapReq).toNat →
      load64 m (memmapEntries m reqs.memmapReq) ≠ 0) :
    (kernelCxxEntry m reqs blockBuf st).calls =
      offered accept st' (usableFromFirst m reqs.memmapReq) := by
  have hparse := hbefore
  obtain ⟨pinfo', hpinfo, hparse⟩ := bind_eq_ok.mp hparse
  obtain ⟨_, _, hparse⟩ := bind_eq_ok.mp hparse
  obtain ⟨_, _, hparse⟩ := bind_eq_ok.mp hparse
  obtain ⟨rfl, -⟩ := Prod.mk.inj (pure_eq_ok.mp hparse)
  obtain ⟨hcount, hmemmap⟩ := parsePlatformInfo_memmap hpinfo
  rw [kernelCxxEntry, hbefore]
  dsimp only
  rw [hcount, hmemmap, usableFromFirst]
  by_cases hzero : (memmapEntryCount m reqs.memmapReq).toNat = 0
  · rw [hzero]
    rfl
  · exact addUsable_calls (hfirst (by omega)) _ _ _

/-- The loop hands over the memory map, in order and until the first error, exactly
when reading its entries one behind the other finds the same usable ranges, at
least up to one that is refused. -/
theorem addRegion_calls_iff {reqs : Requests} {blockBuf : U64} {st st' : Pmm.State}
    {pinfo : PlatformInfo} (hbefore : beforeMemmap m reqs blockBuf st = .ok (pinfo, st'))
    (hfirst : 0 < (memmapEntryCount m reqs.memmapReq).toNat →
      load64 m (memmapEntries m reqs.memmapReq) ≠ 0) :
    (kernelCxxEntry m reqs blockBuf st).calls =
        offered accept st' (usableEntries m reqs.memmapReq) ↔
      usableFromFirst m reqs.memmapReq = usableEntries m reqs.memmapReq ∨
        ∃ common, RefusedAtLast accept st' common ∧
          common <+: usableFromFirst m reqs.memmapReq ∧
          common <+: usableEntries m reqs.memmapReq := by
  rw [kernelCxxEntry_calls hbefore hfirst]
  exact offered_eq_iff

/-- Responses with a memory map of two usable entries, the first at `0x300`. -/
def twoEntries (second : U64) : Mem :=
  let m := store64 (store64 (fun _ => 0) (0x140 + 8) 2) (0x140 + 16) 0x200
  let m := store64 (store64 m 0x200 0x300) 0x208 second
  let m := store64 (store64 m 0x300 0x80000000) 0x308 0x100000
  store64 (store64 m second 0x90000000) (second + 8) 0x200000

def someRequests : Requests := ⟨0, 0x100, 0x120, 0x140, 0x160, 0x180⟩

/-- The boot gets as far as the loop, whatever the second entry. -/
theorem beforeMemmap_twoEntries (second : U64) (hsecond : second = 0x318 ∨ second = 0x400) :
    ∃ result, beforeMemmap (twoEntries second) someRequests 0xffffffff80100000
      { mem := fun _ => 0 } = .ok result := by
  apply exists_ok
  rcases hsecond with rfl | rfl <;> decide +kernel

/-- One entry right behind the other. -/
theorem addRegion_calls_iff_contiguous :
    ∃ pinfo st', beforeMemmap (twoEntries 0x318) someRequests 0xffffffff80100000
        { mem := fun _ => 0 } = .ok (pinfo, st') ∧
      (kernelCxxEntry (twoEntries 0x318) someRequests 0xffffffff80100000
        { mem := fun _ => 0 }).calls =
      offered accept st' [(0x80000000, 0x100000), (0x90000000, 0x200000)] := by
  have hentries : usableEntries (twoEntries 0x318) 0x140 =
      [(0x80000000, 0x100000), (0x90000000, 0x200000)] := by
    decide +kernel
  have hfirst : usableFromFirst (twoEntries 0x318) 0x140 =
      [(0x80000000, 0x100000), (0x90000000, 0x200000)] := by
    decide +kernel
  obtain ⟨⟨pinfo, st'⟩, hbefore⟩ := beforeMemmap_twoEntries 0x318 (.inl rfl)
  refine ⟨pinfo, st', hbefore, ?_⟩
  rw [← hentries]
  exact (addRegion_calls_iff hbefore (fun _ => by decide +kernel)).mpr
    (.inl (hfirst.trans hentries.symm))

/-- With the second entry elsewhere, the loop offers the three words behind the
first one instead. -/
theorem addRegion_calls_ne_apart :
    ∃ pinfo st', beforeMemmap (twoEntries 0x400) someRequests 0xffffffff80100000
        { mem := fun _ => 0 } = .ok (pinfo, st') ∧
      (kernelCxxEntry (twoEntries 0x400) someRequests 0xffffffff80100000
        { mem := fun _ => 0 }).calls ≠
      offered accept st' (usableEntries (twoEntries 0x400) someRequests.memmapReq) := by
  have hcalls : (kernelCxxEntry (twoEntries 0x400) someRequests 0xffffffff80100000
      { mem := fun _ => 0 }).calls = [(0x80000000, 0x100000), (0, 0)] := by
    decide +kernel
  have hentries : usableEntries (twoEntries 0x400) someRequests.memmapReq =
      [(0x80000000, 0x100000), (0x90000000, 0x200000)] := by
    decide +kernel
  obtain ⟨⟨pinfo, st'⟩, hbefore⟩ := beforeMemmap_twoEntries 0x400 (.inr rfl)
  refine ⟨pinfo, st', hbefore, fun heq => ?_⟩
  have hoffered := @offered_is_start _ _ accept st'
    (usableEntries (twoEntries 0x400) someRequests.memmapReq)
  rw [← heq, hcalls, hentries] at hoffered
  exact absurd hoffered (by decide)

end Offers

end Octiron.Kernel
