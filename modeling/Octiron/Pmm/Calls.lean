import Octiron.Pmm.AddRegion

/-! The calls of the manager with arbitrary arguments, and the states any sequence
of them leads to.  A call that returns an error has changed nothing. -/
namespace Octiron.Pmm

open Lib Lib.ByteMemory Exec

/-- A call with the word its out-pointer designates on return; `add_region` has none. -/
def perform (st : State) : Call → Exec (Error × Option U64 × State)
  | .addRegion base size => do
    let (err, st) ← addRegion st base size
    return (err, none, st)
  | .allocAligned size alignment ret => allocAligned st size alignment ret

/-- The out-pointer's word once it has been zeroed. -/
def Call.zeroedRet : Call → Option U64
  | .addRegion _ _ => none
  | .allocAligned _ _ ret => ret.map fun _ => 0

/-- The call returns, with an error or without. -/
def Returns (st : State) (call : Call) (st' : State) : Prop :=
  ∃ err ret, perform st call = .ok (err, ret, st')

/-- The state right after `initialize`, over any contents of memory. -/
def Initialized (blockBuf : U64) (st : State) : Prop :=
  blockBuf.toNat + bufBytes ≤ 2 ^ 64 ∧ ∃ mem p, pmmInitialize { mem := mem } blockBuf p = .ok st

/-- The states that calls of any kind, with any arguments, lead to. -/
abbrev Reachable (blockBuf : U64) (st : State) : Prop :=
  Runs.Run (Initialized blockBuf) Returns st

abbrev ReachableWhere (blockBuf : U64) (P : State → Call → Prop) (st : State) : Prop :=
  Runs.RunWhere (Initialized blockBuf) Returns P st

theorem Initialized.regions_eq {blockBuf : U64} {st : State} (h : Initialized blockBuf st) :
    st.regions = [] := by
  obtain ⟨hobject, mem, p, hcall⟩ := h
  rw [(pmmInitialize_spec rfl hobject hcall).1]

/-- `initialize` returns on a buffer in the upper half. -/
theorem exists_initialize : ∃ st,
    pmmInitialize { mem := fun _ => 0 } 0xffffffff80100000 .firstFit = .ok st :=
  exists_ok (by decide +kernel)

theorem perform_addRegion_eq_ok {st st' : State} {base size : U64} {err : Error}
    {ret : Option U64} : perform st (.addRegion base size) = .ok (err, ret, st') ↔
      addRegion st base size = .ok (err, st') ∧ ret = none := by
  constructor
  · intro h
    obtain ⟨⟨err', st''⟩, hadd, h⟩ := bind_eq_ok.mp h
    obtain ⟨rfl, hrest⟩ := Prod.mk.inj (pure_eq_ok.mp h)
    obtain ⟨rfl, rfl⟩ := Prod.mk.inj hrest
    exact ⟨hadd, rfl⟩
  · rintro ⟨hadd, rfl⟩
    rw [perform, hadd]
    rfl

theorem returns_addRegion {st st' : State} {base size : U64} {err : Error}
    (h : addRegion st base size = .ok (err, st')) : Returns st (.addRegion base size) st' :=
  ⟨err, none, perform_addRegion_eq_ok.mpr ⟨h, rfl⟩⟩

/-- The table grows by one entry. -/
theorem insertRegion_cases {st st' : State} {base size : U64} {err : Error}
    (h : insertRegion st base size = .ok (err, st')) :
    err = .ofCode .success ∧
      ∃ block, st'.regions = st.regions ++ [⟨base, size, size, block⟩] := by
  obtain ⟨herr, _, _, _, block, _, _, _, _, _, _, rfl⟩ := insertRegion_parts h
  exact ⟨herr, block, rfl⟩

/-- The body of the search's loop succeeds or stops, and charges what it grants to
the region and to the total. -/
theorem allocFromRegion_cases {st st' : State} {i : Nat} {region : MemoryRegion}
    {size alignment : U64} {err : Error} {ret : Option U64}
    (h : allocFromRegion st i region size alignment = .ok (err, ret, st')) :
    err = .ofCode .success ∧ ∃ freeBlocks,
      st'.regions = st.regions.set i (cutRegion region freeBlocks size) ∧
      st'.freeBytes = st.freeBytes - size ∧ st'.totalBytes = st.totalBytes ∧ st'.pol = st.pol := by
  obtain ⟨split, _, h⟩ := bind_eq_ok.mp h
  obtain ⟨_, _, h⟩ := bind_eq_ok.mp h
  obtain ⟨rfl, hrest⟩ := Prod.mk.inj (pure_eq_ok.mp h)
  obtain ⟨-, rfl⟩ := Prod.mk.inj hrest
  exact ⟨rfl, split.freeBlocks, rfl, rfl, rfl, rfl⟩

/-- Any other code than `SUCCESS` comes back from an untouched state. -/
theorem perform_refused {st st' : State} {call : Call} {err : Error} {ret : Option U64}
    (hcall : perform st call = .ok (err, ret, st')) (herr : err ≠ .ofCode .success) :
    st' = st ∧ ret = call.zeroedRet := by
  cases call with
  | addRegion base size =>
    obtain ⟨hadd, rfl⟩ := perform_addRegion_eq_ok.mp hcall
    rcases addRegion_cases hadd with ⟨-, hsame⟩ | hinsert
    · exact ⟨hsame, rfl⟩
    · exact absurd (insertRegion_cases hinsert).1 herr
  | allocAligned size alignment ret₀ =>
    rcases allocAligned_cases hcall with ⟨-, hsame, hret, -⟩ | ⟨i, region, -, -, hsearch⟩
    · exact ⟨hsame, hret⟩
    · exact absurd (allocFromRegion_cases hsearch).1 herr

/-- Four pages are free, but in two regions of two pages: a request for three is refused
behind the search, and so is a region that starts in a managed one. -/
theorem perform_refused_outOfMem :
    ∃ st, Reachable 0xffffffff80100000 st ∧ st.regions.length = 2 ∧ freeMemory st = 0x4000 ∧
      perform st (.allocAligned 0x3000 0x1000 (some 7)) = .ok (.ofCode .pmmOutOfMem, some 0, st) ∧
      perform st (.addRegion 0x9000 0x1000) = .ok (.ofCode .pmmRegionManaged, none, st) := by
  have hruns : (do
      let st ← pmmInitialize { mem := fun _ => 0 } 0xffffffff80100000 .firstFit
      let first ← addRegion st 0x1000 0x2000
      let second ← addRegion first.2 0x8000 0x2000
      let refused ← perform second.2 (.allocAligned 0x3000 0x1000 (some 7))
      let refused' ← perform second.2 (.addRegion 0x9000 0x1000)
      return (second.2.regions.length, freeMemory second.2, refused.1, refused'.1) : Exec _) =
        .ok (2, 0x4000, .ofCode .pmmOutOfMem, .ofCode .pmmRegionManaged) := by
    decide +kernel
  obtain ⟨st₀, hinit, hruns⟩ := bind_eq_ok.mp hruns
  obtain ⟨⟨err₁, st₁⟩, hfirst, hruns⟩ := bind_eq_ok.mp hruns
  obtain ⟨⟨err₂, st⟩, hsecond, hruns⟩ := bind_eq_ok.mp hruns
  obtain ⟨⟨err, ret, st'⟩, hcall, hruns⟩ := bind_eq_ok.mp hruns
  obtain ⟨⟨err', ret', st''⟩, hcall', hresult⟩ := bind_eq_ok.mp hruns
  obtain ⟨hlength, hresult⟩ := Prod.mk.inj (pure_eq_ok.mp hresult)
  obtain ⟨hfree, hresult⟩ := Prod.mk.inj hresult
  obtain ⟨rfl, rfl⟩ := Prod.mk.inj hresult
  have hrun : Reachable 0xffffffff80100000 st :=
    Runs.RunWhere.next (Runs.RunWhere.next (.start ⟨by decide, _, _, hinit⟩) trivial
      (returns_addRegion hfirst)) trivial (returns_addRegion hsecond)
  obtain ⟨rfl, rfl⟩ := perform_refused hcall (by decide)
  obtain ⟨rfl, rfl⟩ := perform_refused hcall' (by decide)
  exact ⟨_, hrun, hlength, hfree, hcall, hcall'⟩

end Octiron.Pmm
