import Octiron.Pmm.WornRuns
import Mathlib.Data.List.Forall2

/-! Where the block descriptors go.  Every region that is entered takes two of
them and links one; no later call makes up for the other. -/
namespace Octiron.Pmm

open Lib Lib.Word Lib.ByteMemory Exec

/-- The descriptors linked in the regions' free lists, each in one place, and the
free ones of the slab are all that `BLOCK_BUF` was carved into. -/
def DescriptorsConserved (st : State) : Prop :=
  ∃ lists : List (List U64),
    List.Forall₂ (fun region blocks => Linked st.mem region.freeBlocks blocks) st.regions lists ∧
      lists.flatten.Nodup ∧
      lists.flatten.length + st.blockAllocator.free.toNat = initialMemBlockCount.toNat

/-- The call is an `add_region` that passes its tests. -/
def EntersRegion (st : State) : Call → Prop
  | .addRegion base size => Admitted st base size
  | .allocAligned _ _ _ => False

section Count

variable {blockBuf : U64} {st st' : State} {used : Nat}

/-- No list is longer than one block. -/
theorem WornInv.linked_length (h : WornInv blockBuf st used) {region : MemoryRegion}
    (hregion : region ∈ st.regions) {blocks : List U64}
    (hlinked : Linked st.mem region.freeBlocks blocks) : blocks.length ≤ 1 := by
  generalize hhead : region.freeBlocks = block at hlinked
  cases hlinked with
  | nil => exact Nat.zero_le 1
  | cons hne hrest =>
    obtain ⟨k, hk, hdesc⟩ := (h.heads region hregion).resolve_left (hhead ▸ hne)
    rw [← hhead, hdesc, h.slab.next k hk] at hrest
    rw [hrest.unique .nil]
    exact Nat.le_refl 1

theorem WornInv.flatten_length (h : WornInv blockBuf st used) {regions : List MemoryRegion}
    (hsub : ∀ region ∈ regions, region ∈ st.regions) {lists : List (List U64)}
    (hlinked : List.Forall₂ (fun region blocks => Linked st.mem region.freeBlocks blocks)
      regions lists) : lists.flatten.length ≤ regions.length := by
  induction hlinked with
  | nil => exact Nat.le_refl 0
  | cons hfirst _ ih =>
    have hone := h.linked_length (hsub _ List.mem_cons_self) hfirst
    have hrest := ih fun region hregion => hsub region (List.mem_cons_of_mem _ hregion)
    rw [List.flatten_cons, List.length_append, List.length_cons]
    omega

/-- The count holds as long as no region is managed, and never after. -/
theorem WornInv.descriptorsConserved_iff_nil (h : WornInv blockBuf st used) :
    DescriptorsConserved st ↔ st.regions = [] := by
  have hfree := congrArg BitVec.toNat h.slab.free_eq
  rw [BitVec.toNat_ofNat, Nat.mod_eq_of_lt (by omega)] at hfree
  have hcount : initialMemBlockCount.toNat = 64 := rfl
  constructor
  · rintro ⟨lists, hlinked, -, hsum⟩
    have hlength := h.flatten_length (fun _ hregion => hregion) hlinked
    have htaken := h.taken
    have hused := h.slab.used_le
    rw [hfree, hcount] at hsum
    exact List.eq_nil_of_length_eq_zero (by omega)
  · intro hnone
    refine ⟨[], ?_, List.nodup_nil, ?_⟩
    · rw [hnone]
      exact .nil
    · rw [hfree, h.empty hnone, hcount]
      rfl

theorem Returns.regions_eq_nil_iff {call : Call} (h : Returns st call st') :
    st'.regions = [] ↔ st.regions = [] ∧ ¬ EntersRegion st call := by
  obtain ⟨err, ret, hperform⟩ := id h
  rcases h.cases with rfl | ⟨base, size, rfl, hadmitted, hinsert⟩ |
    ⟨size, alignment, ret₀, i, region, ret', rfl, -, -, hsearch⟩
  · refine (and_iff_left fun henters => ?_).symm
    cases call with
    | allocAligned => exact henters
    | addRegion base size =>
      obtain ⟨hadd, -⟩ := perform_addRegion_eq_ok.mp hperform
      rw [Admitted.addRegion henters] at hadd
      obtain ⟨-, block, hregions⟩ := insertRegion_cases hadd
      rw [List.self_eq_append_right] at hregions
      exact absurd hregions (by simp)
  · obtain ⟨-, block, hregions⟩ := insertRegion_cases hinsert
    rw [hregions]
    exact iff_of_false (by simp) fun hboth => hboth.2 hadmitted
  · obtain ⟨-, freeBlocks, hregions, -⟩ := allocFromRegion_cases hsearch
    rw [hregions, List.set_eq_nil_iff]
    exact (and_iff_left id).symm

end Count

/-- Over any run of calls the descriptors are conserved exactly as long as no
region has been entered. -/
theorem descriptorsConserved_iff {blockBuf : U64} {st : State} (hrun : Reachable blockBuf st) :
    DescriptorsConserved st ↔
      ReachableWhere blockBuf (fun st call => ¬ EntersRegion st call) st := by
  refine Runs.Run.good_iff ?_ ?_ hrun
  · intro st hinit
    exact hinit.wornInv.descriptorsConserved_iff_nil.mpr hinit.regions_eq
  · intro st call st' hbefore hreturns
    obtain ⟨used, hinv⟩ := Reachable.wornInv hbefore
    obtain ⟨used', hinv'⟩ := hinv.step hreturns
    rw [hinv'.descriptorsConserved_iff_nil, hinv.descriptorsConserved_iff_nil]
    exact hreturns.regions_eq_nil_iff

/-- All 64 descriptors are there after a call that enters nothing. -/
theorem descriptorsConserved_iff_refused :
    ∃ st, Reachable 0xffffffff80100000 st ∧ DescriptorsConserved st := by
  obtain ⟨st, hinit⟩ := exists_initialize
  have hrefused : addRegion st 0 0x3000 = .ok (.ofCode .nullArgument, st) := by
    simp [addRegion]
  have hkept : ¬ EntersRegion st (.addRegion 0 0x3000) := fun henters => henters.base_ne rfl
  have hrun : ReachableWhere 0xffffffff80100000 (fun st call => ¬ EntersRegion st call) st :=
    Runs.RunWhere.next (.start ⟨by decide, _, _, hinit⟩) hkept (returns_addRegion hrefused)
  exact ⟨st, hrun.run, (descriptorsConserved_iff hrun.run).mpr hrun⟩

/-- One region is managed: one descriptor is linked, 62 are free. -/
theorem not_descriptorsConserved_oneRegion :
    ∃ st region, Reachable 0xffffffff80100000 st ∧ st.regions = [region] ∧
      Linked st.mem region.freeBlocks [region.freeBlocks] ∧ st.blockAllocator.free = 62 ∧
      ¬ DescriptorsConserved st := by
  have hruns : (do
      let st ← pmmInitialize { mem := fun _ => 0 } 0xffffffff80100000 .firstFit
      let result ← addRegion st 0x1000 0x3000
      return (result.2.regions.length, result.2.blockAllocator.free) : Exec _) = .ok (1, 62) := by
    decide +kernel
  obtain ⟨st₀, hinit, hruns⟩ := bind_eq_ok.mp hruns
  obtain ⟨⟨err, st⟩, hcall, hresult⟩ := bind_eq_ok.mp hruns
  obtain ⟨hone, hfree⟩ := Prod.mk.inj (pure_eq_ok.mp hresult)
  obtain ⟨region, hregion⟩ := List.length_eq_one_iff.mp hone
  dsimp only at hregion hfree
  have hstart : Initialized 0xffffffff80100000 st₀ := ⟨by decide, _, _, hinit⟩
  have hreturns := returns_addRegion hcall
  have hrun : Reachable 0xffffffff80100000 st := Runs.RunWhere.next (.start hstart) trivial hreturns
  obtain ⟨used, hinv⟩ := hrun.wornInv
  have hmem : region ∈ st.regions := hregion ▸ List.mem_singleton_self _
  have hentered : region.freeBlocks ≠ 0 := by
    rcases hreturns.cases with rfl | ⟨_, _, _, _, hinsert⟩ | ⟨_, _, _, _, _, _, hother, _⟩
    · rw [hstart.regions_eq] at hregion
      cases hregion
    · obtain ⟨-, first, slab₁, m₁, block, slab, m₂, -, hblock, -, -, rfl⟩ :=
        insertRegion_parts hinsert
      rw [hstart.regions_eq] at hregion
      obtain rfl := (List.cons.inj hregion).1
      exact hblock
    · cases hother
  obtain ⟨k, hk, hdesc⟩ := (hinv.heads region hmem).resolve_left hentered
  refine ⟨st, region, hrun, hregion, .cons hentered ?_, hfree, fun hconserved => ?_⟩
  · rw [hdesc, hinv.slab.next k hk]
    exact .nil
  · rw [hinv.descriptorsConserved_iff_nil, hregion] at hconserved
    cases hconserved

end Octiron.Pmm
