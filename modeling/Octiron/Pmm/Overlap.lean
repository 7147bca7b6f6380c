import Octiron.Pmm.Admission

/-! The overlap test of `add_region` over sequences of calls.  It looks at the new
base only, so a region that starts inside the new interval is missed, and one
that ends right at the new base is taken for an overlap. -/
namespace Octiron.Pmm

open Lib Lib.Word Lib.ByteMemory Lib.Span Exec

/-- Whole pages of physical memory. -/
structure WholePages (base size : U64) : Prop where
  base_ne : base ≠ 0
  base_aligned : pageBytes ∣ base.toNat
  size_pos : 0 < size.toNat
  size_aligned : pageBytes ∣ size.toNat
  high : base.toNat + size.toNat ≤ 2 ^ 56

/-- Calls of `add_region` with whole pages, and no other call. -/
def AddsPages (_ : State) : Call → Prop
  | .addRegion base size => WholePages base size
  | .allocAligned _ _ _ => False

section Overlap

variable (st : State) (base size : U64)

/-- The interval shares a byte with a managed region. -/
def Overlaps : Prop :=
  ∃ region ∈ st.regions, ∃ x, x ∈ regionSpan region ∧ x ∈ (⟨base.toNat, size.toNat⟩ : Span)

/-- A managed region ends right where the interval starts. -/
def EndsAtBase : Prop :=
  ∃ region ∈ st.regions, region.base.toNat + region.length.toNat = base.toNat

/-- A managed region starts in the interval, behind its base. -/
def StartsBehindBase : Prop :=
  ∃ region ∈ st.regions, base.toNat < region.base.toNat ∧
    region.base.toNat < base.toNat + size.toNat

/-- What the base alone shows is what the whole interval shows. -/
def BaseDecides : Prop :=
  (∃ region ∈ st.regions, base.toNat ∈ regionSpan region) ∨
    (EndsAtBase st base ↔ StartsBehindBase st base size)

/-- The call returns, refuses an overlapping interval as managed and accepts any other. -/
def RightVerdict : Prop :=
  ∃ err st', addRegion st base size = .ok (err, st') ∧
    (err = .ofCode .success ∨ err = .ofCode .pmmRegionManaged) ∧
    (err = .ofCode .pmmRegionManaged ↔ Overlaps st base size)

end Overlap

/-- The same calls, each deciding rightly from its base. -/
def AddsDecidedPages (st : State) : Call → Prop
  | .addRegion base size => WholePages base size ∧ BaseDecides st base size
  | .allocAligned _ _ _ => False

/-- Every region was entered with two descriptors, and covers whole pages. -/
structure AddInv (blockBuf : U64) (st : State) : Prop where
  slab : SlabInv blockBuf st.blockAllocator st.mem (2 * st.regions.length)
  pages : ∀ region ∈ st.regions, WholePages region.base region.length
  room : st.regions.length ≤ regionCountMax

section WholePages

variable {base size : U64} (h : WholePages base size)
include h

theorem WholePages.alignUp_base : alignUp base pageSize = base :=
  alignUp_pageSize_of_dvd h.base_aligned (by have := h.high; omega)

theorem WholePages.alignedLength : alignedLength base size = size := by
  rw [Pmm.alignedLength, h.alignUp_base, BitVec.sub_self, BitVec.sub_zero]
  exact alignDown_pageSize_of_dvd h.size_aligned

theorem WholePages.sizeTests : SizeTests base size := by
  obtain ⟨pages, hpages⟩ := h.size_aligned
  have hpos := h.size_pos
  rw [SizeTests, h.alignedLength, h.alignUp_base]
  refine ⟨BitVec.le_refl _, ?_⟩
  rw [BitVec.le_def, pageSize_toNat, hpages, pageBytes]
  rw [hpages] at hpos
  have hsome : 0 < pages := Nat.pos_of_mul_pos_left hpos
  omega

end WholePages

section Decide

variable {blockBuf : U64} {st : State} {base size : U64}

/-- The test of the code: the base lies in a managed region or right behind one. -/
theorem any_managesBase_iff (hpages : ∀ region ∈ st.regions, WholePages region.base region.length) :
    st.regions.any (managesBase · base) = true ↔
      (∃ region ∈ st.regions, base.toNat ∈ regionSpan region) ∨ EndsAtBase st base := by
  have hone : ∀ region ∈ st.regions, managesBase region base = true ↔
      base.toNat ∈ regionSpan region ∨
        region.base.toNat + region.length.toNat = base.toNat := by
    intro region hregion
    obtain ⟨-, -, hpos, -, hhigh⟩ := hpages region hregion
    rw [managesBase, Bool.and_eq_true, decide_eq_true_eq, decide_eq_true_eq, BitVec.le_def,
      BitVec.le_def, BitVec.toNat_add, Nat.mod_eq_of_lt (by omega), regionSpan, mem_def]
    dsimp only
    omega
  rw [List.any_eq_true]
  constructor
  · rintro ⟨region, hregion, hmanages⟩
    rcases (hone region hregion).mp hmanages with hin | hend
    · exact .inl ⟨region, hregion, hin⟩
    · exact .inr ⟨region, hregion, hend⟩
  · rintro (⟨region, hregion, hin⟩ | ⟨region, hregion, hend⟩)
    · exact ⟨region, hregion, (hone region hregion).mpr (.inl hin)⟩
    · exact ⟨region, hregion, (hone region hregion).mpr (.inr hend)⟩

/-- Overlap: the base lies in a managed region or one starts behind it. -/
theorem overlaps_iff (hpages : ∀ region ∈ st.regions, WholePages region.base region.length)
    (hsize : 0 < size.toNat) :
    Overlaps st base size ↔ (∃ region ∈ st.regions, base.toNat ∈ regionSpan region) ∨
      StartsBehindBase st base size := by
  constructor
  · rintro ⟨region, hregion, x, hx, hin⟩
    rw [regionSpan, mem_def] at hx
    rw [mem_def] at hin
    dsimp only at hx hin
    by_cases hbase : region.base.toNat ≤ base.toNat
    · refine .inl ⟨region, hregion, ?_⟩
      rw [regionSpan, mem_def]
      dsimp only
      omega
    · exact .inr ⟨region, hregion, by omega, by omega⟩
  · rintro (⟨region, hregion, hin⟩ | ⟨region, hregion, hlow, hhigh⟩)
    · refine ⟨region, hregion, base.toNat, hin, ?_⟩
      rw [mem_def]
      dsimp only
      omega
    · have hpos := (hpages region hregion).size_pos
      refine ⟨region, hregion, region.base.toNat, ?_, ?_⟩ <;> rw [mem_def] <;>
        dsimp only [regionSpan] <;> omega

/-- A call with whole pages returns: as managed when the test says so, and with the
region entered otherwise. -/
theorem AddInv.addRegion (h : AddInv blockBuf st) (hpages : WholePages base size)
    (hroom : st.regions.length < regionCountMax) :
    (st.regions.any (managesBase · base) = true ∧
        addRegion st base size = .ok (.ofCode .pmmRegionManaged, st)) ∨
      (st.regions.any (managesBase · base) = false ∧
        ∃ st' block, addRegion st base size = .ok (.ofCode .success, st') ∧
          st'.regions = st.regions ++ [⟨base, size, size, block⟩] ∧ AddInv blockBuf st') := by
  have hcall := addRegion_of_sizes hpages.base_ne hroom hpages.sizeTests
  rw [hpages.alignUp_base, hpages.alignedLength] at hcall
  by_cases hany : st.regions.any (managesBase · base) = true
  · rw [if_pos hany] at hcall
    exact .inl ⟨hany, hcall⟩
  · rw [if_neg hany] at hcall
    rw [regionCountMax] at hroom
    obtain ⟨st', hinsert⟩ := @insertRegion_returns st base size _ _ h.slab (by omega)
    obtain ⟨-, -, hslab, -, -, -, -, hst'⟩ := insertRegion_spec h.slab hinsert
    have hregions : st'.regions = st.regions ++
        [⟨base, size, size, descriptor blockBuf (2 * st.regions.length + 1)⟩] := by
      rw [hst']
    have hlength : st'.regions.length = st.regions.length + 1 := by
      rw [hregions, List.length_append, List.length_singleton]
    refine .inr ⟨by simpa using hany, st', _, hcall.trans hinsert, hregions, ?_, ?_, ?_⟩
    · rw [hlength, Nat.mul_succ]
      exact hslab
    · intro region hregion
      rw [hregions, List.mem_append, List.mem_singleton] at hregion
      rcases hregion with hold | rfl
      · exact h.pages region hold
      · exact hpages
    · rw [hlength, regionCountMax]
      omega

theorem Initialized.addInv (h : Initialized blockBuf st) : AddInv blockBuf st := by
  have hregions := h.regions_eq
  obtain ⟨hobject, mem, p, hcall⟩ := h
  obtain ⟨-, hslab⟩ := pmmInitialize_spec rfl hobject hcall
  refine ⟨by rwa [hregions], ?_, ?_⟩
  · simp [hregions]
  · simp [hregions]

/-- A call of the sequence leaves the table or adds the interval to it. -/
theorem AddInv.step {st' : State} {call : Call} (h : AddInv blockBuf st)
    (hcall : AddsPages st call) (hreturns : Returns st call st') :
    AddInv blockBuf st' ∧ (st'.regions = st.regions ∨
      ∃ base size block, call = .addRegion base size ∧
        st.regions.any (managesBase · base) = false ∧
        st'.regions = st.regions ++ [⟨base, size, size, block⟩]) := by
  rcases hreturns.cases with rfl | ⟨base, size, rfl, hadmitted, hinsert⟩ |
    ⟨size, alignment, ret, i, region, ret', rfl, -, -, -⟩
  · exact ⟨h, .inl rfl⟩
  · have hok := hadmitted.addRegion.trans hinsert
    rcases h.addRegion hcall hadmitted.room with
      ⟨-, hmanaged⟩ | ⟨hfresh, st₁, block, hentered, hregions, hinv⟩
    · obtain ⟨-, rfl⟩ := ok_pair_inj (hmanaged.symm.trans hok)
      exact ⟨h, .inl rfl⟩
    · obtain ⟨-, rfl⟩ := ok_pair_inj (hentered.symm.trans hok)
      exact ⟨hinv, .inr ⟨base, size, block, rfl, hfresh, hregions⟩⟩
  · exact hcall.elim

theorem addInv_of_run (h : ReachableWhere blockBuf AddsPages st) : AddInv blockBuf st := by
  refine Runs.RunWhere.induction (Q := AddInv blockBuf) (fun _ hinit => hinit.addInv) ?_ h
  intro st call st' _ hinv hcall hreturns
  exact (hinv.step hcall hreturns).1

/-- What the test says is right exactly when the base decides. -/
theorem any_managesBase_iff_overlaps
    (hregions : ∀ region ∈ st.regions, WholePages region.base region.length)
    (hsize : 0 < size.toNat) :
    (st.regions.any (managesBase · base) = true ↔ Overlaps st base size) ↔
      BaseDecides st base size := by
  rw [any_managesBase_iff hregions, overlaps_iff hregions hsize, BaseDecides]
  by_cases hin : ∃ region ∈ st.regions, base.toNat ∈ regionSpan region
  · simp only [hin, true_or]
  · simp only [hin, false_or]

theorem AddInv.rightVerdict_iff (h : AddInv blockBuf st) (hpages : WholePages base size)
    (hroom : st.regions.length < regionCountMax) :
    RightVerdict st base size ↔ BaseDecides st base size := by
  rw [← any_managesBase_iff_overlaps h.pages hpages.size_pos]
  rcases h.addRegion hpages hroom with ⟨hany, hcall⟩ | ⟨hany, st', _, hcall, -, -⟩
  · rw [hany]
    constructor
    · rintro ⟨err, st'', hcall', -, hiff⟩
      obtain ⟨rfl, -⟩ := ok_pair_inj (hcall.symm.trans hcall')
      exact iff_of_true rfl (hiff.mp rfl)
    · intro hiff
      exact ⟨_, _, hcall, .inr rfl, iff_of_true rfl (hiff.mp rfl)⟩
  · rw [hany]
    constructor
    · rintro ⟨err, st'', hcall', -, hiff⟩
      obtain ⟨rfl, -⟩ := ok_pair_inj (hcall.symm.trans hcall')
      exact iff_of_false Bool.false_ne_true fun hover => absurd (hiff.mpr hover) (by decide)
    · intro hiff
      exact ⟨_, _, hcall, .inl rfl,
        iff_of_false (by decide) fun hover => Bool.false_ne_true (hiff.mpr hover)⟩

/-- Calls that decide rightly keep the managed regions apart. -/
theorem pairwise_disjoint_of_decided (h : ReachableWhere blockBuf AddsDecidedPages st) :
    st.regions.Pairwise fun r r' => Disjoint (regionSpan r) (regionSpan r') := by
  refine (Runs.RunWhere.induction (Q := fun st => AddInv blockBuf st ∧
    st.regions.Pairwise fun r r' => Disjoint (regionSpan r) (regionSpan r')) ?_ ?_ h).2
  · intro st hinit
    rw [hinit.regions_eq]
    exact ⟨hinit.addInv, .nil⟩
  · rintro st call st' - ⟨hinv, hapart⟩ hdecided hreturns
    have hadds : AddsPages st call := by
      cases call with
      | addRegion base size => exact hdecided.1
      | allocAligned => exact hdecided
    obtain ⟨hinv', hsame | ⟨base, size, block, rfl, hfresh, hregions⟩⟩ := hinv.step hadds hreturns
    · exact ⟨hinv', hsame ▸ hapart⟩
    · obtain ⟨hpages, hdecides⟩ := hdecided
      have hverdict := (any_managesBase_iff_overlaps hinv.pages hpages.size_pos).mpr hdecides
      have hnone : ¬ Overlaps st base size := fun hover =>
        Bool.false_ne_true (hfresh.symm.trans (hverdict.mpr hover))
      refine ⟨hinv', ?_⟩
      rw [hregions, List.pairwise_append]
      refine ⟨hapart, List.pairwise_singleton _ _, ?_⟩
      intro r hr r' hr' x hx hx'
      rw [List.mem_singleton] at hr'
      subst hr'
      exact hnone ⟨r, hr, x, hx, hx'⟩

end Decide

/-- Over any sequence of calls with whole pages, while the table has room, the
verdict is right exactly when the base decides; and calls whose base decides keep
the regions pairwise disjoint. -/
theorem addRegion_verdict (blockBuf : U64) :
    (∀ st base size, ReachableWhere blockBuf AddsPages st →
        st.regions.length < regionCountMax → WholePages base size →
        (RightVerdict st base size ↔ BaseDecides st base size)) ∧
      ∀ st, ReachableWhere blockBuf AddsDecidedPages st →
        st.regions.Pairwise fun r r' => Disjoint (regionSpan r) (regionSpan r') :=
  ⟨fun _ _ _ hrun hroom hpages => (addInv_of_run hrun).rightVerdict_iff hpages hroom,
    fun _ => pairwise_disjoint_of_decided⟩

/-- A second region, apart from the one managed. -/
theorem addRegion_verdict_secondRegion :
    ∃ st st', ReachableWhere 0xffffffff80100000 AddsPages st ∧ st.regions.length = 1 ∧
      RightVerdict st 0x8000 0x2000 ∧
      addRegion st 0x8000 0x2000 = .ok (.ofCode .success, st') ∧ st'.regions.length = 2 ∧
      st'.regions.Pairwise fun r r' => Disjoint (regionSpan r) (regionSpan r') := by
  have hruns : (do
      let st₀ ← pmmInitialize { mem := fun _ => 0 } 0xffffffff80100000 .firstFit
      let first ← addRegion st₀ 0x4000 0x2000
      let second ← addRegion first.2 0x8000 0x2000
      return (first.2.regions.map fun r => (r.base, r.length), second.1,
        second.2.regions.length) : Exec _) = .ok ([(0x4000, 0x2000)], .ofCode .success, 2) := by
    decide +kernel
  obtain ⟨st₀, hinit, hruns⟩ := bind_eq_ok.mp hruns
  obtain ⟨⟨err, st⟩, hfirst, hruns⟩ := bind_eq_ok.mp hruns
  obtain ⟨⟨err', st'⟩, hsecond, hresult⟩ := bind_eq_ok.mp hruns
  obtain ⟨htable, hresult⟩ := Prod.mk.inj (pure_eq_ok.mp hresult)
  obtain ⟨rfl, htwo⟩ := Prod.mk.inj hresult
  obtain ⟨region, hregion, hfields⟩ := List.map_eq_singleton_iff.mp htable
  obtain ⟨hbase, hlength⟩ := Prod.mk.inj hfields
  dsimp only at hregion hsecond htwo
  have hstart : Initialized 0xffffffff80100000 st₀ := ⟨by decide, _, _, hinit⟩
  have hempty := hstart.regions_eq
  have hpages : WholePages 0x4000 0x2000 := ⟨by decide, by decide, by decide, by decide, by decide⟩
  have hpages' : WholePages 0x8000 0x2000 := ⟨by decide, by decide, by decide, by decide, by decide⟩
  have hdecides₀ : BaseDecides st₀ 0x4000 0x2000 := by
    refine .inr (iff_of_false ?_ ?_)
    · simp [EndsAtBase, hempty]
    · simp [StartsBehindBase, hempty]
  have hdecides : BaseDecides st 0x8000 0x2000 := by
    refine .inr (iff_of_false ?_ ?_)
    · simp [EndsAtBase, hregion, hbase, hlength]
    · simp [StartsBehindBase, hregion, hbase]
  have hdecided : ReachableWhere 0xffffffff80100000 AddsDecidedPages st :=
    Runs.RunWhere.next (.start hstart)
      (show AddsDecidedPages st₀ (.addRegion 0x4000 0x2000) from ⟨hpages, hdecides₀⟩)
      (returns_addRegion hfirst)
  have hdecided' : ReachableWhere 0xffffffff80100000 AddsDecidedPages st' :=
    hdecided.next (show AddsDecidedPages st (.addRegion 0x8000 0x2000) from ⟨hpages', hdecides⟩)
      (returns_addRegion hsecond)
  have hrun : ReachableWhere 0xffffffff80100000 AddsPages st :=
    Runs.RunWhere.next (.start hstart)
      (show AddsPages st₀ (.addRegion 0x4000 0x2000) from hpages) (returns_addRegion hfirst)
  have hroom : st.regions.length < regionCountMax := by
    rw [hregion, List.length_singleton]
    decide
  obtain ⟨hverdict, hdisjoint⟩ := addRegion_verdict 0xffffffff80100000
  refine ⟨st, st', hrun, by rw [hregion]; rfl, ?_, hsecond, htwo, hdisjoint st' hdecided'⟩
  exact (hverdict st 0x8000 0x2000 hrun hroom hpages').mpr hdecides

/-- The region right above a managed one is refused, and the one right below it is
accepted together with the first of its pages. -/
theorem not_rightVerdict_neighbours :
    ∃ st, ReachableWhere 0xffffffff80100000 AddsPages st ∧ st.regions.length = 1 ∧
      addRegion st 0x6000 0x2000 = .ok (.ofCode .pmmRegionManaged, st) ∧
      ¬ Overlaps st 0x6000 0x2000 ∧ ¬ RightVerdict st 0x6000 0x2000 ∧
      (∃ st', addRegion st 0x2000 0x3000 = .ok (.ofCode .success, st')) ∧
      Overlaps st 0x2000 0x3000 ∧ ¬ RightVerdict st 0x2000 0x3000 := by
  have hruns : (do
      let st₀ ← pmmInitialize { mem := fun _ => 0 } 0xffffffff80100000 .firstFit
      let first ← addRegion st₀ 0x4000 0x2000
      let above ← addRegion first.2 0x6000 0x2000
      let below ← addRegion first.2 0x2000 0x3000
      return (first.2.regions.map fun r => (r.base, r.length), above.1, below.1) :
      Exec _) = .ok ([(0x4000, 0x2000)], .ofCode .pmmRegionManaged, .ofCode .success) := by
    decide +kernel
  obtain ⟨st₀, hinit, hruns⟩ := bind_eq_ok.mp hruns
  obtain ⟨⟨err, st⟩, hfirst, hruns⟩ := bind_eq_ok.mp hruns
  obtain ⟨⟨_, stAbove⟩, habove, hruns⟩ := bind_eq_ok.mp hruns
  obtain ⟨⟨_, stBelow⟩, hbelow, hresult⟩ := bind_eq_ok.mp hruns
  obtain ⟨htable, hresult⟩ := Prod.mk.inj (pure_eq_ok.mp hresult)
  obtain ⟨rfl, rfl⟩ := Prod.mk.inj hresult
  obtain ⟨region, hregion, hfields⟩ := List.map_eq_singleton_iff.mp htable
  obtain ⟨hbase, hlength⟩ := Prod.mk.inj hfields
  dsimp only at hregion habove hbelow
  have hsame : stAbove = st := by
    rcases addRegion_cases habove with ⟨-, hsame⟩ | hinsert
    · exact hsame
    · exact absurd (insertRegion_cases hinsert).1 (by decide)
  subst hsame
  have hapart : ¬ Overlaps stAbove 0x6000 0x2000 := by
    rintro ⟨r, hr, x, hx, hin⟩
    rw [hregion, List.mem_singleton] at hr
    rw [hr, regionSpan, hbase, hlength, mem_def] at hx
    rw [mem_def] at hin
    simp at hx hin
    omega
  have hover : Overlaps stAbove 0x2000 0x3000 := by
    refine ⟨region, hregion ▸ List.mem_singleton_self _, 0x4000, ?_, by decide⟩
    rw [regionSpan, hbase, hlength]
    decide
  have hrun : ReachableWhere 0xffffffff80100000 AddsPages stAbove :=
    Runs.RunWhere.next (.start ⟨by decide, _, _, hinit⟩)
      (show AddsPages st₀ (.addRegion 0x4000 0x2000) from
        ⟨by decide, by decide, by decide, by decide, by decide⟩) (returns_addRegion hfirst)
  refine ⟨stAbove, hrun, by rw [hregion]; rfl, habove, hapart, ?_, ⟨stBelow, hbelow⟩, hover, ?_⟩
  · rintro ⟨err', st', hcall, -, hiff⟩
    obtain ⟨rfl, -⟩ := ok_pair_inj (habove.symm.trans hcall)
    exact hapart (hiff.mp rfl)
  · rintro ⟨err', st', hcall, -, hiff⟩
    obtain ⟨rfl, -⟩ := ok_pair_inj (hbelow.symm.trans hcall)
    exact absurd (hiff.mpr hover) (by decide)

end Octiron.Pmm
