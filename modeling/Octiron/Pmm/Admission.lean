import Octiron.Pmm.Calls

/-! Which calls of `add_region` enter a region, and what they enter.  The fit test
is made on wrapped sums: a region that ends before the first page boundary passes
it and enters nearly the whole address space. -/
namespace Octiron.Pmm

open Lib Lib.Word Lib.ByteMemory Lib.Span Exec

/-- The page-rounded length `add_region` computes. -/
def alignedLength (base size : U64) : U64 :=
  alignDown (size - (alignUp base pageSize - base)) pageSize

/-- The size tests of `add_region`. -/
def SizeTests (base size : U64) : Prop :=
  alignUp base pageSize + alignedLength base size ≤ base + size ∧
    pageSize ≤ alignedLength base size

instance (base size : U64) : Decidable (SizeTests base size) :=
  inferInstanceAs (Decidable (_ ∧ _))

/-- The call passes every test of `add_region`. -/
structure Admitted (st : State) (base size : U64) : Prop where
  base_ne : base ≠ 0
  room : st.regions.length < regionCountMax
  sizes : SizeTests base size
  fresh : st.regions.any (managesBase · (alignUp base pageSize)) = false

section Tests

variable {st : State} {base size : U64}

theorem addRegion_of_room (hbase : base ≠ 0) (hroom : st.regions.length < regionCountMax) :
    addRegion st base size = if ¬ SizeTests base size then .ok (.ofCode .pmmRegionTooSmall, st)
      else if st.regions.any (managesBase · (alignUp base pageSize)) then
        .ok (.ofCode .pmmRegionManaged, st)
      else insertRegion st (alignUp base pageSize) (alignedLength base size) := by
  unfold addRegion
  simp only [hbase, if_false, Nat.not_le.mpr hroom, ge_iff_le, SizeTests, alignedLength,
    not_and_or]

theorem addRegion_of_sizes (hbase : base ≠ 0) (hroom : st.regions.length < regionCountMax)
    (hsizes : SizeTests base size) :
    addRegion st base size = if st.regions.any (managesBase · (alignUp base pageSize)) then
        .ok (.ofCode .pmmRegionManaged, st)
      else insertRegion st (alignUp base pageSize) (alignedLength base size) := by
  rw [addRegion_of_room hbase hroom, if_neg (not_not.mpr hsizes)]

theorem Admitted.addRegion (h : Admitted st base size) :
    addRegion st base size =
      insertRegion st (alignUp base pageSize) (alignedLength base size) := by
  rw [addRegion_of_sizes h.base_ne h.room h.sizes, h.fresh]
  rfl

/-- The other calls are refused. -/
theorem addRegion_of_not_admitted (h : ¬ Admitted st base size) :
    ∃ err, err.isOk = false ∧ addRegion st base size = .ok (err, st) := by
  by_cases hbase : base = 0
  · exact ⟨.ofCode .nullArgument, rfl, if_pos hbase⟩
  by_cases hroom : st.regions.length < regionCountMax
  · by_cases hsizes : SizeTests base size
    · by_cases hfresh : st.regions.any (managesBase · (alignUp base pageSize)) = false
      · exact absurd ⟨hbase, hroom, hsizes, hfresh⟩ h
      · rw [Bool.not_eq_false] at hfresh
        refine ⟨.ofCode .pmmRegionManaged, rfl, ?_⟩
        rw [addRegion_of_sizes hbase hroom hsizes, if_pos hfresh]
    · refine ⟨.ofCode .pmmRegionTooSmall, rfl, ?_⟩
      rw [addRegion_of_room hbase hroom, if_pos hsizes]
  · refine ⟨.ofCode .pmmRegionListFull, rfl, ?_⟩
    unfold Pmm.addRegion
    simp only [hbase, if_false, ge_iff_le, Nat.le_of_not_lt hroom, if_true]

theorem Admitted.of_success {st' : State}
    (h : Pmm.addRegion st base size = .ok (.ofCode .success, st')) : Admitted st base size := by
  by_contra hnot
  obtain ⟨err, herr, hrefused⟩ := addRegion_of_not_admitted hnot
  obtain ⟨rfl, -⟩ := ok_pair_inj (h.symm.trans hrefused)
  exact absurd herr (by decide)

/-- With two descriptors left a region that passed the tests is entered. -/
theorem insertRegion_returns {blockBuf : U64} {used : Nat}
    (hslab : SlabInv blockBuf st.blockAllocator st.mem used) (hused : used + 1 < 64) :
    ∃ st', insertRegion st base size = .ok (.ofCode .success, st') := by
  have hfit := hslab.fits
  obtain ⟨s₁, m₁, halloc₁, hslab₁, -⟩ := slabAlloc_spec hslab (Nat.lt_of_succ_lt hused)
  obtain ⟨s₂, m₂, halloc₂, -, -⟩ := slabAlloc_spec hslab₁ hused
  have hfirst : (descriptor blockBuf used != 0) = true :=
    bne_iff_ne.mpr (descriptor_ne_zero hfit (Nat.le_of_lt (Nat.lt_of_succ_lt hused)))
  have hsecond := deref_of_ne (descriptor_ne_zero hfit hused.le)
  unfold insertRegion
  simp only [halloc₁, ok_bind, hfirst, kassert_true, halloc₂, hsecond]
  exact ⟨_, rfl⟩

/-- What a returning call did: nothing, enter a region, or cut one. -/
theorem Returns.cases {st' : State} {call : Call} (h : Returns st call st') :
    st' = st ∨
      (∃ base size, call = .addRegion base size ∧ Admitted st base size ∧
        insertRegion st (alignUp base pageSize) (alignedLength base size) =
          .ok (.ofCode .success, st')) ∨
      ∃ size alignment ret i region ret', call = .allocAligned size alignment ret ∧
        st.regions[i]? = some region ∧ Reaches st size alignment ret region ∧
        allocFromRegion st i region (alignUp size pageSize) alignment =
          .ok (.ofCode .success, ret', st') := by
  obtain ⟨err, ret', hperform⟩ := h
  cases call with
  | addRegion base size =>
    obtain ⟨hadd, rfl⟩ := perform_addRegion_eq_ok.mp hperform
    by_cases hadmitted : Admitted st base size
    · rw [hadmitted.addRegion] at hadd
      obtain ⟨rfl, -⟩ := insertRegion_cases hadd
      exact .inr (.inl ⟨base, size, rfl, hadmitted, hadd⟩)
    · obtain ⟨err, -, hrefused⟩ := addRegion_of_not_admitted hadmitted
      exact .inl (ok_pair_inj (hadd.symm.trans hrefused)).2
  | allocAligned size alignment ret =>
    rcases allocAligned_cases hperform with ⟨-, hsame, -, -⟩ | ⟨i, region, hi, hreach, hsearch⟩
    · exact .inl hsame
    · obtain ⟨rfl, -⟩ := allocFromRegion_cases hsearch
      exact .inr (.inr ⟨size, alignment, ret, i, region, ret', rfl, hi, hreach, hsearch⟩)

end Tests

/-- The first page boundary at or after an address. -/
def firstPage (x : Nat) : Nat := (x + (pageBytes - 1)) / pageBytes * pageBytes

/-- The interval contains no whole page. -/
def NoWholePage (s : Span) : Prop := ∀ p, ¬ Inside ⟨p * pageBytes, pageBytes⟩ s

theorem noWholePage_iff {s : Span} :
    NoWholePage s ↔ s.base + s.length < firstPage s.base + pageBytes := by
  simp only [NoWholePage, Inside, firstPage, pageBytes]
  constructor
  · intro h
    have hfirst := h ((s.base + (4096 - 1)) / 4096)
    omega
  · intro h p
    omega

section Rounding

variable {base size : U64}

theorem alignUp_pageSize_toNat (v : U64) :
    (alignUp v pageSize).toNat = firstPage v.toNat % 2 ^ 64 := by
  have hsum : (v + pageSize - 1).toNat = (v.toNat + 4095) % 2 ^ 64 := by
    rw [BitVec.sub_eq_add_neg, BitVec.add_assoc, show pageSize + -1 = (4095 : U64) by decide,
      BitVec.toNat_add]
    rfl
  rw [alignUp, toNat_and_not_sub_one _ pageSize pageSize_toNat, hsum, firstPage, pageBytes]
  have hlt := v.isLt
  omega

/-- How far the rounded base lies above the base. -/
theorem gap_toNat (base : U64) :
    (alignUp base pageSize - base).toNat = firstPage base.toNat - base.toNat := by
  have hlt := base.isLt
  rw [BitVec.toNat_sub, alignUp_pageSize_toNat, firstPage, pageBytes]
  omega

/-- A region that reaches its first page boundary keeps the whole pages after it. -/
theorem alignedLength_of_fits (hfirst : firstPage base.toNat ≤ base.toNat + size.toNat) :
    (alignedLength base size).toNat =
      (base.toNat + size.toNat - firstPage base.toNat) / pageBytes * pageBytes := by
  have hle : base.toNat ≤ firstPage base.toNat := by
    rw [firstPage, pageBytes]
    omega
  rw [alignedLength, alignDown_toNat pageSize_toNat, BitVec.toNat_sub_of_le, gap_toNat, pageBytes]
  · congr 2
    omega
  · rw [BitVec.le_def, gap_toNat]
    omega

/-- One that does not is taken for a region of every page but one. -/
theorem alignedLength_of_not_fits (hfirst : base.toNat + size.toNat < firstPage base.toNat) :
    (alignedLength base size).toNat = 2 ^ 64 - pageBytes := by
  have hlt := size.isLt
  rw [alignedLength, alignDown_toNat pageSize_toNat, BitVec.toNat_sub, gap_toNat, pageBytes]
  rw [firstPage, pageBytes] at hfirst ⊢
  omega

end Rounding

section Given

variable {st : State} {base size : U64}

/-- The tests pass when the interval contains a whole page, and also when it ends
before its first page boundary. -/
theorem sizeTests_iff :
    SizeTests base size ↔ ¬ NoWholePage ⟨base.toNat, size.toNat⟩ ∨
      base.toNat + size.toNat < firstPage base.toNat := by
  have hlt := base.isLt
  rw [SizeTests, BitVec.le_def, BitVec.le_def, BitVec.toNat_add, BitVec.toNat_add, pageSize_toNat,
    alignUp_pageSize_toNat, noWholePage_iff]
  by_cases hfirst : firstPage base.toNat ≤ base.toNat + size.toNat
  · rw [alignedLength_of_fits hfirst]
    rw [firstPage, pageBytes] at hfirst ⊢
    dsimp only
    omega
  · rw [alignedLength_of_not_fits (Nat.lt_of_not_le hfirst)]
    rw [firstPage, pageBytes] at hfirst ⊢
    dsimp only
    omega

/-- What `add_region` owes its caller: it records whole pages of the interval it
was given, and says so when there are none. -/
structure ManagesOnlyGiven (st : State) (base size : U64) : Prop where
  recorded : ∀ st', addRegion st base size = .ok (.ofCode .success, st') →
    ∃ region, st'.regions = st.regions ++ [region] ∧ pageBytes ∣ region.base.toNat ∧
      pageBytes ≤ region.length.toNat ∧ Inside (regionSpan region) ⟨base.toNat, size.toNat⟩
  too_small : NoWholePage ⟨base.toNat, size.toNat⟩ →
    addRegion st base size = .ok (.ofCode .pmmRegionTooSmall, st)

/-- It does so exactly for the intervals that reach their first page boundary. -/
theorem managesOnlyGiven_iff (hbase : base ≠ 0) (hroom : st.regions.length < regionCountMax)
    (hend : base.toNat + size.toNat ≤ 2 ^ 64) :
    ManagesOnlyGiven st base size ↔ firstPage base.toNat ≤ base.toNat + size.toNat := by
  have htests := @sizeTests_iff base size
  constructor
  · intro h
    by_contra hshort
    rw [Nat.not_le] at hshort
    have hnone : NoWholePage ⟨base.toNat, size.toNat⟩ := by
      rw [noWholePage_iff]
      exact hshort.trans (Nat.lt_add_of_pos_right (by decide))
    have hcall := h.too_small hnone
    rw [addRegion_of_sizes hbase hroom (htests.mpr (.inr hshort))] at hcall
    split at hcall
    · exact absurd (ok_pair_inj hcall).1 (by decide)
    · exact absurd (insertRegion_cases hcall).1 (by decide)
  · intro hfirst
    constructor
    · intro st' hcall
      have hadmitted := Admitted.of_success hcall
      rw [hadmitted.addRegion] at hcall
      obtain ⟨-, block, hregions⟩ := insertRegion_cases hcall
      have hlength := alignedLength_of_fits hfirst
      have hpage : ¬ NoWholePage ⟨base.toNat, size.toNat⟩ :=
        (htests.mp hadmitted.sizes).resolve_right (Nat.not_lt.mpr hfirst)
      rw [noWholePage_iff] at hpage
      have hup := alignUp_pageSize_toNat base
      rw [firstPage, pageBytes] at hlength hup hpage hfirst
      refine ⟨_, hregions, ?_, ?_, ?_, ?_⟩ <;> dsimp only [regionSpan, pageBytes] at hpage ⊢ <;>
        omega
    · intro hnone
      rw [addRegion_of_room hbase hroom, if_pos]
      rw [htests]
      exact not_or.mpr ⟨not_not.mpr hnone, Nat.not_lt.mpr hfirst⟩

/-- An unaligned interval with two whole pages, before any region is managed. -/
theorem managesOnlyGiven_twoPages : ManagesOnlyGiven { mem := fun _ => 0 } 0x1001 0x2fff :=
  (managesOnlyGiven_iff (by decide) (by decide) (by decide)).mpr (by decide)

/-- Sixteen bytes without a page boundary enter as all pages from the second one on. -/
theorem not_managesOnlyGiven_sixteenBytes :
    ∃ st st' region, Reachable 0xffffffff80100000 st ∧ st.regions = [] ∧
      addRegion st 0x1001 0x10 = .ok (.ofCode .success, st') ∧ st'.regions = [region] ∧
      region.base = 0x2000 ∧ region.length = 0xfffffffffffff000 ∧
      ¬ ManagesOnlyGiven st 0x1001 0x10 := by
  have hruns : (do
      let st ← pmmInitialize { mem := fun _ => 0 } 0xffffffff80100000 .firstFit
      let result ← addRegion st 0x1001 0x10
      return (result.1, st.regions, result.2.regions.map fun r => (r.base, r.length)) :
      Exec _) = .ok (.ofCode .success, [], [(0x2000, 0xfffffffffffff000)]) := by
    decide +kernel
  obtain ⟨st, hinit, hruns⟩ := bind_eq_ok.mp hruns
  obtain ⟨⟨err, st'⟩, hcall, hresult⟩ := bind_eq_ok.mp hruns
  obtain ⟨rfl, hresult⟩ := Prod.mk.inj (pure_eq_ok.mp hresult)
  obtain ⟨hempty, htable⟩ := Prod.mk.inj hresult
  obtain ⟨region, hregion, hfields⟩ := List.map_eq_singleton_iff.mp htable
  obtain ⟨hbase, hlength⟩ := Prod.mk.inj hfields
  have hnone : NoWholePage ⟨0x1001, 0x10⟩ := noWholePage_iff.mpr (by decide)
  refine ⟨st, st', region, .start ⟨by decide, _, _, hinit⟩, hempty, hcall, hregion, hbase,
    hlength, fun hgiven => ?_⟩
  have herr := Except.ok.inj (hcall.symm.trans (hgiven.too_small hnone))
  exact absurd (Prod.mk.inj herr).1 (by decide)

end Given

end Octiron.Pmm
