import Octiron.Pmm.Isolation
import Octiron.Pmm.Admission

/-! The byte counters over whole runs.  Each success is charged once to its region
and once to the total, after both were tested to cover it. -/
namespace Octiron.Pmm

open Lib Lib.Word Lib.ByteMemory Lib.Span Exec

def freeSum : List MemoryRegion → Nat
  | [] => 0
  | region :: rest => region.freeBytes.toNat + freeSum rest

/-- The ranges granted from a region. -/
def grantedFrom (grants : List Span) (region : MemoryRegion) : List Span :=
  grants.filter fun s => decide (Inside s (regionSpan region))

structure CountersBalance (w : World) : Prop where
  total_eq : (totalMemory w.st).toNat = total (w.st.regions.map regionSpan)
  free_eq : (freeMemory w.st).toNat = freeSum w.st.regions
  region_eq : ∀ region ∈ w.st.regions,
    region.freeBytes.toNat + total (grantedFrom w.grants region) = region.length.toNat
  linked_le : ∀ region ∈ w.st.regions, ∃ blocks, Linked w.st.mem region.freeBlocks blocks ∧
    total (blocks.map (blockSpan w.st.mem)) ≤ region.freeBytes.toNat

/-- The two subtractions of a success take `size` from counters that hold it. -/
def SubtractsWithin (st st' : State) (size : Nat) : Prop :=
  ∃ i region region', st.regions[i]? = some region ∧ st'.regions = st.regions.set i region' ∧
    region'.freeBytes.toNat + size = region.freeBytes.toNat ∧
    (freeMemory st').toNat + size = (freeMemory st).toNat

/-- The state right after `initialize` with any policy. -/
def InitialAny (blockBuf : U64) (w : World) : Prop :=
  blockBuf.toNat + bufBytes ≤ 2 ^ 64 ∧ w.offered = [] ∧ w.grants = [] ∧
    ∃ mem p, pmmInitialize { mem := mem } blockBuf p = .ok w.st

abbrev RunAny (blockBuf : U64) (w : World) : Prop :=
  Runs.Run (InitialAny blockBuf) (Step blockBuf) w

section Sums

theorem freeSum_append (rs rs' : List MemoryRegion) :
    freeSum (rs ++ rs') = freeSum rs + freeSum rs' := by
  induction rs with
  | nil => rw [List.nil_append, freeSum, Nat.zero_add]
  | cons r rs ih => rw [List.cons_append, freeSum, freeSum, ih, Nat.add_assoc]

theorem freeSum_set {rs : List MemoryRegion} {i : Nat} {r : MemoryRegion} (h : rs[i]? = some r)
    (r' : MemoryRegion) :
    freeSum (rs.set i r') + r.freeBytes.toNat = freeSum rs + r'.freeBytes.toNat := by
  induction rs generalizing i with
  | nil => cases h
  | cons first rs ih =>
    cases i with
    | zero =>
      obtain rfl := Option.some.inj h
      rw [List.set_cons_zero, freeSum, freeSum]
      omega
    | succ i =>
      have hrest := ih (i := i) h
      rw [List.set_cons_succ, freeSum, freeSum]
      omega

/-- A table whose `i`-th entry keeps its place covers the same spans. -/
theorem map_regionSpan_set {rs : List MemoryRegion} {i : Nat} {r r' : MemoryRegion}
    (h : rs[i]? = some r) (hspan : regionSpan r' = regionSpan r) :
    (rs.set i r').map regionSpan = rs.map regionSpan := by
  rw [List.map_set, hspan]
  apply List.ext_getElem?
  intro j
  by_cases hij : i = j
  · subst hij
    rw [List.getElem?_set_self', List.getElem?_map, h]
    rfl
  · rw [List.getElem?_set_ne hij]

theorem total_le {ss : List Span} {bound : Nat} (h : ∀ s ∈ ss, s.length ≤ bound) :
    total ss ≤ ss.length * bound := by
  induction ss with
  | nil => exact Nat.zero_le _
  | cons s ss ih =>
    have hfirst := h s List.mem_cons_self
    have hrest := ih fun t ht => h t (List.mem_cons_of_mem _ ht)
    rw [total, List.length_cons, Nat.succ_mul]
    omega

theorem freeSum_le {rs : List MemoryRegion}
    (h : ∀ r ∈ rs, r.freeBytes.toNat ≤ r.length.toNat) :
    freeSum rs ≤ total (rs.map regionSpan) := by
  induction rs with
  | nil => exact Nat.le_refl 0
  | cons r rs ih =>
    have hfirst := h r List.mem_cons_self
    have hrest := ih fun s hs => h s (List.mem_cons_of_mem _ hs)
    rw [freeSum, List.map_cons, total]
    exact Nat.add_le_add hfirst hrest

end Sums

/-- The counters that calls maintain, and the room left in the table. -/
structure Counted (w : World) : Prop where
  total_eq : w.st.totalBytes.toNat = total (w.st.regions.map regionSpan)
  free_eq : w.st.freeBytes.toNat = freeSum w.st.regions
  region_eq : ∀ region ∈ w.st.regions,
    region.freeBytes.toNat + total (grantedFrom w.grants region) = region.length.toNat
  count : w.st.regions.length ≤ regionCountMax

section Step

variable {blockBuf : U64} {w : World} {used : Nat} {lost : List Span}

/-- A grant is booked under the region it came from. -/
theorem total_grantedFrom_self {g : Span} {region : MemoryRegion} (hin : Inside g (regionSpan region))
    (grants : List Span) :
    total (grantedFrom (g :: grants) region) = g.length + total (grantedFrom grants region) := by
  rw [grantedFrom, List.filter_cons_of_pos (by simpa using hin), total]
  rfl

/-- It weighs nothing under another. -/
theorem total_grantedFrom_other {g : Span} {region other : MemoryRegion}
    (hin : Inside g (regionSpan region)) (hapart : Disjoint (regionSpan other) (regionSpan region))
    (grants : List Span) :
    total (grantedFrom (g :: grants) other) = total (grantedFrom grants other) := by
  by_cases hother : Inside g (regionSpan other)
  · have hempty : g.length = 0 := by
      by_contra hpos
      have hfirst : g.base ∈ g := ⟨le_rfl, by omega⟩
      exact hapart g.base (hother.mem hfirst) (hin.mem hfirst)
    rw [total_grantedFrom_self hother, hempty, Nat.zero_add]
  · rw [grantedFrom, List.filter_cons_of_neg (by simpa using hother)]
    rfl

/-- Nothing was granted inside a region that is only now entered. -/
theorem total_grantedFrom_fresh {region : MemoryRegion}
    (h : ∀ g ∈ w.grants, Disjoint (regionSpan region) g) :
    total (grantedFrom w.grants region) = 0 := by
  have hall : ∀ gs : List Span, (∀ g ∈ gs, Disjoint (regionSpan region) g) →
      total (grantedFrom gs region) = 0 := by
    intro gs
    induction gs with
    | nil => exact fun _ => rfl
    | cons g gs ih =>
      intro hgs
      have hrest := ih fun t ht => hgs t (List.mem_cons_of_mem _ ht)
      by_cases hin : Inside g (regionSpan region)
      · have hempty : g.length = 0 := by
          by_contra hpos
          have hfirst : g.base ∈ g := ⟨le_rfl, by omega⟩
          exact hgs g List.mem_cons_self g.base (hin.mem hfirst) hfirst
        rw [total_grantedFrom_self hin, hempty, hrest]
      · rw [grantedFrom, List.filter_cons_of_neg (by simpa using hin)]
        exact hrest
  exact hall w.grants h

/-- Entering a region adds its length to both totals, without a carry. -/
theorem Counted.addRegion {base size : U64} {err : Error} {st' : State} (h : Counted w)
    (hinv : Inv blockBuf w used lost)
    (husable : Usable blockBuf w.offered ⟨base.toNat, size.toNat⟩)
    (hcall : addRegion w.st base size = .ok (err, st')) :
    Counted ⟨st', ⟨base.toNat, size.toNat⟩ :: w.offered, w.grants⟩ := by
  by_cases hadmitted : Admitted w.st base size
  · rw [hadmitted.addRegion, alignedLength] at hcall
    rw [alignUp_pageSize_of_dvd husable.base_aligned
      (by have := husable.high; dsimp only at this; omega), BitVec.sub_self, BitVec.sub_zero,
      alignDown_pageSize_of_dvd husable.length_aligned] at hcall
    obtain ⟨-, -, -, -, block, -, -, -, -, -, -, rfl⟩ := insertRegion_parts hcall
    have hroom := hadmitted.room
    have hhigh := husable.high
    have hsum : total (w.st.regions.map regionSpan) ≤ 16 * 2 ^ 56 := by
      have hbound : ∀ s ∈ w.st.regions.map regionSpan, s.length ≤ 2 ^ 56 := by
        intro s hs
        obtain ⟨r, hr, rfl⟩ := List.mem_map.mp hs
        exact (Nat.le_add_left _ _).trans (hinv.regions r hr).high
      refine (total_le hbound).trans (Nat.mul_le_mul_right _ ?_)
      rw [List.length_map]
      exact h.count
    have hfree := freeSum_le fun r hr => (hinv.regions r hr).free_le
    have htotal := h.total_eq
    have hfreeEq := h.free_eq
    dsimp only at hhigh
    refine ⟨?_, ?_, ?_, ?_⟩
    · dsimp only
      rw [BitVec.toNat_add, List.map_append, total_append, Nat.mod_eq_of_lt (by omega), htotal]
      rfl
    · dsimp only
      rw [BitVec.toNat_add, freeSum_append, Nat.mod_eq_of_lt (by omega), hfreeEq]
      rfl
    · intro region hregion
      rcases List.mem_append.mp hregion with hold | hnew
      · exact h.region_eq region hold
      · rw [List.mem_singleton.mp hnew]
        have hapart : ∀ g ∈ w.grants, Disjoint ⟨base.toNat, size.toNat⟩ g := by
          intro g hg
          obtain ⟨r, hr, hin⟩ := hinv.grants g hg
          exact (husable.fresh _ (hinv.offered r hr)).mono ⟨le_rfl, le_rfl⟩ hin
        exact congrArg (size.toNat + ·) (total_grantedFrom_fresh hapart)
    · dsimp only
      rw [List.length_append, List.length_singleton]
      exact hroom
  · obtain ⟨err', -, hrefused⟩ := addRegion_of_not_admitted hadmitted
    obtain ⟨-, rfl⟩ := ok_pair_inj (hrefused.symm.trans hcall)
    exact ⟨h.total_eq, h.free_eq, h.region_eq, h.count⟩

/-- Both tests of the code come before both subtractions. -/
theorem subtractsWithin_of_success {st st' : State} {size alignment : U64} {ret ret' : Option U64}
    (h : allocAligned st size alignment ret = .ok (.ofCode .success, ret', st')) :
    SubtractsWithin st st' (alignUp size pageSize).toNat := by
  rcases allocAligned_cases h with ⟨herr, -⟩ | ⟨i, region, hi, hreach, hsearch⟩
  · exact absurd herr (by decide)
  obtain ⟨hbytes, -⟩ := hreach.room
  have hfree := hreach.free
  obtain ⟨-, freeBlocks, hregions, htotal, -⟩ := allocFromRegion_cases hsearch
  rw [BitVec.lt_def, Nat.not_lt] at hbytes hfree
  refine ⟨i, region, _, hi, hregions, ?_, ?_⟩
  · dsimp only [cutRegion]
    rw [BitVec.toNat_sub_of_le (by rw [BitVec.le_def]; exact hbytes)]
    omega
  · rw [freeMemory, freeMemory, htotal,
      BitVec.toNat_sub_of_le (by rw [BitVec.le_def]; exact hfree)]
    omega

theorem Counted.allocAligned {size alignment : U64} {ret ret' : Option U64} {err : Error}
    {st' : State} (h : Counted w) (hinv : Inv blockBuf w used lost)
    (hcall : allocAligned w.st size alignment ret = .ok (err, ret', st')) :
    Counted ⟨st', w.offered, recordGrant w.grants err ret' size⟩ := by
  rcases allocAligned_spec hinv hcall with ⟨herr, rfl, -, -⟩ |
    ⟨region, -, k, r, used', -, rfl, rfl, hreach, hgrant, -⟩
  · rw [recordGrant_of_refused herr]
    exact h
  rcases allocAligned_cases hcall with ⟨herr, -⟩ | ⟨i, region', hi, hreach', hsearch⟩
  · exact absurd herr (by decide)
  obtain rfl := Option.some.inj (hreach.found.symm.trans hreach'.found)
  obtain ⟨hbytes, -⟩ := hreach.room
  have hfree := hreach.free
  obtain ⟨-, freeBlocks, hregions, hfreeBytes, htotal, -⟩ := allocFromRegion_cases hsearch
  have hin := hgrant.inside
  rw [BitVec.lt_def, Nat.not_lt] at hbytes hfree
  have hcut : (cutRegion region freeBlocks (alignUp size pageSize)).freeBytes.toNat +
      (alignUp size pageSize).toNat = region.freeBytes.toNat := by
    dsimp only [cutRegion]
    rw [BitVec.toNat_sub_of_le (by rw [BitVec.le_def]; exact hbytes)]
    omega
  have hset := freeSum_set hi (cutRegion region freeBlocks (alignUp size pageSize))
  refine ⟨?_, ?_, ?_, ?_⟩
  · dsimp only
    rw [htotal, hregions, @map_regionSpan_set _ i region (cutRegion region freeBlocks _) hi rfl]
    exact h.total_eq
  · dsimp only
    rw [hfreeBytes, hregions, BitVec.toNat_sub_of_le (by rw [BitVec.le_def]; exact hfree), h.free_eq]
    omega
  · intro other hother
    dsimp only [recordGrant] at hother ⊢
    rw [hregions] at hother
    obtain ⟨n, hn⟩ := List.getElem?_of_mem hother
    rw [show (Error.ofCode .success).isOk = true from rfl, if_pos rfl]
    rcases getElem?_set_cases hn with ⟨rfl, rfl⟩ | ⟨hni, hkept⟩
    · have hold := h.region_eq region (List.mem_of_getElem? hi)
      have hbooked : total (grantedFrom (⟨r.toNat, (alignUp size pageSize).toNat⟩ :: w.grants)
          (cutRegion region freeBlocks (alignUp size pageSize))) = _ :=
        total_grantedFrom_self hin w.grants
      rw [hbooked]
      dsimp only [cutRegion] at hcut ⊢
      omega
    · rw [total_grantedFrom_other hin (hinv.separate n i other region hkept hi hni).1]
      exact h.region_eq other (List.mem_of_getElem? hkept)
  · dsimp only
    rw [hregions, List.length_set]
    exact h.count

theorem Run.counted (h : Run blockBuf w) : Counted w := by
  refine Runs.RunWhere.induction (Q := Counted) ?_ ?_ h
  · rintro w ⟨hobject, -, hgrants, mem, hcall⟩
    obtain ⟨hst, -⟩ := pmmInitialize_spec rfl hobject hcall
    have hregions : w.st.regions = [] := by rw [hst]
    refine ⟨?_, ?_, ?_, ?_⟩
    · rw [hst]
      rfl
    · rw [hst]
      rfl
    · simp [hregions]
    · simp [hregions]
  · intro w call w' hbefore hcounted _ hstep
    obtain ⟨used, lost, hinv⟩ := Run.inv hbefore
    cases hstep with
    | addRegion husable hcall => exact hcounted.addRegion hinv husable hcall
    | allocAligned hcall => exact hcounted.allocAligned hinv hcall

/-- What the lists link is free. -/
theorem Run.countersBalance (h : Run blockBuf w) : CountersBalance w := by
  obtain ⟨used, lost, hinv⟩ := h.inv
  have hcounted := h.counted
  refine ⟨hcounted.total_eq, hcounted.free_eq, hcounted.region_eq, fun region hregion => ?_⟩
  obtain ⟨blocks, hlinked, hheld⟩ := hinv.linked hregion
  refine ⟨blocks, hlinked, ?_⟩
  rw [hheld, (hinv.regions region hregion).free_eq]
  exact Nat.le_add_right _ _

end Step

section Policy

/-- The same world under `FIRST_FIT`. -/
def World.underFirstFit (w : World) : World := { w with st := { w.st with pol := .firstFit } }

/-- No step of `add_region` looks at the policy. -/
theorem addRegion_underFirstFit {st st' : State} {base size : U64} {err : Error}
    (h : addRegion st base size = .ok (err, st')) :
    addRegion { st with pol := .firstFit } base size =
      .ok (err, { st' with pol := .firstFit }) := by
  by_cases hadmitted : Admitted st base size
  · have hadmitted' : Admitted { st with pol := .firstFit } base size :=
      ⟨hadmitted.base_ne, hadmitted.room, hadmitted.sizes, hadmitted.fresh⟩
    rw [hadmitted.addRegion] at h
    obtain ⟨rfl, first, slab₁, m₁, block, slab, m₂, hfirst, hblock, halloc₁, halloc₂, rfl⟩ :=
      insertRegion_parts h
    have hassert : (first != 0) = true := bne_iff_ne.mpr hfirst
    rw [hadmitted'.addRegion, insertRegion]
    simp only [halloc₁, ok_bind, hassert, kassert_true, halloc₂, deref_of_ne hblock]
    rfl
  · unfold addRegion at h ⊢
    dsimp only at h ⊢
    split at h
    · obtain ⟨rfl, rfl⟩ := ok_pair_inj h
      rw [if_pos ‹_›]
    split at h
    · obtain ⟨rfl, rfl⟩ := ok_pair_inj h
      rw [if_neg ‹_›, if_pos ‹_›]
    split at h
    · obtain ⟨rfl, rfl⟩ := ok_pair_inj h
      rw [if_neg ‹_›, if_neg ‹_›, if_pos ‹_›]
    split at h
    · obtain ⟨rfl, rfl⟩ := ok_pair_inj h
      rw [if_neg ‹_›, if_neg ‹_›, if_neg ‹_›, if_pos ‹_›]
    · rename_i hbase hroom hsizes hfresh
      rw [not_or, not_not, not_not] at hsizes
      exact absurd ⟨hbase, Nat.lt_of_not_le hroom, hsizes, by simpa using hfresh⟩ hadmitted

/-- A call that returns under another policy was refused before it was looked at. -/
theorem allocAligned_underFirstFit {st st' : State} {size alignment : U64} {ret ret' : Option U64}
    {err : Error} (h : allocAligned st size alignment ret = .ok (err, ret', st')) :
    allocAligned { st with pol := .firstFit } size alignment ret =
      .ok (err, ret', { st' with pol := .firstFit }) := by
  by_cases hpol : st.pol = .firstFit
  · have hsame : { st with pol := .firstFit } = st := by
      rw [← hpol]
    have hsame' : { st' with pol := .firstFit } = st' := by
      rcases allocAligned_cases h with ⟨-, rfl, -, -⟩ | ⟨i, region, -, -, hsearch⟩
      · exact hsame
      · obtain ⟨-, freeBlocks, -, -, -, hkept⟩ := allocFromRegion_cases hsearch
        rw [← hpol, ← hkept]
    rw [hsame, hsame', h]
  · unfold allocAligned at h ⊢
    dsimp only at h ⊢
    split at h
    · obtain ⟨rfl, rfl, rfl⟩ := ok_triple_inj h
      rw [if_pos ‹_›]
    split at h
    · obtain ⟨rfl, rfl, rfl⟩ := ok_triple_inj h
      rw [if_neg ‹_›, if_pos ‹_›]
    split at h
    · obtain ⟨rfl, rfl, rfl⟩ := ok_triple_inj h
      rw [if_neg ‹_›, if_neg ‹_›, if_pos ‹_›]
    split at h
    · cases h
    · cases h

/-- A run under any policy is a run under `FIRST_FIT` but for the policy. -/
theorem RunAny.underFirstFit {blockBuf : U64} {w : World} (h : RunAny blockBuf w) :
    Run blockBuf w.underFirstFit := by
  refine Runs.RunWhere.induction (Q := fun w => Run blockBuf w.underFirstFit) ?_ ?_ h
  · rintro w ⟨hobject, hoffered, hgrants, mem, p, hcall⟩
    obtain ⟨⟨slab, mem'⟩, hgrow, hst⟩ := bind_eq_ok.mp hcall
    refine .start ⟨hobject, hoffered, hgrants, mem, ?_⟩
    rw [pmmInitialize, hgrow, World.underFirstFit, ← pure_eq_ok.mp hst]
    rfl
  · intro w call w' _ hrun _ hstep
    cases hstep with
    | addRegion husable hcall =>
      exact Runs.RunWhere.next hrun trivial
        (@Step.addRegion blockBuf w.underFirstFit _ _ _ _ husable (addRegion_underFirstFit hcall))
    | allocAligned hcall =>
      exact Runs.RunWhere.next hrun trivial (@Step.allocAligned blockBuf w.underFirstFit _ _ _ _ _ _
        (allocAligned_underFirstFit hcall))

end Policy

/-- In every state of a run the counters balance, and a success subtracts from
counters that hold what it takes. -/
theorem counters_balance {blockBuf : U64} {w : World} (hrun : RunAny blockBuf w) :
    CountersBalance w ∧ ∀ size alignment ret ret' st',
      allocAligned w.st size alignment ret = .ok (.ofCode .success, ret', st') →
      SubtractsWithin w.st st' (alignUp size pageSize).toNat := by
  obtain ⟨htotal, hfree, hregion, hlinked⟩ := (RunAny.underFirstFit hrun).countersBalance
  exact ⟨⟨htotal, hfree, hregion, hlinked⟩, fun _ _ _ _ _ => subtractsWithin_of_success⟩

/-- The middle page of a region of three: it is charged, and the tail that the
split drops stays counted as free. -/
theorem counters_balance_middlePage :
    ∃ w, w.grants = [⟨0x2000, 0x1000⟩] ∧ w.st.regions.length = 1 ∧ freeMemory w.st = 0x2000 ∧
      CountersBalance w := by
  have hruns : (do
      let st ← pmmInitialize { mem := fun _ => 0 } 0xffffffff80100000 .firstFit
      let result ← addRegion st 0x1000 0x3000
      let grant ← allocAligned result.2 0x1000 0x2000 (some 0)
      return (grant.1, grant.2.1, grant.2.2.regions.length, freeMemory grant.2.2) : Exec _) =
        .ok (.ofCode .success, some 0x2000, 1, 0x2000) := by
    decide +kernel
  obtain ⟨st₀, hinit, hruns⟩ := bind_eq_ok.mp hruns
  obtain ⟨⟨err, st⟩, hadd, hruns⟩ := bind_eq_ok.mp hruns
  obtain ⟨⟨err', ret, st'⟩, hcall, hresult⟩ := bind_eq_ok.mp hruns
  obtain ⟨rfl, hresult⟩ := Prod.mk.inj (pure_eq_ok.mp hresult)
  obtain ⟨rfl, hresult⟩ := Prod.mk.inj hresult
  obtain ⟨hone, hfree⟩ := Prod.mk.inj hresult
  have hstart : InitialAny 0xffffffff80100000 ⟨st₀, [], []⟩ := ⟨by decide, rfl, rfl, _, _, hinit⟩
  have hrun : RunAny 0xffffffff80100000 _ :=
    Runs.RunWhere.next (Runs.RunWhere.next (.start hstart) trivial
      (@Step.addRegion 0xffffffff80100000 ⟨st₀, [], []⟩ 0x1000 0x3000 _ _ usable_threePages hadd))
      trivial (.allocAligned hcall)
  exact ⟨_, rfl, hone, hfree, (counters_balance hrun).1⟩

end Octiron.Pmm
