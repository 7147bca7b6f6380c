import Octiron.Pmm.AddRegion

/-! The invariant over whole runs, and what it says of a successful allocation:
the granted range belongs to nobody else. -/
namespace Octiron.Pmm

open Lib Lib.Word Lib.ByteMemory Lib.Span Exec

theorem Initial.inv {blockBuf : U64} {w : World} (h : Initial blockBuf w) :
    Inv blockBuf w 0 [] := by
  obtain ⟨hobject, hoffered, hgrants, mem, hcall⟩ := h
  obtain ⟨hst, hslab⟩ := pmmInitialize_spec rfl hobject hcall
  have hregions : w.st.regions = [] := by rw [hst]
  refine ⟨hslab, by rw [hst], ?_, ?_, ?_, ?_, ?_⟩
  · simp [hregions]
  · simp [hregions]
  · simp [hregions]
  · simp [hgrants]
  · simp

/-- A refused call records nothing. -/
theorem recordGrant_of_refused {grants : List Span} {err : Error} (herr : err.isOk = false)
    (ret : Option U64) (size : U64) : recordGrant grants err ret size = grants := by
  cases ret <;> simp [recordGrant, herr]

theorem Inv.step {blockBuf : U64} {w w' : World} {call : Call} {used : Nat} {lost : List Span}
    (h : Inv blockBuf w used lost) (hstep : Step blockBuf w call w') :
    ∃ used' lost', Inv blockBuf w' used' lost' := by
  cases hstep with
  | addRegion husable hcall =>
    obtain ⟨used', hinv⟩ := addRegion_spec h husable hcall
    exact ⟨used', lost, hinv⟩
  | allocAligned hcall =>
    rcases allocAligned_spec h hcall with ⟨herr, rfl, -, -⟩ | ⟨_, _, _, _, used', _, _, _, _, _, hinv⟩
    · rw [recordGrant_of_refused herr]
      exact ⟨used, lost, h⟩
    · exact ⟨used', _, hinv⟩

/-- Every state of a run satisfies the invariant. -/
theorem Run.inv {blockBuf : U64} {w : World} (h : Run blockBuf w) :
    ∃ used lost, Inv blockBuf w used lost := by
  refine Runs.RunWhere.induction (Q := fun w => ∃ used lost, Inv blockBuf w used lost) ?_ ?_ h
  · exact fun _ hinitial => ⟨0, [], hinitial.inv⟩
  · rintro _ _ _ - ⟨_, _, hinv⟩ - hstep
    exact hinv.step hstep

section Account

variable {blockBuf : U64} {w : World} {used : Nat} {lost : List Span}

/-- The newest grant shares no byte with the older ones. -/
theorem Inv.newest_disjoint (h : Inv blockBuf w used lost) {s : Span} {rest : List Span}
    (hgrants : w.grants = s :: rest) {g : Span} (hg : g ∈ rest) : Disjoint s g := by
  obtain ⟨region, hregion, hin⟩ := h.grants s (hgrants ▸ List.mem_cons_self)
  have hpart := (h.regions region hregion).partition
  refine disjoint_of_cover_le (List.mem_singleton_self s) hg fun x hx => ?_
  have hone := hpart x (hin.mem hx)
  rw [hgrants, cover_cons] at hone
  rw [cover_singleton]
  omega

/-- A grant shares no byte with a linked block. -/
theorem Inv.grant_disjoint_held (h : Inv blockBuf w used lost) {g : Span} (hg : g ∈ w.grants)
    {region : MemoryRegion} (hregion : region ∈ w.st.regions) {s : Span}
    (hs : s ∈ heldAt w.st.mem region.freeBlocks) : Disjoint g s := by
  have hpart := (h.regions region hregion).partition
  have hin := ((h.regions region hregion).inside s hs).1
  refine (disjoint_of_cover_le hs hg fun x hx => ?_).symm
  have hone := hpart x (hin.mem hx)
  omega

/-- The lists are finite, and what they link are the blocks of the account. -/
theorem Inv.linked (h : Inv blockBuf w used lost) {region : MemoryRegion}
    (hregion : region ∈ w.st.regions) :
    ∃ blocks, Linked w.st.mem region.freeBlocks blocks ∧
      blocks.map (blockSpan w.st.mem) = heldAt w.st.mem region.freeBlocks :=
  (h.regions region hregion).head.linked h.slab.fits h.slab.used_le

theorem Inv.grant_disjoint_buf (h : Inv blockBuf w used lost) {g : Span} (hg : g ∈ w.grants) :
    Disjoint g (bufSpan blockBuf) := by
  obtain ⟨region, hregion, hin⟩ := h.grants g hg
  exact (h.regions region hregion).buf.mono hin ⟨le_rfl, le_rfl⟩

end Account

/-- A grant is aligned, inside one region, disjoint from every earlier grant and
every linked block, zeroed, and taken without touching an earlier grant. -/
theorem allocAligned_isolated {blockBuf : U64} {w : World} {size alignment : U64}
    {ret : Option U64} {r : U64} {st' : State} (hrun : Run blockBuf w)
    (hcall : allocAligned w.st size alignment ret = .ok (.ofCode .success, some r, st')) :
    let granted : Span := ⟨r.toNat, (alignUp size pageSize).toNat⟩
    alignment.toNat ∣ r.toNat ∧
      (∃ region ∈ st'.regions, Inside granted (regionSpan region)) ∧
      (∀ g ∈ w.grants, Disjoint granted g) ∧
      (∀ region ∈ st'.regions, ∃ blocks, Linked st'.mem region.freeBlocks blocks ∧
        ∀ block ∈ blocks, Disjoint granted (blockSpan st'.mem block)) ∧
      (∀ x : U64, x.toNat ∈ granted → st'.mem x = 0) ∧
      ∀ g ∈ w.grants, ∀ x : U64, x.toNat ∈ g → st'.mem x = w.st.mem x := by
  intro granted
  obtain ⟨used, lost, hinv⟩ := hrun.inv
  rcases allocAligned_spec hinv hcall with ⟨herr, -, -, -⟩ |
    ⟨region, hregion, k, r', used', hk, -, hr, -, hgrant, hinv'⟩
  · exact absurd herr (by decide)
  obtain rfl := Option.some.inj hr
  have hnew : granted ∈ recordGrant w.grants (.ofCode .success) (some r) size :=
    List.mem_cons_self
  have hhigh := (hinv.regions region hregion).high
  have hlast : r.toNat + (alignUp size pageSize).toNat ≤
      region.base.toNat + region.length.toNat := hgrant.inside.2
  have hrange : r.toNat + (alignUp size pageSize).toNat ≤ 2 ^ 64 := by omega
  have hearlier : ∀ g ∈ w.grants, Disjoint granted g :=
    fun g hg => hinv'.newest_disjoint rfl hg
  refine ⟨hk ▸ hgrant.aligned, hinv'.grants granted hnew, hearlier, ?_, ?_, ?_⟩
  · intro region' hregion'
    obtain ⟨blocks, hlinked, hheld⟩ := hinv'.linked hregion'
    refine ⟨blocks, hlinked, fun block hblock => ?_⟩
    apply hinv'.grant_disjoint_held hnew hregion'
    rw [← hheld]
    exact List.mem_map_of_mem hblock
  · intro x hx
    exact hgrant.zero x ((within_iff hrange).mpr hx)
  · intro g hg x hx
    apply hgrant.frame
    · intro hin
      exact hearlier g hg x.toNat ((within_iff hrange).mp hin) hx
    · intro hin
      exact hinv.grant_disjoint_buf hg x.toNat hx ((within_iff hinv.slab.fits.le).mp hin)

/-- A page on a two-page boundary, after the page in front of it has been granted. -/
theorem allocAligned_isolated_twoPageBoundary :
    ∃ w st', Run 0xffffffff80100000 w ∧ w.grants = [⟨0x1000, 0x1000⟩] ∧
      allocAligned w.st 0x1000 0x2000 (some 0) = .ok (.ofCode .success, some 0x2000, st') ∧
      (∃ region ∈ st'.regions, Inside ⟨0x2000, 0x1000⟩ (regionSpan region)) ∧
      Disjoint (⟨0x2000, 0x1000⟩ : Span) ⟨0x1000, 0x1000⟩ ∧
      (∀ x : U64, x.toNat ∈ (⟨0x2000, 0x1000⟩ : Span) → st'.mem x = 0) ∧
      ∀ x : U64, x.toNat ∈ (⟨0x1000, 0x1000⟩ : Span) → st'.mem x = w.st.mem x := by
  have hruns : (do
      let st ← bootWith 0xffffffff80100000 0x1000 0x3000
      let first ← allocAligned st 0x1000 0x1000 (some 0)
      let result ← allocAligned first.2.2 0x1000 0x2000 (some 0)
      return (first.1, first.2.1, result.1, result.2.1) : Exec _) =
        .ok (.ofCode .success, some 0x1000, .ofCode .success, some 0x2000) := by
    decide +kernel
  obtain ⟨st₀, hboot, hruns⟩ := bind_eq_ok.mp hruns
  obtain ⟨⟨err₀, ret₀, st⟩, hfirst, hruns⟩ := bind_eq_ok.mp hruns
  obtain ⟨⟨err, ret, st'⟩, hcall, hresult⟩ := bind_eq_ok.mp hruns
  obtain ⟨herr₀, hresult⟩ := Prod.mk.inj (pure_eq_ok.mp hresult)
  obtain ⟨hret₀, hresult⟩ := Prod.mk.inj hresult
  obtain ⟨rfl, rfl⟩ := Prod.mk.inj hresult
  dsimp only at herr₀ hret₀ hcall
  subst herr₀ hret₀
  have hboot' : Run 0xffffffff80100000 ⟨st₀, [⟨0x1000, 0x3000⟩], []⟩ :=
    runWhere_bootWith (by decide) usable_threePages (fun _ => trivial) hboot
  have hrun := Runs.RunWhere.next hboot' trivial
    (@Step.allocAligned _ ⟨st₀, [⟨0x1000, 0x3000⟩], []⟩ _ _ _ _ _ _ hfirst)
  obtain ⟨-, hregion, hearlier, -, hzero, hframe⟩ := allocAligned_isolated hrun hcall
  have hmem := List.mem_singleton_self (⟨0x1000, 0x1000⟩ : Span)
  exact ⟨_, st', hrun, rfl, hcall, hregion, hearlier _ hmem, hzero, hframe _ hmem⟩

end Octiron.Pmm
