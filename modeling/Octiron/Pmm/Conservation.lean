import Octiron.Pmm.Isolation

/-! When the bytes of a region are all accounted for.  They are exactly as long
as no allocation has cut the middle out of a block: that split drops the tail
for good. -/
namespace Octiron.Pmm

open Lib Lib.Word Lib.ByteMemory Lib.Span Exec

/-- Every grant came out of a region, and every region is exactly partitioned
into its linked blocks and the ranges granted from it. -/
def Conserved (w : World) : Prop :=
  (∀ g ∈ w.grants, ∃ region ∈ w.st.regions, Inside g (regionSpan region)) ∧
    ∀ region ∈ w.st.regions, ∃ blocks, Linked w.st.mem region.freeBlocks blocks ∧
      (∀ block ∈ blocks, Inside (blockSpan w.st.mem block) (regionSpan region)) ∧
      (∀ x ∈ regionSpan region,
        cover (blocks.map (blockSpan w.st.mem)) x + cover w.grants x = 1) ∧
      region.freeBytes.toNat = total (blocks.map (blockSpan w.st.mem))

/-- The call reaches a block and leaves some of it on both sides of its grant. -/
def CutsMiddle (st : State) : Call → Prop
  | .addRegion _ _ => False
  | .allocAligned size alignment ret => ∃ region, Reaches st size alignment ret region ∧
      let base := (blockBase st.mem region.freeBlocks).toNat
      let granted := (alignUp (blockBase st.mem region.freeBlocks) alignment).toNat
      base < granted ∧ granted + (alignUp size pageSize).toNat <
        base + (blockLength st.mem region.freeBlocks).toNat

instance (st : State) (call : Call) : Decidable (CutsMiddle st call) :=
  match call with
  | .addRegion _ _ => isFalse id
  | .allocAligned size alignment ret =>
    match hfound : st.regions.find? (hasRoom (alignUp size pageSize)) with
    | none => isFalse fun ⟨_, hreach, _⟩ => nomatch hfound.symm.trans hreach.found
    | some region => decidable_of_iff (Reaches st size alignment ret region ∧ _)
        ⟨fun h => ⟨region, h⟩, fun ⟨_, hreach, hboth⟩ => by
          obtain rfl := Option.some.inj (hfound.symm.trans hreach.found)
          exact ⟨hreach, hboth⟩⟩

theorem droppedTail_eq_nil {st : State} {region : MemoryRegion} {size alignment : U64} :
    droppedTail st region size alignment = [] ↔
      ¬ ((blockBase st.mem region.freeBlocks).toNat <
          (alignUp (blockBase st.mem region.freeBlocks) alignment).toNat ∧
        (alignUp (blockBase st.mem region.freeBlocks) alignment).toNat + size.toNat <
          (blockBase st.mem region.freeBlocks).toNat +
            (blockLength st.mem region.freeBlocks).toNat) := by
  unfold droppedTail lostByCut blockSpan
  split <;> simp_all

section Account

variable {blockBuf : U64} {w w' : World} {used : Nat} {lost : List Span}

/-- The account balances exactly when nothing has been dropped. -/
theorem Inv.conserved_iff_lost (h : Inv blockBuf w used lost) : Conserved w ↔ lost = [] := by
  constructor
  · rintro ⟨-, hregions⟩
    by_contra hne
    obtain ⟨s, hs⟩ := List.exists_mem_of_ne_nil lost hne
    obtain ⟨hpos, region, hregion, hin⟩ := h.lost s hs
    have hfirst : s.base ∈ s := ⟨le_rfl, by omega⟩
    obtain ⟨blocks, hlinked, -, hpart, -⟩ := hregions region hregion
    obtain ⟨blocks', hlinked', hheld⟩ := h.linked hregion
    have hone := (h.regions region hregion).partition s.base (hin.mem hfirst)
    have hone' := hpart s.base (hin.mem hfirst)
    rw [hlinked.unique hlinked', hheld] at hone'
    have hlost := cover_pos_of_mem hs hfirst
    omega
  · rintro rfl
    refine ⟨h.grants, fun region hregion => ?_⟩
    have hinv := h.regions region hregion
    obtain ⟨blocks, hlinked, hheld⟩ := h.linked hregion
    refine ⟨blocks, hlinked, ?_, ?_, ?_⟩
    · intro block hblock
      exact (hinv.inside _ (hheld ▸ List.mem_map_of_mem hblock)).1
    · intro x hx
      rw [hheld]
      exact hinv.partition x hx
    · rw [hheld]
      exact hinv.free_eq

/-- A step drops a tail exactly when it cuts the middle out of a block. -/
theorem Inv.step_account {call : Call} (h : Inv blockBuf w used lost)
    (hstep : Step blockBuf w call w') :
    ∃ used' tail, Inv blockBuf w' used' (lost ++ tail) ∧ (tail = [] ↔ ¬ CutsMiddle w.st call) := by
  cases hstep with
  | addRegion husable hcall =>
    obtain ⟨used', hinv⟩ := addRegion_spec h husable hcall
    exact ⟨used', [], by rwa [List.append_nil], iff_of_true rfl id⟩
  | allocAligned hcall =>
    rcases allocAligned_spec h hcall with ⟨herr, rfl, -, hnone⟩ |
      ⟨region, _, _, _, used', _, _, _, hreach, _, hinv⟩
    · rw [recordGrant_of_refused herr]
      exact ⟨used, [], by rwa [List.append_nil],
        iff_of_true rfl fun ⟨region, hreach, _⟩ => hnone region hreach⟩
    · refine ⟨used', _, hinv, droppedTail_eq_nil.trans (not_congr ⟨fun hboth => ?_, ?_⟩)⟩
      · exact ⟨region, hreach, hboth⟩
      · rintro ⟨region', hreach', hboth⟩
        obtain rfl := Option.some.inj (hreach.found.symm.trans hreach'.found)
        exact hboth

end Account

/-- A step leads to a balanced account from one, and by a call that cuts no middle. -/
theorem Step.conserved_after_iff {blockBuf : U64} {w w' : World} {call : Call}
    (hrun : Run blockBuf w) (hstep : Step blockBuf w call w') :
    Conserved w' ↔ Conserved w ∧ ¬ CutsMiddle w.st call := by
  obtain ⟨used, lost, hinv⟩ := hrun.inv
  obtain ⟨used', tail, hinv', htail⟩ := hinv.step_account hstep
  rw [hinv'.conserved_iff_lost, hinv.conserved_iff_lost, List.append_eq_nil_iff, htail]

/-- A state of a run is conserved exactly when calls that never cut the middle out
of a block lead to it. -/
theorem conserved_iff {blockBuf : U64} {w : World} (hrun : Run blockBuf w) :
    Conserved w ↔ RunWhere blockBuf (fun w call => ¬ CutsMiddle w.st call) w := by
  refine Runs.Run.good_iff ?_ (fun w call w' => Step.conserved_after_iff) hrun
  exact fun w hw => hw.inv.conserved_iff_lost.mpr rfl

/-- A page from the front of a region: the split keeps everything. -/
theorem conserved_iff_firstPage :
    ∃ w, w.grants = [⟨0x1000, 0x1000⟩] ∧ Conserved w := by
  have hruns : (do
      let st ← bootWith 0xffffffff80100000 0x1000 0x3000
      let result ← allocAligned st 0x1000 0x1000 (some 0)
      return (decide (CutsMiddle st (.allocAligned 0x1000 0x1000 (some 0))), result.1,
        result.2.1) : Exec _) = .ok (false, .ofCode .success, some 0x1000) := by
    decide +kernel
  obtain ⟨st, hboot, hruns⟩ := bind_eq_ok.mp hruns
  obtain ⟨⟨err, ret, st'⟩, hcall, hresult⟩ := bind_eq_ok.mp hruns
  obtain ⟨hclean, hresult⟩ := Prod.mk.inj (pure_eq_ok.mp hresult)
  obtain ⟨rfl, rfl⟩ := Prod.mk.inj hresult
  have hrun := (runWhere_bootWith (P := fun w call => ¬ CutsMiddle w.st call) (by decide)
    usable_threePages (fun _ => id) hboot).next (of_decide_eq_false hclean) (.allocAligned hcall)
  exact ⟨_, rfl, (conserved_iff hrun.run).mpr hrun⟩

/-- The middle page of a region of three: the last page is neither linked nor
granted. -/
theorem not_conserved_middlePage :
    ∃ w, Run 0xffffffff80100000 w ∧ w.offered = [⟨0x1000, 0x3000⟩] ∧
      w.grants = [⟨0x2000, 0x1000⟩] ∧ ¬ Conserved w := by
  have hruns : (do
      let st ← bootWith 0xffffffff80100000 0x1000 0x3000
      let result ← allocAligned st 0x1000 0x2000 (some 0)
      return (decide (CutsMiddle st (.allocAligned 0x1000 0x2000 (some 0))), result.1,
        result.2.1) : Exec _) = .ok (true, .ofCode .success, some 0x2000) := by
    decide +kernel
  obtain ⟨st, hboot, hruns⟩ := bind_eq_ok.mp hruns
  obtain ⟨⟨err, ret, st'⟩, hcall, hresult⟩ := bind_eq_ok.mp hruns
  obtain ⟨hcuts, hresult⟩ := Prod.mk.inj (pure_eq_ok.mp hresult)
  obtain ⟨rfl, rfl⟩ := Prod.mk.inj hresult
  have hrun : Run 0xffffffff80100000 ⟨st, [⟨0x1000, 0x3000⟩], []⟩ :=
    runWhere_bootWith (by decide) usable_threePages (fun _ => trivial) hboot
  have hstep := @Step.allocAligned 0xffffffff80100000
    ⟨st, [⟨0x1000, 0x3000⟩], []⟩ _ _ _ _ _ _ hcall
  refine ⟨_, Runs.RunWhere.next hrun trivial hstep, rfl, rfl, fun hconserved => ?_⟩
  exact ((Step.conserved_after_iff hrun hstep).mp hconserved).2 (of_decide_eq_true hcuts)

end Octiron.Pmm
