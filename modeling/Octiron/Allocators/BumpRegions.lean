import Octiron.Allocators.BumpPlacement
import Octiron.Lib.LinkedList
import Octiron.Limine.PlatformInfo
import Mathlib.Data.List.Nodup

/-! The public operations of one bump allocator: where its two allocation functions
agree, and when the list of its regions is complete. -/
namespace Octiron.Bump

open Lib Lib.LinkedList Exec Pmm
open Limine (hhdmVirtToPhys)

inductive Operation where
  | grow
  | alloc (size : U64)
  | allocAligned (size alignment : U64)

def State.next (st : State) (region : U64) : U64 := (st.headers region).next

section Functions

variable (hhdmBase : U64) (answers : Answers)

def operate (st : State) : Operation → Exec State
  | .grow => .ok (grow hhdmBase answers st).2
  | .alloc size => do
    let (_, st) ← alloc hhdmBase answers st size
    return st
  | .allocAligned size alignment => do
    let (_, st) ← allocAligned hhdmBase answers st size alignment
    return st

/-- `bump_alloc::~bump_alloc`, after at most `fuel` turns of its loop, with the
addresses it passes to `pmm::free`, which does nothing yet. -/
def destroy (st : State) (fuel : Nat) : Option (List U64 × State) :=
  (walk st.next 0 fuel st.regionList).map fun regions =>
    (regions.map (hhdmVirtToPhys hhdmBase), { st with regionList := 0, currentRegion := 0 })

/-- Page-aligned addresses, none of them null and none granted twice. -/
structure FreshRegions (obtained : List Span) : Prop where
  aligned : ∀ s ∈ obtained, 4096 ∣ s.base
  pos : ∀ s ∈ obtained, 0 < s.base
  nodup : (obtained.map Span.base).Nodup

inductive Operates : State → Operation → State → Prop where
  | operate {st st' : State} {op : Operation} (hok : operate hhdmBase answers st op = .ok st')
      (hfresh : FreshRegions st'.obtained) : Operates st op st'

def Constructed (st : State) : Prop := ∃ headers, st = { headers := headers }

def Reached (st : State) : Prop := Runs.Run Constructed (Operates hhdmBase answers) st

/-- The list from `m_region_list` on ends at `m_current_region` and is made of the
regions obtained so far, each once; the destructor returns them all. -/
def Complete (st : State) : Prop :=
  ∃ regions, Linked st.next 0 st.regionList regions ∧
    regions.getLast?.getD 0 = st.currentRegion ∧ regions.Nodup ∧
    (∀ region, region ∈ regions ↔ ∃ s ∈ st.obtained, s.base = region.toNat) ∧
    ∀ fuel > regions.length, (destroy hhdmBase st fuel).map Prod.fst =
      some (regions.map (hhdmVirtToPhys hhdmBase))

/-- `grow` is called on an allocator without a region. -/
def GrowsEmpty (st : State) (op : Operation) : Prop := op = .grow → st.currentRegion = 0

end Functions

section EntryPoints

variable {hhdmBase : U64} {answers : Answers} {st st' : State} {size alignment p : U64}

theorem allocAligned_region_ne_zero
    (h : allocAligned hhdmBase answers st size alignment = .ok (p, st')) (hsize : size ≠ 0)
    (halign : alignment ≠ 0) : st'.currentRegion ≠ 0 :=
  (allocAligned_cursor (w := ⟨st, []⟩) h hsize halign).1

/-- `alloc` needs a region to be there already. -/
theorem alloc_agrees_iff (hhdmBase : U64) (answers : Answers) (st : State) (size : U64) :
    alloc hhdmBase answers st size = allocAligned hhdmBase answers st size 1 ↔
      size = 0 ∨ st.currentRegion ≠ 0 := by
  constructor
  · intro hsame
    by_contra hneither
    obtain ⟨hsize, hempty⟩ := not_or.mp hneither
    rw [not_not] at hempty
    rw [alloc, if_pos (.inl hempty)] at hsame
    exact allocAligned_region_ne_zero hsame.symm hsize (by decide) hempty
  · rintro (rfl | hregion)
    · rw [alloc, allocAligned, if_pos (.inr rfl), if_pos (.inl rfl)]
    · exact alloc_eq_allocAligned hregion size

/-- On an allocator that has just been constructed one returns null, the other a block. -/
theorem alloc_disagrees_empty :
    (do return (← alloc 0xffffffc000000000 spacedPages emptyState 16).1 : Exec U64) = .ok 0 ∧
    (do return (← allocAligned 0xffffffc000000000 spacedPages emptyState 16 1).1 : Exec U64) =
      .ok 0xffffffc080000018 ∧
    alloc 0xffffffc000000000 spacedPages emptyState 16 ≠
      allocAligned 0xffffffc000000000 spacedPages emptyState 16 1 := by
  refine ⟨rfl, rfl, ?_⟩
  intro hsame
  have hregion := allocAligned_region_ne_zero hsame.symm (by decide) (by decide)
  exact hregion rfl

end EntryPoints

/-- The regions in the order they were obtained: those before the last `grow` are
lost, the others are linked. -/
structure Account (st : State) (lost chain : List U64) : Prop where
  linked : Linked st.next 0 st.regionList chain
  last : chain.getLast?.getD 0 = st.currentRegion
  bases : (lost ++ chain).map BitVec.toNat = (st.obtained.map Span.base).reverse

section Account

variable {hhdmBase : U64} {answers : Answers} {st st' : State} {lost chain : List U64}
  {size alignment reach p : U64}

theorem FreshRegions.of_suffix {obtained obtained' : List Span} (h : FreshRegions obtained')
    (hsuffix : obtained <:+ obtained') : FreshRegions obtained := by
  refine ⟨fun s hs => h.aligned s (hsuffix.subset hs), fun s hs => h.pos s (hsuffix.subset hs), ?_⟩
  exact h.nodup.sublist (hsuffix.sublist.map Span.base)

theorem Account.nodup (h : Account st lost chain) (hfresh : FreshRegions st.obtained) :
    (lost ++ chain).Nodup := by
  apply List.Nodup.of_map BitVec.toNat
  rw [h.bases, List.nodup_reverse]
  exact hfresh.nodup

theorem Account.mem_iff (h : Account st lost chain) (region : U64) :
    region ∈ lost ++ chain ↔ ∃ s ∈ st.obtained, s.base = region.toNat := by
  have hinjective : Function.Injective (BitVec.toNat (w := 64)) := fun _ _ => BitVec.eq_of_toNat_eq
  rw [← List.mem_map_of_injective hinjective, h.bases, List.mem_reverse, List.mem_map]

theorem Account.chain_eq_nil_iff (h : Account st lost chain) :
    chain = [] ↔ st.currentRegion = 0 := by
  rw [← h.last]
  constructor
  · rintro rfl
    rfl
  · intro hlast
    cases hget : chain.getLast? with
    | none => exact List.getLast?_eq_none_iff.mp hget
    | some region =>
      rw [hget] at hlast
      obtain rfl : region = 0 := hlast
      exact absurd (List.mem_of_getLast? hget) h.linked.ne_null

theorem Account.regionList_ne_zero (h : Account st lost chain) (hregion : st.currentRegion ≠ 0) :
    st.regionList ≠ 0 := by
  intro hzero
  exact hregion (h.chain_eq_nil_iff.mp (h.linked.unique (linked_nil.mpr hzero)))

/-- The regions are all there exactly when none is lost. -/
theorem Account.complete_iff (h : Account st lost chain) (hfresh : FreshRegions st.obtained) :
    Complete hhdmBase st ↔ lost = [] := by
  constructor
  · rintro ⟨regions, hlinked, -, -, hall, -⟩
    obtain rfl := hlinked.unique h.linked
    apply List.eq_nil_iff_forall_not_mem.mpr
    intro region hlost
    have hboth := (hall region).mpr ((h.mem_iff region).mp (List.mem_append_left _ hlost))
    exact List.disjoint_of_nodup_append (h.nodup hfresh) hlost hboth
  · rintro rfl
    refine ⟨chain, h.linked, h.last, h.nodup hfresh, h.mem_iff, ?_⟩
    intro fuel hfuel
    rw [destroy, walk_eq_some.mpr ⟨h.linked, hfuel⟩]
    rfl

theorem Constructed.account (h : Constructed st) : Account st [] [] := by
  obtain ⟨headers, rfl⟩ := h
  exact ⟨linked_nil.mpr rfl, rfl, rfl⟩

end Account

section Step

variable {hhdmBase : U64} {answers : Answers} {st st' : State} {lost chain : List U64}
  {size alignment reach p : U64}

/-- A new region is not null and not among the old ones. -/
theorem Account.fresh_region (h : Account st lost chain) {region n : U64}
    (hfresh : FreshRegions (⟨region.toNat, n.toNat⟩ :: st.obtained)) :
    region ≠ 0 ∧ region ∉ lost ++ chain := by
  constructor
  · exact ne_zero_of_toNat_pos (hfresh.pos _ List.mem_cons_self)
  · intro hmem
    obtain ⟨s, hs, hbase⟩ := (h.mem_iff region).mp hmem
    have hnodup := hfresh.nodup
    rw [List.map_cons, List.nodup_cons] at hnodup
    exact hnodup.1 (List.mem_map.mpr ⟨s, hs, hbase⟩)

/-- `grow` begins a new list. -/
theorem Account.grow (h : Account st lost chain) (hgranted : ∀ k, (answers k).isGranted = true)
    (hfresh : FreshRegions (Bump.grow hhdmBase answers st).2.obtained) :
    ∃ region, Account (Bump.grow hhdmBase answers st).2 (lost ++ chain) [region] := by
  obtain ⟨pa, hpa⟩ := granted_of_all hgranted st.allocs
  have hgrow : (Bump.grow hhdmBase answers st).2.obtained =
      ⟨(hhdmPhysToVirt hhdmBase pa).toNat, pageSize.toNat⟩ :: st.obtained := by
    rw [Bump.grow, pmmAlloc_granted hpa]
    rfl
  rw [hgrow] at hfresh
  obtain ⟨hne, -⟩ := h.fresh_region hfresh
  have hopen := grow_granted hpa hne
  refine ⟨hhdmPhysToVirt hhdmBase pa, ?_, ?_, ?_⟩
  · rw [linked_cons, linked_nil]
    refine ⟨?_, hne, ?_⟩
    · rw [Bump.grow, pmmAlloc_granted hpa]
      rfl
    · rw [State.next, hopen.header]
  · exact hopen.isCurrent.symm
  · rw [List.map_append, h.bases, hgrow]
    simp

theorem Account.ensureRegion (h : Account st lost chain)
    (hgranted : ∀ k, (answers k).isGranted = true)
    (hfresh : FreshRegions (Bump.ensureRegion hhdmBase answers st).obtained) :
    ∃ chain', chain' ≠ [] ∧ Account (Bump.ensureRegion hhdmBase answers st) lost chain' := by
  by_cases hempty : st.currentRegion = 0
  · have hgrow : Bump.ensureRegion hhdmBase answers st = (Bump.grow hhdmBase answers st).2 :=
      if_pos (.inl hempty)
    rw [hgrow] at hfresh ⊢
    obtain ⟨region, hregion⟩ := h.grow hgranted hfresh
    rw [h.chain_eq_nil_iff.mpr hempty, List.append_nil] at hregion
    exact ⟨[region], List.cons_ne_nil _ _, hregion⟩
  · have hsame : Bump.ensureRegion hhdmBase answers st = st :=
      if_neg (not_or.mpr ⟨hempty, h.regionList_ne_zero hempty⟩)
    rw [hsame]
    exact ⟨chain, mt h.chain_eq_nil_iff.mp hempty, h⟩

theorem ensureRoom_next {pa : U64} (hpa : answers st.allocs = .granted pa)
    (hroom : st.current.end_ < reach) (region : U64) :
    (Bump.ensureRoom hhdmBase answers st reach).next region =
      if region = hhdmPhysToVirt hhdmBase pa then 0
      else if region = st.currentRegion then hhdmPhysToVirt hhdmBase pa else st.next region := by
  rw [Bump.ensureRoom, if_pos hroom]
  dsimp only
  rw [pmmAlloc_granted hpa]
  simp only [State.next, State.setHeader, Function.update_apply, apply_ite Region.next]

theorem ensureRoom_regionList {pa : U64} (hpa : answers st.allocs = .granted pa) :
    (Bump.ensureRoom hhdmBase answers st reach).regionList = st.regionList := by
  unfold Bump.ensureRoom
  split
  · dsimp only
    rw [pmmAlloc_granted hpa]
    rfl
  · rfl

/-- A region for a request that does not fit goes to the end of the list. -/
theorem Account.ensureRoom (h : Account st lost chain) (hchain : chain ≠ [])
    (hgranted : ∀ k, (answers k).isGranted = true)
    (hfresh : FreshRegions (Bump.ensureRoom hhdmBase answers st reach).obtained) :
    ∃ chain', chain' ≠ [] ∧ Account (Bump.ensureRoom hhdmBase answers st reach) lost chain' := by
  by_cases hroom : st.current.end_ < reach
  · obtain ⟨pa, hpa⟩ := granted_of_all hgranted st.allocs
    have hlist := h.regionList_ne_zero (mt h.chain_eq_nil_iff.mpr hchain)
    have hopen := @ensureRoom_granted hhdmBase _ _ _ _ hpa hroom hlist
    rw [hopen.obtained] at hfresh
    obtain ⟨hne, hnew⟩ := h.fresh_region hfresh
    have hnext := @ensureRoom_next hhdmBase _ _ _ _ hpa hroom
    set region := hhdmPhysToVirt hhdmBase pa
    obtain ⟨xs, x, rfl⟩ := (List.eq_nil_or_concat' chain).resolve_left hchain
    have hlast : x = st.currentRegion := by
      rw [← h.last, List.getLast?_concat]
      rfl
    have hnodup := (List.nodup_append.mp (h.nodup (hfresh.of_suffix (List.suffix_cons _ _)))).2.1
    have hx : x ∉ xs := fun hmem => (List.nodup_append.mp hnodup).2.2 x hmem x (by simp) rfl
    simp only [List.mem_append, List.mem_singleton, not_or] at hnew
    refine ⟨xs ++ [x] ++ [region], by simp, ?_, ?_, ?_⟩
    · rw [ensureRoom_regionList hpa]
      refine h.linked.concat hne (fun y hy => ?_) ?_ ?_
      · have hyRegion : y ≠ region := fun heq => hnew.2.1 (heq ▸ hy)
        have hyCurrent : y ≠ st.currentRegion := fun heq => hx (hlast.trans heq.symm ▸ hy)
        rw [hnext, if_neg hyRegion, if_neg hyCurrent]
      · rw [hnext, if_neg (Ne.symm hnew.2.2), if_pos hlast]
      · rw [hnext, if_pos rfl]
    · rw [List.getLast?_concat, hopen.isCurrent]
      rfl
    · rw [← List.append_assoc, List.map_append, h.bases, hopen.obtained]
      simp
  · have hsame : Bump.ensureRoom hhdmBase answers st reach = st := if_neg hroom
    rw [hsame]
    exact ⟨chain, hchain, h⟩

/-- Moving the cursor leaves the links alone. -/
theorem Account.bump (h : Account st lost chain) (allocation size : U64) :
    Account (Bump.bump st allocation size).2 lost chain := by
  refine ⟨h.linked.congr fun region _ => ?_, h.last, h.bases⟩
  change (Function.update st.headers st.currentRegion _ region).next = _
  by_cases hcurrent : region = st.currentRegion
  · rw [hcurrent, Function.update_self]
    rfl
  · rw [Function.update_of_ne hcurrent]
    rfl

theorem Account.allocAligned (h : Account st lost chain)
    (hgranted : ∀ k, (answers k).isGranted = true)
    (hcall : Bump.allocAligned hhdmBase answers st size alignment = .ok (p, st'))
    (hfresh : FreshRegions st'.obtained) : ∃ chain', Account st' lost chain' := by
  by_cases hrefused : size = 0 ∨ alignment = 0
  · rw [Bump.allocAligned, if_pos hrefused] at hcall
    obtain ⟨-, rfl⟩ := ok_pair_inj hcall
    exact ⟨chain, h⟩
  · obtain ⟨hsize, halign⟩ := not_or.mp hrefused
    obtain ⟨-, rfl⟩ := allocAligned_eq_ok (w := ⟨st, []⟩) hcall hsize halign
    have hroomFresh := hfresh.of_suffix (List.suffix_refl _)
    obtain ⟨chain₁, hchain₁, h₁⟩ := h.ensureRegion hgranted
      (hroomFresh.of_suffix (ensureRoom_suffix _ _))
    obtain ⟨chain₂, -, h₂⟩ := h₁.ensureRoom hchain₁ hgranted hroomFresh
    exact ⟨chain₂, h₂.bump _ size⟩

/-- An operation loses a region exactly if it is a `grow` on an allocator that has
one. -/
theorem Account.operates {op : Operation} (h : Account st lost chain)
    (hgranted : ∀ k, (answers k).isGranted = true) (hstep : Operates hhdmBase answers st op st') :
    ∃ lost' chain', Account st' lost' chain' ∧ (lost' = [] ↔ lost = [] ∧ GrowsEmpty st op) := by
  obtain ⟨hok, hfresh⟩ := hstep
  cases op with
  | grow =>
    obtain rfl := Except.ok.inj hok
    obtain ⟨region, hregion⟩ := h.grow hgranted hfresh
    refine ⟨lost ++ chain, [region], hregion, ?_⟩
    rw [List.append_eq_nil_iff, h.chain_eq_nil_iff]
    exact and_congr_right' ⟨fun hempty _ => hempty, fun hgrows => hgrows rfl⟩
  | alloc size =>
    have hkeeps : lost = [] ↔ lost = [] ∧ GrowsEmpty st (.alloc size) :=
      (and_iff_left fun hop => Operation.noConfusion hop).symm
    obtain ⟨⟨p, st₁⟩, hcall, hst'⟩ := bind_eq_ok.mp hok
    obtain rfl := pure_eq_ok.mp hst'
    by_cases hempty : st.currentRegion = 0
    · rw [alloc, if_pos (.inl hempty)] at hcall
      obtain ⟨-, rfl⟩ := ok_pair_inj hcall
      exact ⟨lost, chain, h, hkeeps⟩
    · rw [alloc_eq_allocAligned hempty] at hcall
      obtain ⟨chain', h'⟩ := h.allocAligned hgranted hcall hfresh
      exact ⟨lost, chain', h', hkeeps⟩
  | allocAligned size alignment =>
    obtain ⟨⟨p, st₁⟩, hcall, hst'⟩ := bind_eq_ok.mp hok
    obtain rfl := pure_eq_ok.mp hst'
    obtain ⟨chain', h'⟩ := h.allocAligned hgranted hcall hfresh
    exact ⟨lost, chain', h', (and_iff_left fun hop => Operation.noConfusion hop).symm⟩

end Step

section Runs

variable {hhdmBase : U64} {answers : Answers} {st st' : State}

theorem Reached.account (hgranted : ∀ k, (answers k).isGranted = true)
    (h : Reached hhdmBase answers st) :
    FreshRegions st.obtained ∧ ∃ lost chain, Account st lost chain := by
  refine Runs.RunWhere.induction
    (Q := fun st => FreshRegions st.obtained ∧ ∃ lost chain, Account st lost chain) ?_ ?_ h
  · intro st hst
    refine ⟨?_, [], [], hst.account⟩
    obtain ⟨headers, rfl⟩ := hst
    exact ⟨nofun, nofun, .nil⟩
  · rintro st op st' - ⟨-, lost, chain, haccount⟩ - hstep
    obtain ⟨lost', chain', haccount', -⟩ := haccount.operates hgranted hstep
    cases hstep with
    | operate _ hfresh => exact ⟨hfresh, lost', chain', haccount'⟩

/-- The list is complete exactly in the states that calls lead to among which no
`grow` meets a region. -/
theorem complete_iff_growsEmpty (hgranted : ∀ k, (answers k).isGranted = true)
    (hrun : Reached hhdmBase answers st) :
    Complete hhdmBase st ↔
      Runs.RunWhere Constructed (Operates hhdmBase answers) GrowsEmpty st := by
  refine Runs.Run.good_iff ?_ ?_ hrun
  · intro st hst
    obtain ⟨headers, rfl⟩ := hst
    exact (Constructed.account ⟨headers, rfl⟩).complete_iff ⟨nofun, nofun, .nil⟩ |>.mpr rfl
  · intro st op st' hbefore hstep
    obtain ⟨hfresh, lost, chain, haccount⟩ := Reached.account hgranted hbefore
    obtain ⟨lost', chain', haccount', hlost⟩ := haccount.operates hgranted hstep
    cases hstep with
    | operate _ hfresh' => rw [haccount.complete_iff hfresh, haccount'.complete_iff hfresh', hlost]

end Runs

section Examples

def hhdm : U64 := 0xffffffc000000000

def grownOnce : State := (grow hhdm spacedPages emptyState).2

def grownTwice : State := (grow hhdm spacedPages grownOnce).2

theorem reached_grownOnce : Reached hhdm spacedPages grownOnce := by
  apply Runs.RunWhere.next (c := .grow) (.start ⟨_, rfl⟩) trivial
  exact .operate rfl ⟨by decide, by decide, by decide⟩

theorem reached_grownTwice : Reached hhdm spacedPages grownTwice :=
  reached_grownOnce.next (c := .grow) trivial
    (.operate rfl ⟨by decide, by decide, by decide⟩)

/-- One page, in the list. -/
theorem complete_iff_grownOnce :
    Reached hhdm spacedPages grownOnce ∧ (Complete hhdm grownOnce ↔
      Runs.RunWhere Constructed (Operates hhdm spacedPages) GrowsEmpty grownOnce) :=
  ⟨reached_grownOnce, complete_iff_growsEmpty (fun _ => rfl) reached_grownOnce⟩

/-- The second of two calls of `grow` drops the page of the first. -/
theorem not_complete_grownTwice :
    Reached hhdm spacedPages grownTwice ∧
    grownTwice.obtained.map Span.base = [0xffffffc080010000, 0xffffffc080000000] ∧
    Linked grownTwice.next 0 grownTwice.regionList [0xffffffc080010000] ∧
    ¬ Complete hhdm grownTwice := by
  have hlinked : Linked grownTwice.next 0 grownTwice.regionList [0xffffffc080010000] := by
    rw [linked_cons, linked_nil]
    exact ⟨by decide, by decide, by decide⟩
  refine ⟨reached_grownTwice, by decide, hlinked, ?_⟩
  rintro ⟨regions, hregions, -, -, hall, -⟩
  obtain rfl := hregions.unique hlinked
  have hfirst := (hall 0xffffffc080000000).mpr ⟨⟨0xffffffc080000000, 0x1000⟩, by decide, by decide⟩
  exact absurd hfirst (by decide)

end Examples

end Octiron.Bump
