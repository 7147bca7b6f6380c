import Octiron.Allocators.BumpRuns

/-! Where a call places its block, and the exact condition for the blocks of a run
to stay where they belong. -/
namespace Octiron.Bump

open Lib Lib.Word Lib.Span Exec Pmm

section Align

variable {x alignment : U64} {k : Nat}

theorem alignUp_one (x : U64) : alignUp x 1 = x := by
  rw [alignUp, show x + 1 - 1 = x by rw [BitVec.add_sub_cancel],
    show (~~~((1 : U64) - 1)) = BitVec.allOnes 64 by decide, BitVec.and_allOnes]

/-- Alignments up to a page divide it. -/
theorem dvd_page (hk : k ≤ 12) : 2 ^ k ∣ 4096 := Nat.pow_dvd_pow 2 hk

theorem pow_le_page (hk : k ≤ 12) : 2 ^ k ≤ 4096 := Nat.le_of_dvd (by decide) (dvd_page hk)

/-- In a page-aligned region the padding behind the header does not depend on where
the region lies. -/
theorem alignUp_behind_header (hk : k ≤ 12) (halign : alignment.toNat = 2 ^ k)
    (hpage : 4096 ∣ x.toNat) (hfit : x.toNat + 8192 ≤ 2 ^ 64) :
    (alignUp (x + sizeofRegion) alignment).toNat =
      x.toNat + (alignUp sizeofRegion alignment).toNat := by
  have hpow := pow_le_page hk
  have hpos := Nat.two_pow_pos k
  have hheader : sizeofRegion.toNat = 24 := rfl
  have hsum : (x + sizeofRegion).toNat = x.toNat + 24 := by
    rw [BitVec.toNat_add, hheader]
    omega
  obtain ⟨c, hc⟩ := (dvd_page hk).trans hpage
  rw [alignUp_toNat halign (by omega), alignUp_toNat halign (by omega), hsum, hheader, hc,
    show 2 ^ k * c + 24 + (2 ^ k - 1) = 24 + (2 ^ k - 1) + 2 ^ k * c by omega,
    Nat.add_mul_div_left _ _ hpos, Nat.add_mul, Nat.mul_comm c]
  omega

theorem alignUp_header_le (hk : k ≤ 12) (halign : alignment.toNat = 2 ^ k) :
    24 ≤ (alignUp sizeofRegion alignment).toNat ∧
      (alignUp sizeofRegion alignment).toNat ≤ 4096 := by
  have hpow := pow_le_page hk
  have hheader : sizeofRegion.toNat = 24 := rfl
  have hle := @le_alignUp sizeofRegion alignment _ halign (by omega)
  refine ⟨by omega, ?_⟩
  obtain ⟨c, hc⟩ := dvd_page hk
  have hpos := Nat.two_pow_pos k
  have hdiv : (24 + (2 ^ k - 1)) / 2 ^ k < c + 1 := by
    apply Nat.div_lt_of_lt_mul
    rw [Nat.mul_add, ← hc]
    omega
  have hmul := Nat.mul_le_mul_right (2 ^ k) (Nat.le_of_lt_succ hdiv)
  rw [alignUp_toNat halign (by omega), hheader]
  rw [Nat.mul_comm c, ← hc] at hmul
  exact hmul

end Align

section Place

variable {hhdmBase : U64} {answers : Answers} {w : World} {s : Span}

theorem pmmAlloc_granted {st : State} {pa size : U64} (h : answers st.allocs = .granted pa) :
    pmmAlloc hhdmBase answers st size = (.ofCode .success, pa, { st with
      allocs := st.allocs + 1
      obtained := ⟨(hhdmPhysToVirt hhdmBase pa).toNat, size.toNat⟩ :: st.obtained }) := by
  rw [pmmAlloc, h]

theorem granted_of_all (h : ∀ k, (answers k).isGranted = true) (k : Nat) :
    ∃ pa, answers k = .granted pa := by
  have hk := h k
  cases hanswer : answers k with
  | failed err herr =>
    rw [hanswer] at hk
    exact nomatch hk
  | granted pa => exact ⟨pa, rfl⟩

theorem grow_granted {st : State} {pa : U64} (h : answers st.allocs = .granted pa)
    (hne : hhdmPhysToVirt hhdmBase pa ≠ 0) :
    Opened st (grow hhdmBase answers st).2 (hhdmPhysToVirt hhdmBase pa) pageSize := by
  rw [grow, pmmAlloc_granted h]
  exact ⟨rfl, rfl, hne, Function.update_self .., fun other hother => by
    rw [← Function.update_of_ne hother (⟨hhdmPhysToVirt hhdmBase pa + pageSize,
      hhdmPhysToVirt hhdmBase pa + sizeofRegion, 0⟩ : Region) st.headers]
    rfl⟩

/-- The size of the region opened for a request that ends `difference` bytes past
the current one. -/
def regionSize (difference : U64) : U64 := alignUp difference pageSize + pageSize

theorem ensureRoom_granted {st : State} {pa reach : U64} (h : answers st.allocs = .granted pa)
    (hroom : st.current.end_ < reach) (hlist : st.regionList ≠ 0) :
    Opened st (ensureRoom hhdmBase answers st reach) (hhdmPhysToVirt hhdmBase pa)
      (regionSize (reach - st.current.end_)) := by
  rw [ensureRoom, if_pos hroom]
  dsimp only
  rw [pmmAlloc_granted h]
  refine ⟨rfl, rfl, hlist, Function.update_self .., fun other hother => ?_⟩
  refine (congrArg Region.end_ (Function.update_of_ne hother _ _)).trans ?_
  by_cases hcurrent : other = st.currentRegion
  · rw [hcurrent]
    change (Function.update st.headers st.currentRegion _ st.currentRegion).end_ = _
    rw [Function.update_self]
    rfl
  · exact congrArg Region.end_ (Function.update_of_ne hcurrent ..)

/-- An empty allocator opens one page; otherwise there is nothing to do. -/
theorem ensureRegion_spec (h : Inv w) (hgranted : ∀ k, (answers k).isGranted = true)
    (hfresh : Fresh (ensureRegion hhdmBase answers w.st).obtained) :
    Inv ⟨ensureRegion hhdmBase answers w.st, w.blocks⟩ ∧
      (∃ s, Current ⟨ensureRegion hhdmBase answers w.st, w.blocks⟩ s) ∧
      cursor hhdmBase answers w.st = ((ensureRegion hhdmBase answers w.st).current.curr,
        (ensureRegion hhdmBase answers w.st).current.end_) := by
  by_cases hempty : w.st.currentRegion = 0
  · obtain ⟨pa, hpa⟩ := granted_of_all hgranted w.st.allocs
    have hgrow : ensureRegion hhdmBase answers w.st =
        (grow hhdmBase answers w.st).2 := if_pos (.inl hempty)
    rw [hgrow] at hfresh ⊢
    have hne : hhdmPhysToVirt hhdmBase pa ≠ 0 := by
      intro hzero
      have hpos := hfresh.pos ⟨(hhdmPhysToVirt hhdmBase pa).toNat, pageSize.toNat⟩ (by
        rw [grow, pmmAlloc_granted hpa]
        exact List.mem_cons_self)
      rw [hzero] at hpos
      exact absurd hpos (by decide)
    have hopen := grow_granted hpa hne
    obtain ⟨hinv, hcurrent⟩ := h.opened hopen hfresh (by decide)
    refine ⟨hinv, ⟨_, hcurrent⟩, ?_⟩
    rw [cursor, if_pos hempty, hpa, hopen.current]
  · obtain ⟨s, hcurrent⟩ := h.current hempty
    have hsame : ensureRegion hhdmBase answers w.st = w.st :=
      if_neg (not_or.mpr ⟨hempty, hcurrent.list⟩)
    rw [hsame]
    exact ⟨h, ⟨s, hcurrent⟩, by rw [cursor, if_neg hempty]⟩

/-- The pages a call adds are added in front. -/
theorem ensureRoom_suffix (st : State) (reach : U64) :
    st.obtained <:+ (ensureRoom hhdmBase answers st reach).obtained := by
  unfold ensureRoom
  split
  · unfold pmmAlloc
    cases answers st.allocs with
    | failed err herr => exact List.suffix_refl _
    | granted pa => exact List.suffix_cons _ _
  · exact List.suffix_refl _

/-- The block of a request lies behind the cursor of the region it goes to, and
inside that region exactly when the request fits. -/
theorem ensureRoom_spec (h : Inv w) (hcurrent : Current w s)
    (hgranted : ∀ k, (answers k).isGranted = true) {size alignment : U64} {k : Nat} (hk : k ≤ 12)
    (halign : alignment.toNat = 2 ^ k) (hpos : 0 < size.toNat) (hsize : size.toNat < 2 ^ 48)
    (hfresh : Fresh (ensureRoom hhdmBase answers w.st
      (alignUp w.st.current.curr alignment + size)).obtained) :
    let st' := ensureRoom hhdmBase answers w.st (alignUp w.st.current.curr alignment + size)
    let p := alignUp st'.current.curr alignment
    ∃ s', Inv ⟨st', w.blocks⟩ ∧ Current ⟨st', w.blocks⟩ s' ∧ st'.current.curr.toNat ≤ p.toNat ∧
      (2 ^ 64 ≤ p.toNat + size.toNat ∨ p.toNat ∈ s') ∧
      (FitsAt w.st.current.curr w.st.current.end_ size alignment ↔
        p.toNat + size.toNat ≤ s'.base + s'.length) := by
  have hs : s ∈ w.st.obtained := List.mem_of_mem_head? hcurrent.newest
  have hpow := pow_le_page hk
  obtain ⟨⟨c, hc⟩, ⟨n, hn⟩⟩ := h.fresh.aligned s hs
  have hfits := h.fresh.fits s hs
  have hlow := hcurrent.low
  have hhigh := hcurrent.high
  have hend : w.st.current.end_.toNat = s.base + s.length := by
    rw [State.current, ← h.ends s hs, ← hcurrent.region, BitVec.ofNat_toNat, BitVec.setWidth_eq]
  have hle := @le_alignUp w.st.current.curr alignment _ halign (by omega)
  have hlt := @alignUp_lt w.st.current.curr alignment _ halign (by omega)
  intro st' p
  by_cases hwrap : 2 ^ 64 ≤ (alignUp w.st.current.curr alignment).toNat + size.toNat
  · -- the sum wraps around, the test passes, and the block is handed out as it is
    have hsame : st' = w.st := by
      refine if_neg ?_
      rw [BitVec.lt_def, BitVec.toNat_add]
      omega
    have hp : p = alignUp w.st.current.curr alignment := by
      rw [show p = alignUp st'.current.curr alignment from rfl, hsame]
    rw [hsame, hp]
    refine ⟨s, h, hcurrent, hle, .inl hwrap, iff_of_false (fun hfit => ?_) (by omega)⟩
    exact absurd hfit.1 (by omega)
  have hreach : (alignUp w.st.current.curr alignment + size).toNat =
      (alignUp w.st.current.curr alignment).toNat + size.toNat := by
    rw [BitVec.toNat_add]
    omega
  by_cases hroom : w.st.current.end_ < alignUp w.st.current.curr alignment + size
  · obtain ⟨pa, hpa⟩ := granted_of_all hgranted w.st.allocs
    have hopen := @ensureRoom_granted hhdmBase _ _ _ _ hpa hroom hcurrent.list
    set region := hhdmPhysToVirt hhdmBase pa
    set reach := alignUp w.st.current.curr alignment + size
    rw [BitVec.lt_def, hend, hreach] at hroom
    have hdiff : (reach - w.st.current.end_).toNat = reach.toNat - (s.base + s.length) := by
      rw [BitVec.toNat_sub_of_le (by rw [BitVec.le_def]; omega), hend]
    have hregion : (regionSize (reach - w.st.current.end_)).toNat =
        (reach.toNat - (s.base + s.length) + 4095) / 4096 * 4096 + 4096 := by
      rw [regionSize, BitVec.toNat_add, alignUp_toNat pageSize_toNat (by omega), hdiff,
        pageSize_toNat]
      omega
    obtain ⟨hinv, hcurrent'⟩ := h.opened hopen hfresh (by omega)
    have hmem : (⟨region.toNat, (regionSize (reach - w.st.current.end_)).toNat⟩ : Span) ∈
        st'.obtained := List.mem_of_mem_head? hcurrent'.newest
    have hfits' := hfresh.fits _ hmem
    dsimp only at hfits'
    have hplace := alignUp_behind_header hk halign (hfresh.aligned _ hmem).1 (by omega)
    obtain ⟨hheader, hpage⟩ := alignUp_header_le hk halign
    have hp : p.toNat = region.toNat + (alignUp sizeofRegion alignment).toNat := by
      rw [← hplace, show p = alignUp st'.current.curr alignment from rfl, hopen.current]
    have hcurr : st'.current.curr.toNat = region.toNat + 24 := by
      rw [hopen.current, BitVec.toNat_add, show sizeofRegion.toNat = 24 from rfl]
      omega
    refine ⟨_, hinv, hcurrent', by omega, .inr ⟨?_, ?_⟩, ?_⟩
    · dsimp only
      omega
    · dsimp only
      omega
    · rw [FitsAt, hend, ← hreach]
      dsimp only
      omega
  · have hsame : st' = w.st := if_neg hroom
    have hp : p = alignUp w.st.current.curr alignment := by
      rw [show p = alignUp st'.current.curr alignment from rfl, hsame]
    rw [BitVec.lt_def, hreach, hend] at hroom
    rw [hsame, hp]
    refine ⟨s, h, hcurrent, hle, .inr ⟨by omega, by omega⟩, iff_of_true ⟨by omega, .inl ?_⟩ ?_⟩
    · rw [hend]
      omega
    · omega

end Place

section Step

variable {hhdmBase : U64} {answers : Answers} {w w' : World} {size alignment p : U64} {st' : State}

theorem ensureRegion_suffix (st : State) :
    st.obtained <:+ (ensureRegion hhdmBase answers st).obtained := by
  unfold ensureRegion
  split
  · unfold grow pmmAlloc
    cases answers st.allocs with
    | failed err herr => simp [herr]
    | granted pa => exact List.suffix_cons _ _
  · exact List.suffix_refl _

/-- The steps of a call that is not refused. -/
theorem allocAligned_eq_ok (h : allocAligned hhdmBase answers w.st size alignment = .ok (p, st'))
    (hsize : size ≠ 0) (halign : alignment ≠ 0) :
    let st₁ := ensureRegion hhdmBase answers w.st
    let st₂ := ensureRoom hhdmBase answers st₁ (alignUp st₁.current.curr alignment + size)
    p = alignUp st₂.current.curr alignment ∧ st' = (bump st₂ p size).2 := by
  rw [allocAligned, if_neg (not_or.mpr ⟨hsize, halign⟩)] at h
  obtain ⟨_, _, h⟩ := bind_eq_ok.mp h
  obtain ⟨_, _, h⟩ := bind_eq_ok.mp h
  obtain ⟨rfl, rfl⟩ := Prod.mk.inj (pure_eq_ok.mp h)
  exact ⟨rfl, rfl⟩

/-- A block ends where the cursor stands after the call. -/
theorem allocAligned_cursor
    (h : allocAligned hhdmBase answers w.st size alignment = .ok (p, st')) (hsize : size ≠ 0)
    (halign : alignment ≠ 0) :
    st'.currentRegion ≠ 0 ∧ st'.current.curr = p + size ∧ ∃ x, p = alignUp x alignment := by
  obtain ⟨hp, hst'⟩ := allocAligned_eq_ok h hsize halign
  rw [allocAligned, if_neg (not_or.mpr ⟨hsize, halign⟩)] at h
  obtain ⟨_, -, h⟩ := bind_eq_ok.mp h
  obtain ⟨_, hregion, -⟩ := bind_eq_ok.mp h
  refine ⟨?_, ?_, _, hp⟩
  · rw [hst']
    exact deref_eq_ok.mp hregion
  · rw [hst', bump, State.current, State.setHeader]
    dsimp only
    rw [Function.update_self]

/-- The next one begins there, when it has room and needs no padding. -/
theorem allocAligned_at_cursor {st : State} (hregion : st.currentRegion ≠ 0)
    (hlist : st.regionList ≠ 0) (hsize : size ≠ 0) (halign : alignment ≠ 0)
    (haligned : alignUp st.current.curr alignment = st.current.curr)
    (hroom : ¬ st.current.end_ < st.current.curr + size) :
    ∃ st', allocAligned hhdmBase answers st size alignment = .ok (st.current.curr, st') := by
  rw [allocAligned, if_neg (not_or.mpr ⟨hsize, halign⟩), ensureRegion,
    if_neg (not_or.mpr ⟨hregion, hlist⟩)]
  dsimp only
  rw [deref_of_ne hregion, ok_bind, haligned, ensureRoom, if_neg hroom, deref_of_ne hregion, ok_bind,
    haligned]
  exact ⟨_, rfl⟩

/-- On a non-empty allocator the two functions agree. -/
theorem alloc_eq_allocAligned {st : State} (h : st.currentRegion ≠ 0) (size : U64) :
    alloc hhdmBase answers st size = allocAligned hhdmBase answers st size 1 := by
  by_cases hsize : size = 0
  · rw [alloc, allocAligned, if_pos (.inr hsize), if_pos (.inl hsize)]
  · rw [alloc, allocAligned, if_neg (not_or.mpr ⟨h, hsize⟩),
      if_neg (not_or.mpr ⟨hsize, by decide⟩)]
    simp only [alignUp_one]

theorem ne_zero_of_toNat_pos {x : U64} (h : 0 < x.toNat) : x ≠ 0 := by
  rintro rfl
  exact absurd h (by decide)

/-- A request leads to an account in order exactly when it fits. -/
theorem Inv.allocAligned (h : Inv w) (hgranted : ∀ k, (answers k).isGranted = true) {k : Nat}
    (hk : k ≤ 12) (halign : alignment.toNat = 2 ^ k) (hpos : 0 < size.toNat)
    (hsize : size.toNat < 2 ^ 48)
    (hcall : Bump.allocAligned hhdmBase answers w.st size alignment = .ok (p, st'))
    (hfresh : Fresh st'.obtained) :
    let fits := FitsAt (cursor hhdmBase answers w.st).1 (cursor hhdmBase answers w.st).2 size
      alignment
    (fits → Inv ⟨st', record w.blocks p size⟩) ∧ (¬ fits → Broken ⟨st', record w.blocks p size⟩) := by
  obtain ⟨hp, hst'⟩ := allocAligned_eq_ok hcall (ne_zero_of_toNat_pos hpos)
    (ne_zero_of_toNat_pos (by rw [halign]; exact Nat.two_pow_pos k))
  have hroomFresh : Fresh (ensureRoom hhdmBase answers (ensureRegion hhdmBase answers w.st)
      (alignUp (ensureRegion hhdmBase answers w.st).current.curr alignment + size)).obtained := by
    rw [hst'] at hfresh
    exact hfresh
  obtain ⟨h₁, ⟨s, hcurrent⟩, hcursor⟩ := ensureRegion_spec h hgranted
    (hroomFresh.of_suffix (ensureRoom_suffix _ _))
  obtain ⟨s', h₂, hcurrent', hle, hstart, hiff⟩ :=
    ensureRoom_spec h₁ hcurrent hgranted hk halign hpos hsize hroomFresh
  dsimp only at h₂ hcurrent' hle hstart hiff
  rw [← hp] at hle hstart hiff
  have hlow := hcurrent'.low
  have hrecord : record w.blocks p size = ⟨p.toNat, size.toNat⟩ :: w.blocks := by
    refine if_neg (ne_zero_of_toNat_pos ?_)
    dsimp only at hlow
    omega
  rw [hcursor, hrecord, hst']
  refine ⟨fun hfit => h₂.bump hcurrent' hpos hle (hiff.mp hfit), fun hnot => ?_⟩
  refine ⟨_, List.mem_cons_self, hpos, hstart.imp_right fun hin => ?_⟩
  exact ⟨s', List.mem_of_mem_head? hcurrent'.newest, hin, fun hinside => hnot (hiff.mpr hinside.2)⟩

/-- From an account in order, a call keeps it in order exactly when it fits. -/
theorem Inv.step {c : Call} (h : Inv w) (hgranted : ∀ k, (answers k).isGranted = true)
    (hstep : Step hhdmBase answers w c w') :
    (Fits hhdmBase answers w c → Inv w') ∧ (¬ Fits hhdmBase answers w c → Broken w') := by
  cases hstep with
  | call hargs hcall hfresh =>
    obtain ⟨k, hk, halign⟩ := hargs.alignment
    cases c with
    | allocAligned size alignment =>
      exact h.allocAligned hgranted hk halign hargs.size_pos hargs.size_lt hcall hfresh
    | alloc size =>
      by_cases hempty : w.st.currentRegion = 0
      · rw [call, alloc, if_pos (.inl hempty)] at hcall
        obtain ⟨rfl, rfl⟩ := ok_pair_inj hcall
        exact ⟨fun _ => h, fun hnot => absurd (.inl hempty) hnot⟩
      · rw [call, alloc_eq_allocAligned hempty] at hcall
        obtain ⟨hkeeps, hbreaks⟩ := h.allocAligned hgranted hk halign hargs.size_pos
          hargs.size_lt hcall hfresh
        exact ⟨fun hfits => hkeeps (hfits.resolve_left hempty),
          fun hnot => hbreaks fun hfits => hnot (.inr hfits)⟩

theorem allocAligned_suffix
    (hcall : allocAligned hhdmBase answers w.st size alignment = .ok (p, st')) :
    w.st.obtained <:+ st'.obtained := by
  by_cases hrefused : size = 0 ∨ alignment = 0
  · rw [allocAligned, if_pos hrefused] at hcall
    obtain ⟨_, rfl⟩ := ok_pair_inj hcall
    exact List.suffix_refl _
  · obtain ⟨hsize, halign⟩ := not_or.mp hrefused
    obtain ⟨-, rfl⟩ := allocAligned_eq_ok hcall hsize halign
    exact (ensureRegion_suffix w.st).trans (ensureRoom_suffix _ _)

/-- An overrun is never taken back. -/
theorem Broken.step {c : Call} (h : Broken w) (hstep : Step hhdmBase answers w c w') :
    Broken w' := by
  obtain ⟨b, hb, hpos, hover⟩ := h
  cases hstep with
  | @call p st' hargs hcall hfresh =>
    have hsuffix : w.st.obtained <:+ st'.obtained := by
      cases c with
      | allocAligned size alignment => exact allocAligned_suffix hcall
      | alloc size =>
        by_cases hempty : w.st.currentRegion = 0
        · rw [call, alloc, if_pos (.inl hempty)] at hcall
          obtain ⟨_, rfl⟩ := ok_pair_inj hcall
          exact List.suffix_refl _
        · rw [call, alloc_eq_allocAligned hempty] at hcall
          exact allocAligned_suffix hcall
    have hb' : b ∈ record w.blocks p c.size := by
      unfold record
      split
      · exact hb
      · exact List.mem_cons_of_mem _ hb
    exact ⟨b, hb', hpos, hover.imp_right fun ⟨s, hs, hin⟩ => ⟨s, hsuffix.subset hs, hin⟩⟩

end Step

section Runs

variable {hhdmBase : U64} {answers : Answers} {w : World}

theorem Initial.inv (h : Initial w) : Inv w := by
  obtain ⟨headers, rfl⟩ := h
  refine ⟨⟨?_, ?_, ?_, .nil⟩, fun _ => rfl, fun hne => absurd rfl hne, ?_, ?_, ?_, .nil⟩ <;> simp

/-- Every state of a run is in order, or has an overrun in a fresh set of regions. -/
theorem Run.inv_or_broken (hgranted : ∀ k, (answers k).isGranted = true)
    (h : Run hhdmBase answers w) : Inv w ∨ Fresh w.st.obtained ∧ Broken w := by
  refine Runs.RunWhere.induction (Q := fun w => Inv w ∨ Fresh w.st.obtained ∧ Broken w) ?_ ?_ h
  · exact fun _ hw => .inl hw.inv
  · intro w c w' _ ih _ hstep
    have hfresh : Fresh w'.st.obtained := by
      cases hstep with
      | call _ _ hfresh => exact hfresh
    rcases ih with hinv | ⟨-, hbroken⟩
    · by_cases hfits : Fits hhdmBase answers w c
      · exact .inl ((hinv.step hgranted hstep).1 hfits)
      · exact .inr ⟨hfresh, (hinv.step hgranted hstep).2 hfits⟩
    · exact .inr ⟨hfresh, hbroken.step hstep⟩

/-- A step leads to blocks in order exactly from blocks in order and by a call that
fits. -/
theorem Step.ownedBlocks_iff (hgranted : ∀ k, (answers k).isGranted = true) {w' : World} {c : Call}
    (hrun : Run hhdmBase answers w) (hstep : Step hhdmBase answers w c w') :
    Owned w' ↔ Owned w ∧ Fits hhdmBase answers w c := by
  have hfresh : Fresh w'.st.obtained := by
    cases hstep with
    | call _ _ hfresh => exact hfresh
  rcases Run.inv_or_broken hgranted hrun with hinv | ⟨hold, hbroken⟩
  · obtain ⟨hkeeps, hbreaks⟩ := hinv.step hgranted hstep
    by_cases hfits : Fits hhdmBase answers w c
    · exact iff_of_true (hkeeps hfits).owned ⟨hinv.owned, hfits⟩
    · exact iff_of_false ((hbreaks hfits).not_owned hfresh) fun hboth => hfits hboth.2
  · exact iff_of_false ((hbroken.step hstep).not_owned hfresh)
      fun hboth => hbroken.not_owned hold hboth.1

/-- The blocks of a run lie where they belong exactly when calls that all fit lead
there. -/
theorem owned_iff (hgranted : ∀ k, (answers k).isGranted = true)
    (hrun : Run hhdmBase answers w) :
    Owned w ↔ Runs.RunWhere Initial (Step hhdmBase answers) (Fits hhdmBase answers) w :=
  Runs.Run.good_iff (fun _ hw => hw.inv.owned) (fun _ _ _ => Step.ownedBlocks_iff hgranted) hrun

/-- Ranges 64 KiB apart. -/
def spacedPages : Answers := fun k => .granted (0x80000000 + BitVec.ofNat 64 k * 0x10000)

def emptyState : State := { headers := fun _ => ⟨0, 0, 0⟩ }

/-- A call on the empty allocator that opens the regions `obtained`. -/
theorem run_firstCall {size p : U64} {st : State} {obtained : List Span}
    (hargs : CallOk (.allocAligned size 1)) (hfresh : Fresh obtained)
    (hcall : allocAligned 0xffffffc000000000 spacedPages emptyState size 1 = .ok (p, st))
    (hobtained : st.obtained = obtained) :
    Run 0xffffffc000000000 spacedPages ⟨st, record [] p size⟩ :=
  Runs.RunWhere.next (.start ⟨_, rfl⟩) trivial
    (.call (w := ⟨emptyState, []⟩) (c := .allocAligned size 1) hargs hcall (hobtained ▸ hfresh))

theorem Fresh.one {s : Span} (haligned : 4096 ∣ s.base ∧ 4096 ∣ s.length) (hpos : 0 < s.base)
    (hfits : s.base + s.length < 2 ^ 64) : Fresh [s] :=
  ⟨List.forall_mem_singleton.mpr haligned, List.forall_mem_singleton.mpr hpos,
    List.forall_mem_singleton.mpr hfits, List.pairwise_singleton _ _⟩

/-- A region above all the others. -/
theorem Fresh.cons {s : Span} {obtained : List Span} (h : Fresh obtained)
    (haligned : 4096 ∣ s.base ∧ 4096 ∣ s.length) (hpos : 0 < s.base)
    (hfits : s.base + s.length < 2 ^ 64) (habove : ∀ t ∈ obtained, t.base + t.length ≤ s.base) :
    Fresh (s :: obtained) := by
  refine ⟨List.forall_mem_cons.mpr ⟨haligned, h.aligned⟩, List.forall_mem_cons.mpr ⟨hpos, h.pos⟩,
    List.forall_mem_cons.mpr ⟨hfits, h.fits⟩, List.pairwise_cons.mpr ⟨?_, h.disjoint⟩⟩
  intro t ht x hxs hxt
  have hbelow := habove t ht
  have hlow := hxs.1
  have hhigh := hxt.2
  omega

/-- A block behind the header of the first page. -/
theorem owned_iff_firstBlock :
    ∃ w, Run 0xffffffc000000000 spacedPages w ∧ w.blocks = [⟨0xffffffc080000018, 0x100⟩] ∧
      (Owned w ↔ Runs.RunWhere Initial (Step 0xffffffc000000000 spacedPages)
        (Fits 0xffffffc000000000 spacedPages) w) := by
  have hruns : (do
      let result ← allocAligned 0xffffffc000000000 spacedPages emptyState 0x100 1
      return (result.1, result.2.obtained) : Exec _) =
        .ok (0xffffffc080000018, [⟨0xffffffc080000000, 0x1000⟩]) := by
    decide +kernel
  obtain ⟨⟨p, st⟩, hcall, hresult⟩ := bind_eq_ok.mp hruns
  obtain ⟨rfl, hobtained⟩ := Prod.mk.inj (pure_eq_ok.mp hresult)
  have hrun := run_firstCall ⟨by decide, by decide, 0, by decide, rfl⟩
    (.one (by decide) (by decide) (by decide)) hcall hobtained
  exact ⟨_, hrun, rfl, owned_iff (fun _ => rfl) hrun⟩

/-- After a block that leaves 4095 bytes of its region unused, the next region is
sized for an overshoot of one page, and its block ends 23 bytes behind it. -/
theorem not_owned_largeLeftover :
    ∃ w, Run 0xffffffc000000000 spacedPages w ∧
      w.blocks = [⟨0xffffffc080020018, 8191⟩, ⟨0xffffffc080010018, 4073⟩] ∧ ¬ Owned w := by
  have hruns : (do
      let first ← allocAligned 0xffffffc000000000 spacedPages emptyState 4073 1
      let second ← allocAligned 0xffffffc000000000 spacedPages first.2 8191 1
      return (first.1, first.2.obtained, second.1, second.2.obtained) : Exec _) =
        .ok (0xffffffc080010018, [⟨0xffffffc080010000, 8192⟩, ⟨0xffffffc080000000, 4096⟩],
          0xffffffc080020018, [⟨0xffffffc080020000, 8192⟩, ⟨0xffffffc080010000, 8192⟩,
            ⟨0xffffffc080000000, 4096⟩]) := by
    decide +kernel
  obtain ⟨⟨p, st⟩, hfirst, hruns⟩ := bind_eq_ok.mp hruns
  obtain ⟨⟨q, st'⟩, hsecond, hresult⟩ := bind_eq_ok.mp hruns
  obtain ⟨rfl, hresult⟩ := Prod.mk.inj (pure_eq_ok.mp hresult)
  obtain ⟨hone, hresult⟩ := Prod.mk.inj hresult
  obtain ⟨rfl, htwo⟩ := Prod.mk.inj hresult
  have hfresh : Fresh [⟨0xffffffc080010000, 8192⟩, ⟨0xffffffc080000000, 4096⟩] :=
    (Fresh.one (by decide) (by decide) (by decide)).cons (by decide) (by decide) (by decide)
      (by decide)
  have hfresh' := hfresh.cons (s := ⟨0xffffffc080020000, 8192⟩) (by decide) (by decide)
    (by decide) (by decide)
  have hrun := Runs.RunWhere.next (run_firstCall ⟨by decide, by decide, 0, by decide, rfl⟩
    hfresh hfirst hone) trivial (.call (c := .allocAligned 8191 1)
      ⟨by decide, by decide, 0, by decide, rfl⟩ hsecond (htwo ▸ hfresh'))
  refine ⟨_, hrun, rfl, Broken.not_owned (htwo ▸ hfresh') ?_⟩
  refine ⟨⟨0xffffffc080020018, 8191⟩, List.mem_cons_self, by decide, .inr
    ⟨⟨0xffffffc080020000, 8192⟩, ?_, by decide, by decide⟩⟩
  exact htwo ▸ List.mem_cons_self

end Runs

end Octiron.Bump
