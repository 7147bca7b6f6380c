import Octiron.Allocators.Arenas

/-! What one call of an allocator in memory does to its own regions and to the rest. -/
namespace Octiron.Bump.Arenas

open Lib Lib.Word Lib.ByteMemory Lib.Span Exec Pmm

/-- An allocator in order: the state it tracks keeps the invariants, and the rest of its
current region is still as it was granted. -/
structure Ready (hhdmBase blockBuf : U64) (top : Nat) (w : Pmm.World) (a : Arena)
    (ranges blocks : List Span) (lost chain : List U64) (st : State) : Prop
    extends Tracks hhdmBase blockBuf top w a ranges st where
  inv : Inv ⟨st, blocks⟩
  account : Account st lost chain
  blank : a.currentRegion ≠ 0 → ∀ x : U64, st.current.curr.toNat ≤ hhdmBase.toNat + x.toNat →
    hhdmBase.toNat + x.toNat < st.current.end_.toNat → w.st.mem x = 0

section Regions

variable {hhdmBase blockBuf : U64} {top : Nat} {w w₁ w₂ : Pmm.World} {a : Arena}
  {ranges blocks new new' : List Span} {lost chain : List U64} {st : State} {s g : Span}

theorem Tracks.freshRegions (h : Tracks hhdmBase blockBuf top w a ranges st) :
    FreshRegions st.obtained := by
  refine ⟨fun s hs => (h.fresh.aligned s hs).1, h.fresh.pos, ?_⟩
  have hlong : ∀ s ∈ st.obtained, 0 < s.length := by
    intro s hs
    rw [h.obtained] at hs
    obtain ⟨g, hg, rfl⟩ := List.mem_map.mp hs
    have hlong := h.long g hg
    rw [lift]
    dsimp only
    omega
  rw [List.Nodup, List.pairwise_map]
  refine (List.Pairwise.imp_of_mem ?_ h.fresh.disjoint)
  intro s t hs ht hdisjoint heq
  have hs' := hlong s hs
  have ht' := hlong t ht
  exact hdisjoint s.base ⟨Nat.le_refl _, by omega⟩ ⟨by omega, by omega⟩

/-- The current region begins with one of the ranges. -/
theorem Ready.exists_current (h : Ready hhdmBase blockBuf top w a ranges blocks lost chain st)
    (hwindow : Window hhdmBase top) (hcurrent : Current ⟨st, blocks⟩ s) :
    ∃ g ∈ ranges, s = lift hhdmBase g ∧ a.currentRegion = regionOf hhdmBase g ∧
      headerAt hhdmBase w.st.mem a.currentRegion = st.current := by
  have hs : s ∈ st.obtained := List.mem_of_mem_head? hcurrent.newest
  rw [h.obtained] at hs
  obtain ⟨g, hg, rfl⟩ := List.mem_map.mp hs
  have hregion : a.currentRegion = regionOf hhdmBase g := by
    apply BitVec.eq_of_toNat_eq
    rw [regionOf_toNat hwindow (h.room hwindow hg).2, ← h.current]
    exact hcurrent.region
  refine ⟨g, hg, rfl, hregion, ?_⟩
  rw [State.current, h.current, hregion, h.headers g hg]

theorem Ready.end_toNat (h : Ready hhdmBase blockBuf top w a ranges blocks lost chain st)
    (hcurrent : Current ⟨st, blocks⟩ s) : st.current.end_.toNat = s.base + s.length := by
  have hs : s ∈ st.obtained := List.mem_of_mem_head? hcurrent.newest
  have hregion : st.currentRegion.toNat = s.base := hcurrent.region
  rw [State.current, ← h.inv.ends s hs, ← hregion, BitVec.ofNat_toNat, BitVec.setWidth_eq]

theorem Grows.refl (blockBuf : U64) (w : Pmm.World) (ranges : List Span) :
    Grows blockBuf w ranges w [] :=
  ⟨rfl, fun _ hg => absurd hg List.not_mem_nil, fun _ _ _ _ => rfl⟩

/-- A second part of a call neither writes behind the headers of the first part's ranges nor
takes these again. -/
theorem Grows.trans (h : Grows blockBuf w ranges w₁ new) (hmanaged : Managed blockBuf w₁)
    (hgranted : ∀ g ∈ ranges, g ∈ w.grants) (hlong : ∀ g ∈ new ++ ranges, 4096 ≤ g.length)
    (h' : Grows blockBuf w₁ (new ++ ranges) w₂ new') (hmanaged' : Managed blockBuf w₂) :
    Grows blockBuf w ranges w₂ (new' ++ new) := by
  have hold : ∀ g ∈ new ++ ranges, g ∈ w₁.grants := by
    intro g hg
    rw [h.grants]
    rcases List.mem_append.mp hg with hg | hg
    · exact List.mem_append_left _ hg
    · exact List.mem_append_right _ (hgranted g hg)
  have hapart : ∀ g ∈ w₁.grants, ∀ g' ∈ new', Disjoint g' g := by
    intro g hg g' hg'
    have hpair := hmanaged'.disjoint
    rw [h'.grants] at hpair
    exact (List.pairwise_append.mp hpair).2.2 g' hg' g hg
  refine ⟨by rw [h'.grants, h.grants, List.append_assoc], ?_, ?_⟩
  · intro g hg x hx hheader
    rcases List.mem_append.mp hg with hg | hg
    · exact h'.zero g hg x hx hheader
    · have hgrant := hold g (List.mem_append_left _ hg)
      rw [h'.frame x, h.zero g hg x hx hheader]
      · exact fun g' hg' hin => hapart g hgrant g' hg' x.toNat hin hx
      · intro g' hg' hin
        by_cases heq : g' = g
        · exact hheader (heq ▸ hin)
        · exact hmanaged.apart (hold g' hg') hgrant heq x.toNat
            (header_inside (hlong g' hg') hin) hx
      · exact hmanaged.apart_buf hgrant hx
  · intro x hnew hheader hbuf
    rw [h'.frame x (fun g hg => hnew g (List.mem_append_left _ hg)) ?_ hbuf,
      h.frame x (fun g hg => hnew g (List.mem_append_right _ hg)) hheader hbuf]
    intro g hg hin
    rcases List.mem_append.mp hg with hg | hg
    · exact hnew g (List.mem_append_right _ hg)
        (header_inside (hlong g (List.mem_append_left _ hg)) hin)
    · exact hheader g hg hin

end Regions

section Inversion

variable {hhdmBase : U64} {w w' : Machine} {a a' : Arena} {err : Error} {size alignment pa p : U64}

/-- The parts of a call that hands out a block. -/
theorem allocAligned_parts (hargs : ¬ (size = 0 ∨ alignment = 0))
    (hcall : allocAligned hhdmBase a w size alignment = .ok (p, a', w')) :
    ∃ a₁ w₁ w₂, ensureRegion hhdmBase a w = .ok (a₁, w₁) ∧ a₁.currentRegion ≠ 0 ∧
      ensureRoom hhdmBase a₁ w₁
        (alignUp (headerAt hhdmBase w₁.mem a₁.currentRegion).curr alignment + size) = .ok (a', w₂) ∧
      alignUp (headerAt hhdmBase w₂.mem a'.currentRegion).curr alignment = p ∧
      w' = (bump hhdmBase a' w₂ p size).2.2 := by
  rw [allocAligned, if_neg hargs] at hcall
  obtain ⟨⟨a₁, w₁⟩, hregion, hcall⟩ := bind_eq_ok.mp hcall
  obtain ⟨_, hne, hcall⟩ := bind_eq_ok.mp hcall
  obtain ⟨⟨a₂, w₂⟩, hroom, hcall⟩ := bind_eq_ok.mp hcall
  obtain ⟨_, -, hcall⟩ := bind_eq_ok.mp hcall
  obtain ⟨rfl, hrest⟩ := Prod.mk.inj (pure_eq_ok.mp hcall)
  obtain ⟨rfl, rfl⟩ := Prod.mk.inj hrest
  exact ⟨a₁, w₁, w₂, hregion, deref_eq_ok.mp hne, hroom, rfl, rfl⟩

theorem assertErr_printed (w : Machine) (err : Error) :
    w.printed <+: (w.assertErr err).printed := by
  rw [Machine.assertErr]
  split
  · exact List.prefix_append _ _
  · exact List.prefix_refl _

theorem alloc_printed (hcall : w.alloc size = .ok (err, pa, w')) : w'.printed = w.printed := by
  obtain ⟨_, -, hrest⟩ := bind_eq_ok.mp hcall
  obtain ⟨-, hpair⟩ := Prod.mk.inj (pure_eq_ok.mp hrest)
  obtain ⟨-, rfl⟩ := Prod.mk.inj hpair
  rfl

theorem grow_printed (hcall : grow hhdmBase a w = .ok (err, a', w')) : w'.printed = w.printed := by
  obtain ⟨⟨err₀, pa, w₁⟩, halloc, hrest⟩ := bind_eq_ok.mp hcall
  dsimp only at hrest
  rw [← alloc_printed halloc]
  split at hrest
  all_goals
    obtain ⟨-, hpair⟩ := Prod.mk.inj (pure_eq_ok.mp hrest)
    obtain ⟨-, rfl⟩ := Prod.mk.inj hpair
    rfl

theorem ensureRegion_printed (hcall : ensureRegion hhdmBase a w = .ok (a', w')) :
    w.printed <+: w'.printed := by
  rw [ensureRegion] at hcall
  split at hcall
  · obtain ⟨_, hgrow, hrest⟩ := bind_eq_ok.mp hcall
    obtain ⟨-, rfl⟩ := Prod.mk.inj (pure_eq_ok.mp hrest)
    rw [← grow_printed hgrow]
    exact assertErr_printed _ _
  · obtain ⟨-, rfl⟩ := ok_pair_inj hcall
    exact List.prefix_refl _

theorem ensureRoom_printed {reach : U64} (hcall : ensureRoom hhdmBase a w reach = .ok (a', w')) :
    w.printed <+: w'.printed := by
  rw [ensureRoom] at hcall
  dsimp only at hcall
  split at hcall
  · obtain ⟨_, halloc, hrest⟩ := bind_eq_ok.mp hcall
    obtain ⟨-, rfl⟩ := Prod.mk.inj (pure_eq_ok.mp hrest)
    rw [← alloc_printed halloc]
    exact assertErr_printed _ _
  · obtain ⟨-, rfl⟩ := ok_pair_inj hcall
    exact List.prefix_refl _

theorem allocAligned_printed
    (hcall : allocAligned hhdmBase a w size alignment = .ok (p, a', w')) :
    w.printed <+: w'.printed := by
  by_cases hargs : size = 0 ∨ alignment = 0
  · rw [allocAligned, if_pos hargs] at hcall
    obtain ⟨-, hpair⟩ := ok_pair_inj hcall
    obtain ⟨-, rfl⟩ := Prod.mk.inj hpair
    exact List.prefix_refl _
  · obtain ⟨a₁, w₁, w₂, hregion, -, hroom, -, rfl⟩ := allocAligned_parts hargs hcall
    have hprefix := (ensureRegion_printed hregion).trans (ensureRoom_printed hroom)
    exact hprefix

theorem alloc_eq_allocAligned (h : a.currentRegion ≠ 0) (w : Machine) (size : U64) :
    alloc hhdmBase a w size = allocAligned hhdmBase a w size 1 := by
  by_cases hsize : size = 0
  · rw [alloc, allocAligned, if_pos (.inr hsize), if_pos (.inl hsize)]
  · rw [alloc, allocAligned, if_neg (not_or.mpr ⟨h, hsize⟩), if_neg (not_or.mpr ⟨hsize, by decide⟩)]
    simp only [alignUp_one]

/-- What has been printed stays printed. -/
theorem call_printed {c : Call} (hcall : call hhdmBase a w c = .ok (p, a', w')) :
    w.printed <+: w'.printed := by
  cases c with
  | allocAligned size alignment => exact allocAligned_printed hcall
  | alloc size =>
    by_cases hempty : a.currentRegion = 0
    · rw [call, alloc, if_pos (.inl hempty)] at hcall
      obtain ⟨-, hpair⟩ := ok_pair_inj hcall
      obtain ⟨-, rfl⟩ := Prod.mk.inj hpair
      exact List.prefix_refl _
    · rw [call, alloc_eq_allocAligned hempty] at hcall
      exact allocAligned_printed hcall

end Inversion

section Parts

variable {hhdmBase blockBuf : U64} {top : Nat} {w w' : Machine} {a a' : Arena}
  {ranges blocks : List Span} {lost chain : List U64} {st : State} {err : Error} {s : Span}

/-- A call of `pmm::alloc` for whole pages. -/
theorem Placed.alloc_cases (h : Placed blockBuf top w.world) {size pa : U64} (hdvd : 4096 ∣ size.toNat)
    (hfit : size.toNat + 4096 ≤ 2 ^ 64) (hcall : w.alloc size = .ok (err, pa, w')) :
    (err.isErr = true ∧ w' = w) ∨
      (err = .ofCode .success ∧ Taken blockBuf w.world w'.world ⟨pa.toNat, size.toNat⟩) := by
  obtain ⟨⟨err', ret, world⟩, halloc, hcall⟩ := bind_eq_ok.mp hcall
  obtain ⟨rfl, hrest⟩ := Prod.mk.inj (pure_eq_ok.mp hcall)
  obtain ⟨rfl, rfl⟩ := Prod.mk.inj hrest
  rcases h.managed.alloc_cases halloc with ⟨herr, rfl, rfl⟩ | ⟨page, rfl, rfl, htaken⟩
  · exact .inl ⟨herr, rfl⟩
  · rw [alignUp_pageSize_of_dvd hdvd hfit] at htaken
    exact .inr ⟨rfl, htaken⟩

theorem regionOf_page (hhdmBase pa : U64) (n : Nat) :
    regionOf hhdmBase ⟨pa.toNat, n⟩ = hhdmPhysToVirt hhdmBase pa := by
  rw [regionOf, BitVec.ofNat_toNat, BitVec.setWidth_eq]

/-- What is left of a range when its header has been set up. -/
theorem Taken.grows {m : Mem} {g : Span} (hhdmBase size : U64) (htaken : Taken blockBuf w.world w'.world g)
    (hg : g.base + 24 ≤ 2 ^ 64)
    (hframe : ∀ x : U64, (∀ g' ∈ ranges, x.toNat ∉ header g') → m x = w'.mem x) (hsmall : 24 ≤ g.length)
    (hgranted : ∀ g' ∈ ranges, g' ∈ w.world.grants) (hlong : ∀ g' ∈ ranges, 4096 ≤ g'.length) :
    Grows blockBuf w.world ranges
      (w'.withMem (openRegion hhdmBase m (regionOf hhdmBase g) size)).world [g] := by
  refine ⟨htaken.grants, ?_, ?_⟩
  · intro g' hg' x hx hheader
    obtain rfl := List.mem_singleton.mp hg'
    refine (openRegion_frame hg hheader).trans ((hframe x fun g'' hg'' hin => ?_).trans
      (htaken.zero x hx))
    exact htaken.fresh g'' (hgranted g'' hg'') x.toNat hx (header_inside (hlong g'' hg'') hin)
  · intro x hnew hheader hbuf
    have hx : x.toNat ∉ g := hnew g List.mem_cons_self
    have hx' : x.toNat ∉ header g := by
      intro hin
      rw [header, mem_def] at hin
      dsimp only at hin
      exact hx ⟨by omega, by omega⟩
    exact (openRegion_frame hg hx').trans ((hframe x hheader).trans (htaken.frame x hx hbuf))

/-- A region is opened in a range of zeros, from the state `st₀` but for a link. -/
theorem Tracks.ready {w : Pmm.World} {g : Span} {st₀ st' : State} {size : U64}
    (h : Tracks hhdmBase blockBuf top w a ranges st) (lost chain : List U64) (hwindow : Window hhdmBase top)
    (hinv : Inv ⟨st₀, blocks⟩) (hsame : st₀.obtained = st.obtained) (hg : g ∈ w.grants)
    (hnew : ∀ g' ∈ ranges, Disjoint g g') (hbase : 4096 ∣ g.base) (hlength : 4096 ∣ g.length)
    (hpos : 0 < g.length) (hzero : ∀ x : U64, x.toNat ∈ g → w.st.mem x = 0)
    (hsize : size.toNat = g.length) (hopen : Opened st₀ st' (regionOf hhdmBase g) size)
    (hheaders : st'.headers = Function.update st.headers (regionOf hhdmBase g)
      ⟨regionOf hhdmBase g + size, regionOf hhdmBase g + sizeofRegion, 0⟩)
    (haccount : FreshRegions st'.obtained → Account st' lost chain) :
    Ready hhdmBase blockBuf top
      (w.withMem (openRegion hhdmBase w.st.mem (regionOf hhdmBase g) size))
      ⟨st'.regionList, regionOf hhdmBase g⟩ (g :: ranges) blocks lost chain st' := by
  have htop := hwindow.high
  obtain ⟨hgpos, hghigh⟩ := h.placed.grant hg
  have hlong : 4096 ≤ g.length := Nat.le_of_dvd hpos hlength
  have hopened := h.opened hwindow hg hnew hbase hlength hpos hsize rfl hopen.isCurrent
    (hsame ▸ hopen.obtained) hheaders
  refine ⟨hopened, (hinv.opened hopen hopened.fresh (by omega)).1, haccount hopened.freshRegions,
    fun _ x hlow hhigh => ?_⟩
  have hregion := regionOf_toNat (g := g) hwindow (by omega)
  rw [Opened.current (w := ⟨st₀, blocks⟩) hopen] at hlow hhigh
  have hcurr : (regionOf hhdmBase g + sizeofRegion).toNat = hhdmBase.toNat + g.base + 24 := by
    rw [BitVec.toNat_add, hregion, show sizeofRegion.toNat = 24 from rfl]
    omega
  have hend : (regionOf hhdmBase g + size).toNat = hhdmBase.toNat + g.base + g.length := by
    rw [BitVec.toNat_add, hregion, hsize]
    omega
  dsimp only at hlow hhigh
  rw [hcurr] at hlow
  rw [hend] at hhigh
  refine (openRegion_frame (by omega) fun hin => ?_).trans (hzero x ⟨by omega, by omega⟩)
  rw [header, mem_def] at hin
  dsimp only at hin
  omega

/-- `grow` fails with the manager or opens a page, which begins a new list. -/
theorem Ready.grow_cases (h : Ready hhdmBase blockBuf top w.world a ranges blocks lost chain st)
    (hwindow : Window hhdmBase top) (hcall : grow hhdmBase a w = .ok (err, a', w')) :
    (err.isErr = true ∧ a' = a ∧ w' = w) ∨
      ∃ g st', err = .ofCode .success ∧ Grows blockBuf w.world ranges w'.world [g] ∧
        Ready hhdmBase blockBuf top w'.world a' (g :: ranges) blocks (lost ++ chain)
          [regionOf hhdmBase g] st' ∧
        st'.current = ⟨regionOf hhdmBase g + pageSize, regionOf hhdmBase g + sizeofRegion, 0⟩ := by
  obtain ⟨⟨err₀, pa, w₁⟩, halloc, hrest⟩ := bind_eq_ok.mp hcall
  dsimp only at hrest
  obtain ⟨herr, rfl⟩ | ⟨rfl, htaken⟩ := h.placed.alloc_cases (by decide) (by decide) halloc
  · rw [if_pos herr] at hrest
    obtain ⟨rfl, hpair⟩ := Prod.mk.inj (pure_eq_ok.mp hrest)
    obtain ⟨rfl, rfl⟩ := Prod.mk.inj hpair
    exact .inl ⟨herr, rfl, rfl⟩
  rw [if_neg (by decide)] at hrest
  obtain ⟨rfl, hpair⟩ := Prod.mk.inj (pure_eq_ok.mp hrest)
  obtain ⟨rfl, rfl⟩ := Prod.mk.inj hpair
  have hpage : 4096 ∣ pageSize.toNat := by decide
  have htop := hwindow.high
  have hgrant : (⟨pa.toNat, pageSize.toNat⟩ : Span) ∈ w₁.world.grants :=
    htaken.grants ▸ List.mem_cons_self
  obtain ⟨hgpos, hghigh⟩ := (h.placed.taken htaken).grant hgrant
  have htoNat := regionOf_toNat (g := ⟨pa.toNat, pageSize.toNat⟩) hwindow (by dsimp only at hghigh ⊢; omega)
  have hregion : regionOf hhdmBase ⟨pa.toNat, pageSize.toNat⟩ = hhdmPhysToVirt hhdmBase pa :=
    regionOf_page hhdmBase pa _
  generalize hg : (⟨pa.toNat, pageSize.toNat⟩ : Span) = g at htaken hgrant hgpos hghigh htoNat hregion
  have hlength : pageSize.toNat = g.length := hg ▸ rfl
  have hlong : g.length = 4096 := hlength.symm
  have hne : regionOf hhdmBase g ≠ 0 := ne_zero_of_toNat_pos (by omega)
  have hopen : Opened st (Bump.grow hhdmBase (fun _ => .granted pa) st).2 (regionOf hhdmBase g)
      pageSize := hregion ▸ grow_granted rfl (hregion ▸ hne)
  have hready := (h.toTracks.taken hwindow htaken).ready (lost ++ chain) [regionOf hhdmBase g]
    hwindow h.inv rfl hgrant
    (fun g' hg' => htaken.fresh g' (h.granted g' hg')) htaken.dvd (hlength ▸ hpage) (by omega)
    htaken.zero hlength hopen (hregion ▸ rfl) fun hfresh => ?_
  · refine .inr ⟨g, _, rfl, ?_, ?_, Opened.current (w := ⟨st, blocks⟩) hopen⟩
    · exact hregion ▸ Taken.grows hhdmBase pageSize htaken (by omega) (fun _ _ => rfl) (by omega) h.granted h.long
    · have hlist : (Bump.grow hhdmBase (fun _ => .granted pa) st).2.regionList = regionOf hhdmBase g :=
        hregion ▸ rfl
      rw [hlist] at hready
      rw [← hregion]
      exact hready
  · obtain ⟨region, haccount⟩ := h.account.grow (fun _ => rfl) hfresh
    obtain rfl : region = regionOf hhdmBase g := haccount.last.trans hopen.isCurrent
    exact haccount

/-- The list goes on with the region that is opened. -/
theorem account_chain_eq {st' : State} {chain' : List U64} {region : U64} {n : Nat}
    (h : Account st lost chain) (h' : Account st' lost chain')
    (hobtained : st'.obtained = ⟨region.toNat, n⟩ :: st.obtained) : chain' = chain ++ [region] := by
  have hbases : (lost ++ chain').map BitVec.toNat =
      (lost ++ (chain ++ [region])).map BitVec.toNat := by
    rw [h'.bases, hobtained, List.map_cons, List.reverse_cons, ← h.bases, ← List.append_assoc,
      @List.map_append _ _ _ (lost ++ chain)]
    rfl
  exact List.append_cancel_left
    (List.map_injective_iff.mpr (fun _ _ => BitVec.eq_of_toNat_eq) hbases)

/-- Where the next block would start, before alignment, and the end of that region; on an empty
allocator, how far behind the page that it is about to obtain. -/
def cursor (hhdmBase : U64) (a : Arena) (m : Mem) : U64 × U64 :=
  if a.currentRegion = 0 then (sizeofRegion, pageSize)
  else ((headerAt hhdmBase m a.currentRegion).curr, (headerAt hhdmBase m a.currentRegion).end_)

/-- It does not matter where the page lies. -/
theorem fitsAt_page {region size alignment : U64} {k : Nat} (hk : k ≤ 12)
    (halign : alignment.toNat = 2 ^ k) (hpage : 4096 ∣ region.toNat)
    (hhigh : region.toNat + 8192 ≤ 2 ^ 64) (hsize : region.toNat + 4096 + size.toNat < 2 ^ 64)
    (hfits : FitsAt sizeofRegion pageSize size alignment) :
    FitsAt (region + sizeofRegion) (region + pageSize) size alignment := by
  have hplace := alignUp_behind_header hk halign hpage hhigh
  obtain ⟨hheader, hle⟩ := alignUp_header_le hk halign
  have hend : (region + pageSize).toNat = region.toNat + 4096 := by
    rw [BitVec.toNat_add, pageSize_toNat]
    omega
  obtain ⟨-, hfits⟩ := hfits
  rw [pageSize_toNat] at hfits
  rw [FitsAt, hplace, hend]
  omega

/-- On an empty allocator a page is opened. -/
theorem Ready.ensureRegion_cases
    (h : Ready hhdmBase blockBuf top w.world a ranges blocks lost chain st)
    (hwindow : Window hhdmBase top) (hcall : ensureRegion hhdmBase a w = .ok (a', w'))
    (hne : a'.currentRegion ≠ 0) :
    ∃ new st', Grows blockBuf w.world ranges w'.world new ∧
      Ready hhdmBase blockBuf top w'.world a' (new ++ ranges) blocks lost
        (chain ++ new.reverse.map (regionOf hhdmBase)) st' ∧
      ∀ (size alignment : U64) (k : Nat), k ≤ 12 → alignment.toNat = 2 ^ k →
        hhdmBase.toNat + top + 4096 + size.toNat < 2 ^ 64 →
        FitsAt (cursor hhdmBase a w.mem).1 (cursor hhdmBase a w.mem).2 size alignment →
        FitsAt st'.current.curr st'.current.end_ size alignment := by
  by_cases hempty : a.currentRegion = 0
  · rw [ensureRegion, if_pos (.inl hempty)] at hcall
    obtain ⟨⟨err, a₁, w₁⟩, hgrow, hrest⟩ := bind_eq_ok.mp hcall
    obtain ⟨rfl, hw'⟩ := Prod.mk.inj (pure_eq_ok.mp hrest)
    obtain ⟨-, rfl, -⟩ | ⟨g, st', rfl, hgrows, hready, hcurrent⟩ :=
      h.grow_cases hwindow hgrow
    · exact absurd hempty hne
    have hchain : chain = [] := h.account.chain_eq_nil_iff.mpr (h.current.trans hempty)
    subst hchain
    rw [List.append_nil] at hready
    have hsame : w' = w₁ := by
      rw [← hw', Machine.assertErr, if_neg (by decide)]
    subst hsame
    refine ⟨[g], st', hgrows, hready, fun size alignment k hk halign hsize hfits => ?_⟩
    obtain ⟨hpos, hhigh⟩ := hready.placed.grant (hready.granted g List.mem_cons_self)
    have hlong := hready.long g List.mem_cons_self
    have htoNat := regionOf_toNat (g := g) hwindow (by omega)
    have hlift : lift hhdmBase g ∈ st'.obtained := by
      rw [hready.obtained]
      exact List.mem_map_of_mem List.mem_cons_self
    have htop := hwindow.high
    rw [cursor, if_pos hempty] at hfits
    rw [hcurrent]
    refine fitsAt_page hk halign ?_ (by omega) (by omega) hfits
    rw [htoNat]
    exact (hready.fresh.aligned _ hlift).1
  · obtain ⟨s, hcurrent⟩ := h.inv.current fun hzero => hempty (h.current.symm.trans hzero)
    have hlist : a.regionList ≠ 0 := h.list ▸ hcurrent.list
    rw [ensureRegion, if_neg (not_or.mpr ⟨hempty, hlist⟩)] at hcall
    obtain ⟨rfl, rfl⟩ := ok_pair_inj hcall
    obtain ⟨g, hg, -, -, hheader⟩ := h.exists_current hwindow hcurrent
    refine ⟨[], st, .refl blockBuf w.world ranges, by simpa using h,
      fun size alignment k _ _ _ hfits => ?_⟩
    rw [cursor, if_neg hempty] at hfits
    rw [Machine.mem, hheader] at hfits
    exact hfits

/-- The region opened for a request is sized in whole pages. -/
theorem regionSize_toNat {difference : U64} (hfit : difference.toNat + 8192 ≤ 2 ^ 64) :
    (regionSize difference).toNat = (difference.toNat + 4095) / 4096 * 4096 + 4096 := by
  rw [regionSize, BitVec.toNat_add, alignUp_toNat pageSize_toNat (by omega), pageSize_toNat]
  omega

/-- A block that does not wrap reaches so little behind its region that the size of the next
one does not wrap either. -/
theorem Ready.difference_le
    (h : Ready hhdmBase blockBuf top w.world a ranges blocks lost chain st)
    (hwindow : Window hhdmBase top) (hcurrent : Current ⟨st, blocks⟩ s) {size alignment : U64}
    {k : Nat} (hk : k ≤ 12) (halign : alignment.toNat = 2 ^ k) (hsize : size.toNat < 2 ^ 48)
    (hreach : (alignUp st.current.curr alignment).toNat + size.toNat < 2 ^ 64)
    (hroom : st.current.end_ < alignUp st.current.curr alignment + size) :
    (alignUp st.current.curr alignment + size - st.current.end_).toNat + 16384 ≤ 2 ^ 64 := by
  obtain ⟨g, hg, rfl, -, -⟩ := h.exists_current hwindow hcurrent
  have htop := hwindow.high
  have hhigh := (h.placed.grant (h.granted g hg)).2
  have hpow := pow_le_page hk
  have hend := h.end_toNat hcurrent
  have hcurr := hcurrent.high
  dsimp only [lift] at hend hcurr
  have hlt := @alignUp_lt st.current.curr alignment _ halign (by omega)
  have hsum : (alignUp st.current.curr alignment + size).toNat =
      (alignUp st.current.curr alignment).toNat + size.toNat := by
    rw [BitVec.toNat_add]
    exact Nat.mod_eq_of_lt hreach
  rw [BitVec.lt_def, hsum] at hroom
  rw [BitVec.toNat_sub_of_le (by rw [BitVec.le_def]; omega)]
  omega

/-- A request that fits gets room in the current region, or in one that is opened behind it. -/
theorem Ready.ensureRoom_cases
    (h : Ready hhdmBase blockBuf top w.world a ranges blocks lost chain st)
    (hwindow : Window hhdmBase top) (hcurrent : Current ⟨st, blocks⟩ s) {size alignment : U64}
    {k : Nat} (hk : k ≤ 12) (halign : alignment.toNat = 2 ^ k) (hpos : 0 < size.toNat)
    (hsize : size.toNat < 2 ^ 48)
    (hfits : FitsAt st.current.curr st.current.end_ size alignment)
    (hcall : ensureRoom hhdmBase a w (alignUp st.current.curr alignment + size) = .ok (a', w'))
    (hprinted : w'.printed = []) :
    ∃ new st' s', Grows blockBuf w.world ranges w'.world new ∧
      Ready hhdmBase blockBuf top w'.world a' (new ++ ranges) blocks lost
        (chain ++ new.reverse.map (regionOf hhdmBase)) st' ∧
      Current ⟨st', blocks⟩ s' ∧
      st'.current.curr.toNat ≤ (alignUp st'.current.curr alignment).toNat ∧
      (alignUp st'.current.curr alignment).toNat + size.toNat ≤ s'.base + s'.length := by
  obtain ⟨g₀, hg₀, rfl, hregion₀, hheader⟩ := h.exists_current hwindow hcurrent
  have hregion : st.currentRegion = regionOf hhdmBase g₀ := h.current.trans hregion₀
  have htop := hwindow.high
  have hhigh₀ := (h.placed.grant (h.granted g₀ hg₀)).2
  rw [ensureRoom] at hcall
  dsimp only at hcall
  rw [Machine.mem, hheader] at hcall
  by_cases hroom : st.current.end_ < alignUp st.current.curr alignment + size
  · rw [if_pos hroom] at hcall
    obtain ⟨⟨err, pa, w₁⟩, halloc, hrest⟩ := bind_eq_ok.mp hcall
    obtain ⟨rfl, rfl⟩ := Prod.mk.inj (pure_eq_ok.mp hrest)
    set difference := alignUp st.current.curr alignment + size - st.current.end_ with hdifference
    have hsmall : difference.toNat + 16384 ≤ 2 ^ 64 :=
      h.difference_le hwindow hcurrent hk halign hsize hfits.1 hroom
    have hregionSize := @regionSize_toNat difference (by omega)
    have hdvd : 4096 ∣ (regionSize difference).toNat := by omega
    obtain ⟨herr, rfl⟩ | ⟨rfl, htaken⟩ :=
      h.placed.alloc_cases hdvd (by omega) halloc
    · rw [Machine.assertErr, if_pos herr] at hprinted
      exact absurd hprinted (List.append_ne_nil_of_right_ne_nil _ (List.cons_ne_nil _ _))
    have hsame : w₁.assertErr (.ofCode .success) = w₁ := if_neg (by decide)
    rw [hsame]
    have hgrant : (⟨pa.toNat, (regionSize difference).toNat⟩ : Span) ∈ w₁.world.grants :=
      htaken.grants ▸ List.mem_cons_self
    obtain ⟨hgpos, hghigh⟩ := (h.placed.taken htaken).grant hgrant
    have hpage : regionOf hhdmBase ⟨pa.toNat, (regionSize difference).toNat⟩ =
        hhdmPhysToVirt hhdmBase pa := regionOf_page hhdmBase pa _
    generalize hg : (⟨pa.toNat, (regionSize difference).toNat⟩ : Span) = g at htaken hgrant hgpos hghigh hpage
    have hlength : (regionSize difference).toNat = g.length := hg ▸ rfl
    rw [← hpage]
    -- the link in the header of the old region comes first
    have hroom₀ := (h.room hwindow hg₀).1
    have hframe : ∀ x : U64, x.toNat ∉ header g₀ →
        setField hhdmBase w₁.mem (regionOf hhdmBase g₀) 16 (regionOf hhdmBase g) x = w₁.mem x :=
      fun x hx => setField_frame hroom₀ (by decide) hx
    have htracks := h.toTracks.taken hwindow htaken
    have hlinked := htracks.set hwindow hg₀ (headerAt_setNext hroom₀ (regionOf hhdmBase g)) hframe
    have hopen : Opened st (Bump.ensureRoom hhdmBase (fun _ => .granted pa) st
        (alignUp st.current.curr alignment + size)) (regionOf hhdmBase g) (regionSize difference) :=
      hpage ▸ ensureRoom_granted rfl hroom hcurrent.list
    have hready := hlinked.ready lost (chain ++ [regionOf hhdmBase g]) hwindow
      h.inv rfl hgrant (fun g' hg' => htaken.fresh g' (h.granted g' hg')) htaken.dvd
      (hlength ▸ hdvd) (by omega) ?_ hlength hopen ?_ fun hfresh => ?_
    · have hlist : (Bump.ensureRoom hhdmBase (fun _ => .granted pa) st
          (alignUp st.current.curr alignment + size)).regionList = a.regionList :=
        (ensureRoom_regionList rfl).trans h.list
      rw [hlist] at hready
      obtain ⟨s', -, hcurrent', hle, -, hiff⟩ := ensureRoom_spec h.inv hcurrent (fun _ => rfl) hk
        halign hpos hsize hready.fresh
      have hgrows := Taken.grows hhdmBase (regionSize difference) htaken (by omega)
        (fun x hx => hframe x (hx g₀ hg₀)) (by omega) h.granted h.long
      exact ⟨[g], _, s', hregion₀ ▸ hgrows, hregion₀ ▸ hready,
        hcurrent', hle, hiff.mp hfits⟩
    · intro x hx
      exact (hframe x fun hin => htaken.fresh g₀ (h.granted g₀ hg₀) x.toNat hx
        (header_inside (h.long g₀ hg₀) hin)).trans (htaken.zero x hx)
    · rw [Machine.mem, ← htracks.headers g₀ hg₀, Bump.ensureRoom, if_pos hroom, ← hregion, hpage]
      rfl
    · have hchain : chain ≠ [] := by
        intro hnil
        have hzero := h.account.chain_eq_nil_iff.mp hnil
        have hpos₀ := h.fresh.pos _ (List.mem_of_mem_head? hcurrent.newest)
        rw [← hcurrent.region] at hpos₀
        exact absurd hzero (ne_zero_of_toNat_pos hpos₀)
      obtain ⟨chain', -, haccount⟩ := h.account.ensureRoom hchain (fun _ => rfl) hfresh
      obtain rfl := account_chain_eq h.account haccount hopen.obtained
      exact haccount
  · rw [if_neg hroom] at hcall
    obtain ⟨rfl, rfl⟩ := ok_pair_inj hcall
    have hsame : Bump.ensureRoom hhdmBase (fun _ => .granted 0) st
        (alignUp st.current.curr alignment + size) = st := if_neg hroom
    obtain ⟨s', -, hcurrent', hle, -, hiff⟩ := @ensureRoom_spec hhdmBase
      (fun _ => .granted 0) _ _ h.inv hcurrent (fun _ => rfl) _ _ _ hk halign hpos hsize
      (by rw [hsame]; exact h.fresh)
    dsimp only at hcurrent' hle hiff
    rw [hsame] at hcurrent' hle hiff
    exact ⟨[], st, s', .refl blockBuf w.world ranges, by simpa using h, hcurrent', hle,
      hiff.mp hfits⟩

/-- The block is handed out, as it was granted. -/
theorem Ready.bump (h : Ready hhdmBase blockBuf top w.world a ranges blocks lost chain st)
    (hwindow : Window hhdmBase top) (hcurrent : Current ⟨st, blocks⟩ s) {p size : U64}
    (hpos : 0 < size.toNat) (hlow : st.current.curr.toNat ≤ p.toNat)
    (hhigh : p.toNat + size.toNat ≤ s.base + s.length) :
    let w' := (Arenas.bump hhdmBase a w p size).2.2
    Grows blockBuf w.world ranges w'.world [] ∧
      Ready hhdmBase blockBuf top w'.world a ranges (⟨p.toNat, size.toNat⟩ :: blocks) lost chain
        (Bump.bump st p size).2 ∧
      ∀ x : U64, hhdmBase.toNat + x.toNat ∈ (⟨p.toNat, size.toNat⟩ : Span) → w'.mem x = 0 := by
  obtain ⟨g, hg, hs, hregion, hheader⟩ := h.exists_current hwindow hcurrent
  have hend := h.end_toNat hcurrent
  have hcurr := hcurrent.low
  dsimp only at hcurr
  have hfits := h.inv.fresh.fits s (List.mem_of_mem_head? hcurrent.newest)
  have hsum : (p + size).toNat = p.toNat + size.toNat := by
    rw [BitVec.toNat_add]
    omega
  have hroom := (h.room hwindow hg).1
  have hregion' : st.currentRegion = regionOf hhdmBase g := h.current.trans hregion
  have hframe : ∀ x : U64, x.toNat ∉ header g →
      setField hhdmBase w.mem (regionOf hhdmBase g) 8 (p + size) x = w.mem x :=
    fun x hx => setField_frame hroom (by decide) hx
  have htracks : Tracks hhdmBase blockBuf top
      (w.world.withMem (setField hhdmBase w.mem (regionOf hhdmBase g) 8 (p + size))) a ranges
      (Bump.bump st p size).2 := by
    rw [Bump.bump, hregion']
    refine h.set hwindow hg ?_ hframe
    rw [headerAt_setCurr hroom, Machine.mem, ← hregion, hheader]
  have hinv := h.inv.bump hcurrent hpos hlow hhigh
  have hcurrent' : (Bump.bump st p size).2.current = { st.current with curr := p + size } := by
    simp [Bump.bump, State.current, State.setHeader]
  have hne : a.currentRegion ≠ 0 := by
    rw [hregion]
    refine ne_zero_of_toNat_pos ?_
    rw [← hregion', show st.currentRegion.toNat = s.base from hcurrent.region]
    exact h.fresh.pos s (List.mem_of_mem_head? hcurrent.newest)
  -- what lies behind the cursor lies behind the header
  have hbehind : ∀ x : U64, st.current.curr.toNat ≤ hhdmBase.toNat + x.toNat → x.toNat ∉ header g := by
    intro x hx hin
    rw [header, mem_def] at hin
    rw [hs, lift] at hcurr
    dsimp only at hin hcurr
    omega
  have hblank : ∀ x : U64, st.current.curr.toNat ≤ hhdmBase.toNat + x.toNat →
      hhdmBase.toNat + x.toNat < s.base + s.length →
      setField hhdmBase w.mem (regionOf hhdmBase g) 8 (p + size) x = 0 := by
    intro x hx hx'
    exact (hframe x (hbehind x hx)).trans (h.blank hne x hx (hend ▸ hx'))
  rw [Arenas.bump, hregion]
  refine ⟨⟨rfl, fun _ hg' => absurd hg' List.not_mem_nil,
    fun x _ hx _ => hframe x (hx g hg)⟩, ⟨htracks, hinv, h.account.bump p size, ?_⟩, ?_⟩
  · intro _ x hx hx'
    rw [hcurrent'] at hx hx'
    dsimp only at hx hx'
    exact hblank x (by omega) (by omega)
  · intro x hx
    rw [mem_def] at hx
    dsimp only at hx
    exact hblank x (by omega) (by omega)

end Parts

/-- A request that a region has room for, or that is small enough for the region it opens. -/
def Fits (hhdmBase : U64) (a : Arena) (m : Mem) : Call → Prop
  | .alloc size => a.currentRegion = 0 ∨
      FitsAt (cursor hhdmBase a m).1 (cursor hhdmBase a m).2 size 1
  | .allocAligned size alignment =>
      FitsAt (cursor hhdmBase a m).1 (cursor hhdmBase a m).2 size alignment

/-- Arguments in order, for a block so small that no address behind the direct map wraps. -/
structure RequestOk (hhdmBase : U64) (top : Nat) (c : Call) : Prop extends CallOk c where
  high : hhdmBase.toNat + top + 4096 + c.size.toNat < 2 ^ 64

section Calls

variable {hhdmBase blockBuf : U64} {top : Nat} {w w' : Machine} {a a' : Arena}
  {ranges blocks : List Span} {lost chain : List U64} {st : State} {p : U64}

/-- A request that fits gets a block of zeros behind those handed out before. -/
theorem Ready.allocAligned (h : Ready hhdmBase blockBuf top w.world a ranges blocks lost chain st)
    (hwindow : Window hhdmBase top) {size alignment : U64}
    (hargs : RequestOk hhdmBase top (.allocAligned size alignment))
    (hfits : FitsAt (cursor hhdmBase a w.mem).1 (cursor hhdmBase a w.mem).2 size alignment)
    (hcall : Arenas.allocAligned hhdmBase a w size alignment = .ok (p, a', w'))
    (hprinted : w'.printed = []) :
    ∃ new st', p ≠ 0 ∧ Grows blockBuf w.world ranges w'.world new ∧
      Ready hhdmBase blockBuf top w'.world a' (new ++ ranges) (⟨p.toNat, size.toNat⟩ :: blocks) lost
        (chain ++ new.reverse.map (regionOf hhdmBase)) st' ∧
      ∀ x : U64, hhdmBase.toNat + x.toNat ∈ (⟨p.toNat, size.toNat⟩ : Span) → w'.mem x = 0 := by
  obtain ⟨k, hk, halign⟩ : ∃ k ≤ 12, alignment.toNat = 2 ^ k := hargs.alignment
  have hpos : 0 < size.toNat := hargs.size_pos
  have hsize₀ : size ≠ 0 := ne_zero_of_toNat_pos hpos
  have halign₀ : alignment ≠ 0 := ne_zero_of_toNat_pos (halign ▸ Nat.two_pow_pos k)
  obtain ⟨a₁, w₁, w₂, hregion, hne₁, hroom, hp, rfl⟩ :=
    allocAligned_parts (not_or.mpr ⟨hsize₀, halign₀⟩) hcall
  obtain ⟨new₁, st₁, hgrows₁, h₁, hfits₁⟩ := h.ensureRegion_cases hwindow hregion hne₁
  obtain ⟨s₁, hcurrent₁⟩ := h₁.inv.current fun hzero => hne₁ (h₁.current.symm.trans hzero)
  obtain ⟨g₁, -, -, -, hheader₁⟩ := h₁.exists_current hwindow hcurrent₁
  rw [Machine.mem, hheader₁] at hroom
  obtain ⟨new₂, st₂, s₂, hgrows₂, h₂, hcurrent₂, hlow, hhigh⟩ :=
    h₁.ensureRoom_cases hwindow hcurrent₁ hk halign hpos hargs.size_lt
      (hfits₁ size alignment k hk halign hargs.high hfits) hroom hprinted
  obtain ⟨g₂, -, -, -, hheader₂⟩ := h₂.exists_current hwindow hcurrent₂
  have hp' : alignUp st₂.current.curr alignment = p := hheader₂ ▸ hp
  rw [hp'] at hlow hhigh
  obtain ⟨hgrows₃, h₃, hzero⟩ := h₂.bump hwindow hcurrent₂ hpos hlow hhigh
  have hbase : s₂.base + 24 ≤ st₂.current.curr.toNat := hcurrent₂.low
  have hgrows := hgrows₁.trans h₁.placed.managed h.granted h₁.long hgrows₂ h₂.placed.managed
  rw [← List.append_assoc] at h₂ h₃ hgrows₃
  have hall := hgrows.trans h₂.placed.managed h.granted h₂.long hgrows₃ h₃.placed.managed
  rw [List.nil_append] at hall
  rw [List.append_assoc chain, ← List.map_append, ← List.reverse_append] at h₃
  exact ⟨new₂ ++ new₁, _, ne_zero_of_toNat_pos (by omega), hall, h₃,
    hzero⟩

theorem Ready.call {c : Call} (h : Ready hhdmBase blockBuf top w.world a ranges blocks lost chain st)
    (hwindow : Window hhdmBase top) (hargs : RequestOk hhdmBase top c)
    (hfits : Fits hhdmBase a w.mem c) (hcall : Arenas.call hhdmBase a w c = .ok (p, a', w'))
    (hprinted : w'.printed = []) :
    ∃ new st', Grows blockBuf w.world ranges w'.world new ∧
      Ready hhdmBase blockBuf top w'.world a' (new ++ ranges) (record blocks p c.size) lost
        (chain ++ new.reverse.map (regionOf hhdmBase)) st' ∧
      (p ≠ 0 → ∀ x : U64, hhdmBase.toNat + x.toNat ∈ (⟨p.toNat, c.size.toNat⟩ : Span) →
        w'.mem x = 0) := by
  have hplaced : ∀ {size alignment : U64}, RequestOk hhdmBase top (.allocAligned size alignment) →
      FitsAt (cursor hhdmBase a w.mem).1 (cursor hhdmBase a w.mem).2 size alignment →
      Arenas.allocAligned hhdmBase a w size alignment = .ok (p, a', w') →
      ∃ new st', Grows blockBuf w.world ranges w'.world new ∧
        Ready hhdmBase blockBuf top w'.world a' (new ++ ranges) (record blocks p size) lost
          (chain ++ new.reverse.map (regionOf hhdmBase)) st' ∧
        (p ≠ 0 → ∀ x : U64, hhdmBase.toNat + x.toNat ∈ (⟨p.toNat, size.toNat⟩ : Span) →
          w'.mem x = 0) := by
    intro size alignment hargs hfits hcall
    obtain ⟨new, st', hp, hgrows, h', hzero⟩ :=
      h.allocAligned hwindow hargs hfits hcall hprinted
    rw [record, if_neg hp]
    exact ⟨new, st', hgrows, h', fun _ => hzero⟩
  cases c with
  | allocAligned size alignment => exact hplaced hargs hfits hcall
  | alloc size =>
    by_cases hempty : a.currentRegion = 0
    · rw [Arenas.call, alloc, if_pos (.inl hempty)] at hcall
      obtain ⟨rfl, hrest⟩ := ok_pair_inj hcall
      obtain ⟨rfl, rfl⟩ := Prod.mk.inj hrest
      exact ⟨[], st, .refl blockBuf w.world ranges, by simpa [record] using h,
        fun hp => absurd rfl hp⟩
    · rw [Arenas.call, alloc_eq_allocAligned hempty] at hcall
      exact hplaced ⟨⟨hargs.size_pos, hargs.size_lt, hargs.alignment⟩, hargs.high⟩
        (hfits.resolve_left hempty) hcall

end Calls

end Octiron.Bump.Arenas
