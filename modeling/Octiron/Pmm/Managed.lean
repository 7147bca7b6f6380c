import Octiron.Pmm.Clients

/-! The manager as the parts of the kernel above it call it: its replies and the history of
its grants, in one memory with theirs. -/
namespace Octiron.Pmm

open Lib Lib.Word Lib.ByteMemory Lib.Span Exec

/-- `pmm::alloc`, with the history of grants. -/
def World.alloc (w : World) (size : U64) (ret : Option U64) : Exec (Error × Option U64 × World) := do
  let (err, ret, st) ← Pmm.alloc w.st size ret
  return (err, ret, ⟨st, w.offered, recordGrant w.grants err ret size⟩)

/-- The memory after the kernel has written to it. -/
def World.withMem (w : World) (mem : Mem) : World := { w with st := { w.st with mem := mem } }

/-- The manager's invariant, and ranges that nobody shares. -/
structure Managed (blockBuf : U64) (w : World) : Prop where
  inv : ∃ used lost, Inv blockBuf w used lost
  disjoint : w.grants.Pairwise Disjoint

/-- What a granted request leaves: a range on a page boundary that was nobody's, zeroed. -/
structure Taken (blockBuf : U64) (w w' : World) (g : Span) : Prop where
  managed : Managed blockBuf w'
  dvd : pageBytes ∣ g.base
  grants : w'.grants = g :: w.grants
  offered : w'.offered = w.offered
  fresh : ∀ g' ∈ w.grants, Disjoint g g'
  zero : ∀ x : U64, x.toNat ∈ g → w'.st.mem x = 0
  frame : ∀ x : U64, x.toNat ∉ g → ¬ Within x blockBuf bufBytes → w'.st.mem x = w.st.mem x

section Managed

variable {blockBuf : U64} {w w' : World} {g g' : Span}

theorem sound_of_usable {offered : List Span} {base size : U64}
    (h : Usable blockBuf offered ⟨base.toNat, size.toNat⟩) :
    PageCall.Sound blockBuf (.addRegion base size) := by
  refine ⟨⟨fun hzero => ?_, h.base_aligned, h.length_pos, h.length_aligned, h.high⟩, h.disjoint_buf⟩
  have hpos := h.base_pos
  rw [hzero] at hpos
  exact absurd hpos (Nat.lt_irrefl 0)

theorem Managed.apart (h : Managed blockBuf w) (hg : g ∈ w.grants) (hg' : g' ∈ w.grants)
    (hne : g ≠ g') : Disjoint g g' := by
  obtain ⟨i, hi⟩ := List.mem_iff_getElem?.mp hg
  obtain ⟨j, hj⟩ := List.mem_iff_getElem?.mp hg'
  refine disjoint_of_getElem? h.disjoint hi hj fun heq => hne ?_
  subst heq
  exact Option.some.inj (hi.symm.trans hj)

theorem Managed.apart_buf (h : Managed blockBuf w) (hg : g ∈ w.grants) {x : U64}
    (hx : x.toNat ∈ g) : ¬ Within x blockBuf bufBytes := by
  obtain ⟨used, lost, hinv⟩ := h.inv
  intro hin
  exact hinv.grant_disjoint_buf hg x.toNat hx ((within_iff hinv.slab.fits.le).mp hin)

theorem Managed.grant_high (h : Managed blockBuf w) (hg : g ∈ w.grants) :
    g.base + g.length ≤ 2 ^ 56 := by
  obtain ⟨used, lost, hinv⟩ := h.inv
  exact hinv.grant_high hg

/-- A grant comes from memory that was offered. -/
theorem Managed.exists_offered (h : Managed blockBuf w) (hg : g ∈ w.grants) :
    ∃ s ∈ w.offered, Inside g s := by
  obtain ⟨used, lost, hinv⟩ := h.inv
  obtain ⟨region, hregion, hin⟩ := hinv.grants g hg
  exact ⟨regionSpan region, hinv.offered region hregion, hin⟩

/-- A store into a granted range does not concern the manager. -/
theorem Managed.store (h : Managed blockBuf w) (hg : g ∈ w.grants) {m' : Mem}
    (hframe : ∀ x : U64, x.toNat ∉ g → m' x = w.st.mem x) : Managed blockBuf (w.withMem m') := by
  obtain ⟨used, lost, hinv⟩ := h.inv
  exact ⟨⟨used, lost, hinv.frame fun x hx => hframe x fun hin => h.apart_buf hg hin hx⟩, h.disjoint⟩

/-- A call of another client of the manager. -/
theorem Managed.call (h : Managed blockBuf w) {c : Call} {err : Error} {ret : Option U64}
    {st' : State} (hoffers : c.Offers blockBuf w.offered)
    (hcall : perform w.st c = .ok (err, ret, st')) :
    Managed blockBuf (w.after st' err ret c) ∧
      (∀ g ∈ w.grants, g ∈ (w.after st' err ret c).grants) ∧
      ∀ g ∈ w.grants, ∀ x : U64, x.toNat ∈ g → st'.mem x = w.st.mem x := by
  obtain ⟨used, lost, hinv⟩ := h.inv
  obtain ⟨hsame, hgrants⟩ := hinv.call_memory hoffers hcall
  have hinv' := hinv.step (step_of_perform hoffers hcall)
  rcases hgrants with hgrants | ⟨g, hgrants, hfresh, -⟩
  · exact ⟨⟨hinv', hgrants ▸ h.disjoint⟩, fun g hg => hgrants ▸ hg, hsame⟩
  · exact ⟨⟨hinv', hgrants ▸ List.pairwise_cons.mpr ⟨hfresh, h.disjoint⟩⟩,
      fun g' hg' => hgrants ▸ List.mem_cons_of_mem g hg', hsame⟩

/-- A request for whole pages is refused, with nothing done, or takes a range. -/
theorem Managed.alloc_cases (h : Managed blockBuf w) {size old : U64} {err : Error}
    {ret : Option U64} (hcall : w.alloc size (some old) = .ok (err, ret, w')) :
    (err.isErr = true ∧ ret = some 0 ∧ w' = w) ∨
      ∃ page, err = .ofCode .success ∧ ret = some page ∧
        Taken blockBuf w w' ⟨page.toNat, (alignUp size pageSize).toNat⟩ := by
  obtain ⟨used, lost, hinv⟩ := h.inv
  obtain ⟨⟨err', ret', st'⟩, halloc, hcall⟩ := bind_eq_ok.mp hcall
  obtain ⟨rfl, hrest⟩ := Prod.mk.inj (pure_eq_ok.mp hcall)
  obtain ⟨rfl, rfl⟩ := Prod.mk.inj hrest
  rcases allocAligned_spec hinv halloc with ⟨herr, rfl, hret, -⟩ |
    ⟨region, hregion, k, page, used', hk, rfl, rfl, -, hgranted, hinv'⟩
  · refine .inl ⟨by rw [Error.isErr, herr]; rfl, hret, ?_⟩
    rw [recordGrant_of_refused herr]
  have hgrants : recordGrant w.grants (.ofCode .success) (some page) size =
      ⟨page.toNat, (alignUp size pageSize).toNat⟩ :: w.grants := rfl
  rw [hgrants] at hinv' ⊢
  have hfresh : ∀ g ∈ w.grants, Disjoint ⟨page.toNat, (alignUp size pageSize).toNat⟩ g :=
    fun g hg => hinv'.newest_disjoint rfl hg
  have hhigh : page.toNat + (alignUp size pageSize).toNat ≤ 2 ^ 56 :=
    hinv'.grant_high (g := ⟨page.toNat, (alignUp size pageSize).toNat⟩) List.mem_cons_self
  have hwithin : ∀ x : U64, Within x page (alignUp size pageSize).toNat ↔
      x.toNat ∈ (⟨page.toNat, (alignUp size pageSize).toNat⟩ : Span) := by
    intro x
    rw [within_iff (by omega)]
    rfl
  have hdvd : pageBytes ∣ page.toNat := by
    have haligned := hgranted.aligned
    rw [pageSize_toNat] at hk
    obtain rfl : k = 12 := Nat.pow_right_injective (le_refl 2) hk.symm
    exact haligned
  refine .inr ⟨page, rfl, rfl, ⟨⟨used', _, hinv'⟩, List.pairwise_cons.mpr ⟨hfresh, h.disjoint⟩⟩,
    hdvd, rfl, rfl, hfresh, ?_, ?_⟩
  · exact fun x hx => hgranted.zero x ((hwithin x).mpr hx)
  · exact fun x hx hbuf => hgranted.frame x (mt (hwithin x).mp hx) hbuf

end Managed

/-- The manager has only been asked for whole pages, so it still replies to each request. -/
def Serving (blockBuf : U64) (w : World) : Prop := ∃ m₀ front, Refines blockBuf m₀ w.st front

/-- Whoever allocates, allocates at page alignment. -/
def Call.AtPage : Call → Prop
  | .addRegion _ _ => True
  | .allocAligned _ alignment _ => alignment = pageSize

section Serving

variable {blockBuf : U64} {w : World} {g : Span} {m' : Mem} {err : Error} {ret : Option U64}
  {st' : State}

/-- A request for a page is refused exactly when nothing is free. -/
theorem Serving.exists_alloc (h : Serving blockBuf w) :
    ∃ err ret w', w.alloc pageSize (some 0) = .ok (err, ret, w') ∧ Serving blockBuf w' ∧
      w.st.freeBytes.toNat ≤ w'.st.freeBytes.toNat + pageBytes ∧
      (err.isErr = true ↔ w.st.freeBytes.toNat = 0) := by
  obtain ⟨m₀, front, h⟩ := h
  obtain ⟨st', halloc, h'⟩ := h.alloc pageSize 0
  have hsize : (alignUp pageSize pageSize).toNat = pageBytes := by decide
  refine ⟨_, _, ⟨st', w.offered, recordGrant w.grants (front.serve pageSize).1
    (front.serve pageSize).2.1 pageSize⟩, by rw [World.alloc, halloc]; rfl, ⟨m₀, _, h'⟩, ?_⟩
  dsimp only
  rw [h'.free, h.free, Front.serve, hsize]
  cases hserve : Cursors.serve pageBytes front.cursors with
  | none =>
    have hempty := Cursors.serve_unit_eq_none (by decide) h.room_dvd hserve
    have hrefused : (Error.ofCode .pmmOutOfMem).isErr = true := by decide
    exact ⟨Nat.le_add_right _ _, iff_of_true hrefused hempty⟩
  | some served =>
    have hroom := Cursors.room_of_serve hserve
    refine ⟨?_, iff_of_false (show ¬ (Error.ofCode .success).isErr = true by decide) ?_⟩
    · dsimp only
      omega
    · have hpage : 0 < pageBytes := by decide
      omega

/-- A request of any size is answered. -/
theorem Serving.exists_reply (h : Serving blockBuf w) (size : U64) :
    ∃ err ret w', w.alloc size (some 0) = .ok (err, ret, w') ∧ Serving blockBuf w' := by
  obtain ⟨m₀, front, h⟩ := h
  obtain ⟨st', halloc, h'⟩ := h.alloc size 0
  exact ⟨_, _, ⟨st', w.offered, recordGrant w.grants _ _ size⟩, by rw [World.alloc, halloc]; rfl,
    m₀, _, h'⟩

/-- A store into a granted range lies outside `BLOCK_BUF`. -/
theorem Serving.withMem (h : Serving blockBuf w) (hmanaged : Managed blockBuf w) (hg : g ∈ w.grants)
    (hframe : ∀ x : U64, x.toNat ∉ g → m' x = w.st.mem x) : Serving blockBuf (w.withMem m') := by
  obtain ⟨m₀, front, h⟩ := h
  exact ⟨_, _, h.rebase fun x hx => hframe x fun hin => hmanaged.apart_buf hg hin hx⟩

theorem Serving.perform (h : Serving blockBuf w) {call : PageCall}
    (hsound : call.Sound blockBuf) (hcall : call.perform w.st = .ok (err, ret, st')) :
    ∃ m₀ front, Refines blockBuf m₀ st' front := by
  obtain ⟨m₀, front, h⟩ := h
  obtain ⟨st'', hcall', h'⟩ := h.perform hsound
  obtain ⟨-, -, rfl⟩ := ok_triple_inj (hcall.symm.trans hcall')
  exact ⟨m₀, _, h'⟩

theorem Serving.call (h : Serving blockBuf w) {c : Call} (hoffers : c.Offers blockBuf w.offered)
    (hpage : c.AtPage) (hcall : Pmm.perform w.st c = .ok (err, ret, st')) :
    Serving blockBuf (w.after st' err ret c) := by
  cases c with
  | addRegion base size => exact h.perform (sound_of_usable hoffers) hcall
  | allocAligned size alignment old =>
    obtain rfl : alignment = pageSize := hpage
    exact h.perform (show PageCall.Sound blockBuf (.alloc size old) from trivial) hcall

end Serving

/-- A manager that has just been given seven pages. -/
theorem exists_sevenPages : ∃ st₀ st₁ m₀, Initial 0xffffffff80100000 ⟨st₀, [], []⟩ ∧
    Usable 0xffffffff80100000 [] ⟨0x1000, 0x7000⟩ ∧
    perform st₀ (.addRegion 0x1000 0x7000) = .ok (.ofCode .success, none, st₁) ∧
    Refines 0xffffffff80100000 m₀ st₁ ((⟨[], []⟩ : Front).reply (.addRegion 0x1000 0x7000)).2.2 := by
  obtain ⟨st₀, hinit⟩ := exists_initialize
  have husable : Usable 0xffffffff80100000 [] ⟨0x1000, 0x7000⟩ :=
    ⟨by decide, by decide, by decide, by decide, by decide, fun h => absurd h (by decide), by simp⟩
  obtain ⟨st₁, hadd, -, h₁⟩ :=
    (refines_init (by decide) hinit).addRegion (@sound_of_usable _ _ 0x1000 0x7000 husable)
  exact ⟨st₀, st₁, _, ⟨by decide, rfl, rfl, _, hinit⟩, husable,
    perform_addRegion_eq_ok.mpr ⟨hadd, rfl⟩, h₁⟩

end Octiron.Pmm
