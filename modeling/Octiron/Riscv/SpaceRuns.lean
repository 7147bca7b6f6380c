import Octiron.Riscv.AddressSpaces

/-! Runs of a kernel with several address spaces, whose calls come in any order. -/
namespace Octiron.Riscv.AddressSpaces

open Lib Lib.Word Lib.ByteMemory Lib.Span Lib.RadixTree Exec Pmm Sv39

/-- An address space with the pages of its tables, and what its own calls have made of
its map. -/
structure Space where
  root : U64
  pages : List U64
  map : Key → Option U64

structure System where
  world : Pmm.World
  spaces : List Space

inductive Event where
  | call (c : Call)
  | store (g : Span)
  | create
  | map (k : Nat) (va pa flags : U64)

/-- The pages granted between two states. -/
def newPages (w w' : Pmm.World) : List U64 :=
  (w'.grants.take (w'.grants.length - w.grants.length)).map fun g => BitVec.ofNat 64 g.base

/-- The map of a space after its call has returned. -/
def Space.record (s : Space) (va pa flags : U64) (err : Error) : Key → Option U64 :=
  if err.isErr then s.map
  else Function.update s.map (keyOf va) (some (tableEntry pa (flags ||| tefValid)))

/-- One event that returns: a call of another user of the manager, a store into a range
granted to one, a new root, or a call of `map_small_page` for one of the spaces. -/
inductive SystemStep (blockBuf : U64) : System → Event → System → Prop where
  | call {sys : System} {c : Call} {err : Error} {ret : Option U64} {st' : Pmm.State}
      (hoffers : c.Offers blockBuf sys.world.offered)
      (hcall : perform sys.world.st c = .ok (err, ret, st')) :
      SystemStep blockBuf sys (.call c) { sys with world := sys.world.after st' err ret c }
  | store {sys : System} {g : Span} {m' : Mem} (hg : g ∈ sys.world.grants)
      (hother : ∀ s ∈ sys.spaces, ∀ page ∈ s.root :: s.pages, pageSpan page ≠ g)
      (hframe : ∀ x : U64, x.toNat ∉ g → m' x = sys.world.st.mem x) :
      SystemStep blockBuf sys (.store g)
        { sys with world := { sys.world with st := { sys.world.st with mem := m' } } }
  | create {sys : System} {page : U64} {w' : Pmm.World}
      (hcall : sys.world.alloc pageSize (some 0) = .ok (.ofCode .success, some page, w')) :
      SystemStep blockBuf sys .create ⟨w', sys.spaces ++ [⟨page, [], fun _ => none⟩]⟩
  | map {sys : System} {k : Nat} {s : Space} {va pa flags : U64} {err : Error} {w' : Pmm.World}
      (hk : sys.spaces[k]? = some s) (hargs : CallOk va pa flags)
      (hcall : mapSmallPage sys.world s.root va pa flags = .ok (err, w')) :
      SystemStep blockBuf sys (.map k va pa flags) ⟨w', sys.spaces.set k
        ⟨s.root, newPages sys.world w' ++ s.pages, s.record va pa flags err⟩⟩

def SystemInitial (blockBuf : U64) (sys : System) : Prop :=
  Initial blockBuf sys.world ∧ sys.spaces = []

/-- The states that any events lead to. -/
def SystemRun (blockBuf : U64) (sys : System) : Prop :=
  Runs.Run (SystemInitial blockBuf) (SystemStep blockBuf) sys

/-- A space is what its own calls have made of it. -/
structure Space.Holds (w : Pmm.World) (s : Space) : Prop where
  tree : TableTree w s.root s.pages
  map_eq : pageMap w.st.mem s.root = s.map

structure SystemInv (blockBuf : U64) (sys : System) : Prop where
  managed : Managed blockBuf sys.world
  holds : ∀ s ∈ sys.spaces, s.Holds sys.world
  apart : ∀ (i j : Nat) (s s' : Space), sys.spaces[i]? = some s → sys.spaces[j]? = some s' →
    i ≠ j → ∀ page ∈ s.root :: s.pages, page ∉ s'.root :: s'.pages

section System

variable {blockBuf : U64} {w w' : Pmm.World} {sys sys' : System} {s : Space}

theorem pageSpan_injective {page page' : U64} (h : pageSpan page = pageSpan page') : page = page' :=
  BitVec.eq_of_toNat_eq (Span.mk.inj h).1

/-- A space that nothing of has been touched. -/
theorem Space.Holds.keep (h : s.Holds w) (hgrants : ∀ g ∈ w.grants, g ∈ w'.grants)
    (hsame : ∀ page ∈ s.root :: s.pages, ∀ x : U64, x.toNat ∈ pageSpan page →
      w'.st.mem x = w.st.mem x) : s.Holds w' := by
  obtain ⟨hinv, hmap⟩ := inv_congr h.tree.aligned hsame h.tree.inv
  exact ⟨⟨h.tree.aligned, fun page hpage => hgrants _ (h.tree.granted page hpage), h.tree.nodup,
    hinv⟩, hmap.trans h.map_eq⟩

theorem SystemInitial.inv (h : SystemInitial blockBuf sys) : SystemInv blockBuf sys := by
  obtain ⟨hinitial, hspaces⟩ := h
  have hgrants : sys.world.grants = [] := hinitial.2.2.1
  refine ⟨⟨⟨0, [], hinitial.inv⟩, by rw [hgrants]; exact .nil⟩, ?_, ?_⟩
  · simp [hspaces]
  · simp [hspaces]

/-- Where nothing of any space is touched, they all stay. -/
theorem SystemInv.keep (h : SystemInv blockBuf sys) (hmanaged : Managed blockBuf w')
    (hgrants : ∀ g ∈ sys.world.grants, g ∈ w'.grants)
    (hsame : ∀ s ∈ sys.spaces, ∀ page ∈ s.root :: s.pages, ∀ x : U64, x.toNat ∈ pageSpan page →
      w'.st.mem x = sys.world.st.mem x) : SystemInv blockBuf { sys with world := w' } :=
  ⟨hmanaged, fun s hs => (h.holds s hs).keep hgrants (hsame s hs), h.apart⟩

theorem SystemInv.call (h : SystemInv blockBuf sys) {c : Call} {err : Error} {ret : Option U64}
    {st' : Pmm.State} (hoffers : c.Offers blockBuf sys.world.offered)
    (hcall : perform sys.world.st c = .ok (err, ret, st')) :
    SystemInv blockBuf { sys with world := sys.world.after st' err ret c } := by
  obtain ⟨hmanaged, hgrants, hsame⟩ := h.managed.call hoffers hcall
  have hmem : (sys.world.after st' err ret c).st.mem = st'.mem := by cases c <;> rfl
  refine h.keep hmanaged hgrants fun s hs page hpage x hx => ?_
  rw [hmem]
  exact hsame _ ((h.holds s hs).tree.granted page hpage) x hx

theorem SystemInv.store (h : SystemInv blockBuf sys) {g : Span} {m' : Mem}
    (hg : g ∈ sys.world.grants)
    (hother : ∀ s ∈ sys.spaces, ∀ page ∈ s.root :: s.pages, pageSpan page ≠ g)
    (hframe : ∀ x : U64, x.toNat ∉ g → m' x = sys.world.st.mem x) :
    SystemInv blockBuf
      { sys with world := { sys.world with st := { sys.world.st with mem := m' } } } := by
  refine h.keep (h.managed.store hg hframe) (fun _ => id) fun s hs page hpage x hx => ?_
  have hgranted := (h.holds s hs).tree.granted page hpage
  exact hframe x (h.managed.apart hgranted hg (hother s hs page hpage) x.toNat hx)

/-- A new root: 512 zero entries. -/
theorem Space.holds_fresh {page : U64} (hpage : GrantedPage blockBuf w w' page) :
    Space.Holds w' ⟨page, [], fun _ => none⟩ := by
  have haligned : ∀ page' ∈ [page], isAligned page' pageSize = true := by
    intro page' hpage'
    rw [List.mem_singleton.mp hpage']
    exact hpage.aligned
  have hroot := frameAddr_frameOf hpage.aligned
  have hzero : ∀ i : Index, tables w'.st.mem (frameOf page) i = 0 := by
    intro i
    have hempty := tables_congr (m := fun _ => 0) hpage.aligned hpage.zero i
    rw [hempty]
    exact load64_zero _
  refine ⟨⟨haligned, ?_, List.nodup_singleton page, inv_start hzero⟩, ?_⟩
  · intro page' hpage'
    rw [List.mem_singleton.mp hpage', hpage.grants]
    exact List.mem_cons_self
  · funext key
    dsimp only
    rw [← hroot, pageMap_eq_find, find, keyPath, reach, hzero, isValid_zero]
    rfl

theorem SystemInv.create (h : SystemInv blockBuf sys) {page : U64}
    (hcall : sys.world.alloc pageSize (some 0) = .ok (.ofCode .success, some page, w')) :
    SystemInv blockBuf ⟨w', sys.spaces ++ [⟨page, [], fun _ => none⟩]⟩ := by
  obtain ⟨herr, -⟩ | ⟨page', -, hret, hpage⟩ := alloc_cases h.managed hcall
  · exact absurd herr (by decide)
  obtain rfl := Option.some.inj hret
  refine ⟨hpage.managed, ?_, ?_⟩
  · intro s hs
    rcases List.mem_append.mp hs with hs | hs
    · refine (h.holds s hs).keep (fun g hg => ?_) (hpage.keeps (h.holds s hs).tree h.managed).2
      rw [hpage.grants]
      exact List.mem_cons_of_mem _ hg
    · rw [List.mem_singleton.mp hs]
      exact Space.holds_fresh hpage
  · refine forall_ne_concat h.apart fun s hs => ?_
    have hnew := (hpage.keeps (h.holds s hs).tree h.managed).1
    refine ⟨fun page' hpage' hin => ?_, fun page' hpage' => ?_⟩
    · rw [List.mem_singleton.mp hin] at hpage'
      exact hnew hpage'
    · rw [List.mem_singleton.mp hpage']
      exact hnew

theorem newPages_eq {new : List U64} (h : w'.grants = new.map pageSpan ++ w.grants) :
    newPages w w' = new := by
  rw [newPages, h, List.length_append, Nat.add_sub_cancel, List.take_left, List.map_map]
  simp [pageSpan, Function.comp_def]

/-- What a call makes of the map is what the space books. -/
theorem Outcome.record_eq {va pa flags : U64} {err : Error} (hmap : pageMap w.st.mem s.root = s.map)
    (h : Outcome w w' s.root (keyOf va) (tableEntry pa (flags ||| tefValid)) err) :
    pageMap w'.st.mem s.root = s.record va pa flags err := by
  rw [Space.record]
  cases h with
  | exists' _ hsame => rw [if_pos (by decide), hsame, hmap]
  | inserted _ hupdate => rw [if_neg (by decide), hupdate, hmap]
  | failed _ _ hsame => rw [if_pos (isErr_push_pagingAllocFailed _), hsame, hmap]

/-- The pages of a space are none of another's, old or new. -/
theorem SystemInv.pages_apart (h : SystemInv blockBuf sys) {k j : Nat} {s' : Space}
    (hk : sys.spaces[k]? = some s) (hj : sys.spaces[j]? = some s') (hne : k ≠ j)
    {new pages' : List U64} (hmanaged : Managed blockBuf w') (hpages : pages' = new ++ s.pages)
    (hgrants : w'.grants = new.map pageSpan ++ sys.world.grants) {page page' : U64}
    (hpage : page ∈ s.root :: pages') (hpage' : page' ∈ s'.root :: s'.pages) :
    Disjoint (pageSpan page) (pageSpan page') := by
  have hgranted' := (h.holds s' (List.mem_of_getElem? hj)).tree.granted page' hpage'
  have hold : ∀ page ∈ s.root :: s.pages, Disjoint (pageSpan page) (pageSpan page') := by
    intro page hpage
    have hgranted := (h.holds s (List.mem_of_getElem? hk)).tree.granted page hpage
    refine h.managed.apart hgranted hgranted' fun heq => ?_
    rw [pageSpan_injective heq] at hpage
    exact h.apart k j s s' hk hj hne page' hpage hpage'
  rw [hpages] at hpage
  rcases List.mem_cons.mp hpage with rfl | hpage
  · exact hold _ List.mem_cons_self
  rcases List.mem_append.mp hpage with hnew | hpage
  · have hdisjoint := hmanaged.disjoint
    rw [hgrants, List.pairwise_append] at hdisjoint
    exact hdisjoint.2.2 _ (List.mem_map_of_mem hnew) _ hgranted'
  · exact hold page (List.mem_cons_of_mem _ hpage)

theorem SystemInv.map (h : SystemInv blockBuf sys) {k : Nat} {va pa flags : U64} {err : Error}
    (hk : sys.spaces[k]? = some s) (hargs : CallOk va pa flags)
    (hcall : mapSmallPage sys.world s.root va pa flags = .ok (err, w')) :
    SystemInv blockBuf ⟨w', sys.spaces.set k
      ⟨s.root, newPages sys.world w' ++ s.pages, s.record va pa flags err⟩⟩ := by
  have hs := h.holds s (List.mem_of_getElem? hk)
  obtain ⟨pages', hprogress, houtcome⟩ := mapSmallPage_spec h.managed hs.tree hargs hcall
  obtain ⟨new, hpages, hgrants⟩ := hprogress.grows.grants
  rw [newPages_eq hgrants, ← hpages]
  have hapart : ∀ (j : Nat) (s' : Space), sys.spaces[j]? = some s' → k ≠ j →
      ∀ page ∈ s.root :: pages', ∀ page' ∈ s'.root :: s'.pages,
        Disjoint (pageSpan page) (pageSpan page') :=
    fun j s' hj hne page hpage page' hpage' =>
      h.pages_apart hk hj hne hprogress.managed hpages hgrants hpage hpage'
  refine ⟨hprogress.managed, fun s' hs' => ?_, fun i j r r' hi hj hij page hpage hpage' => ?_⟩
  · obtain ⟨j, hj⟩ := List.mem_iff_getElem?.mp hs'
    rcases getElem?_set_cases hj with ⟨-, rfl⟩ | ⟨hne, hj⟩
    · exact ⟨hprogress.tree, houtcome.record_eq hs.map_eq⟩
    · have hs' := h.holds s' (List.mem_of_getElem? hj)
      refine hs'.keep (fun g hg => ?_) fun page' hpage' x hx => ?_
      · rw [hgrants]
        exact List.mem_append_right _ hg
      · apply hprogress.grows.frame x
        · intro page hpage hin
          exact hapart j s' hj (Ne.symm hne) page hpage page' hpage' x.toNat hin hx
        · exact h.managed.apart_buf (hs'.tree.granted page' hpage') hx
  · rcases getElem?_set_cases hi with ⟨rfl, rfl⟩ | ⟨-, hold⟩ <;>
      rcases getElem?_set_cases hj with ⟨rfl, rfl⟩ | ⟨-, hold'⟩
    · exact hij rfl
    · exact hapart j r' hold' hij page hpage page hpage' page.toNat (first_mem page)
        (first_mem page)
    · exact hapart i r hold (Ne.symm hij) page hpage' page hpage page.toNat (first_mem page)
        (first_mem page)
    · exact h.apart i j r r' hold hold' hij page hpage hpage'

theorem SystemInv.step (h : SystemInv blockBuf sys) {event : Event}
    (hstep : SystemStep blockBuf sys event sys') : SystemInv blockBuf sys' := by
  cases hstep with
  | call hoffers hcall => exact h.call hoffers hcall
  | store hg hother hframe => exact h.store hg hother hframe
  | create hcall => exact h.create hcall
  | map hk hargs hcall => exact h.map hk hargs hcall

theorem SystemRun.inv (h : SystemRun blockBuf sys) : SystemInv blockBuf sys :=
  Runs.RunWhere.induction (Q := SystemInv blockBuf) (fun _ hinitial => hinitial.inv)
    (fun _ _ _ _ hinv _ hstep => hinv.step hstep) h

end System

/-- Whoever allocates, allocates at page alignment; the rest of an event is free. -/
def PageEvent : Event → Prop
  | .call (.allocAligned _ alignment _) => alignment = pageSize
  | _ => True

def PageRun (blockBuf : U64) (sys : System) : Prop :=
  Runs.RunWhere (SystemInitial blockBuf) (SystemStep blockBuf) (fun _ => PageEvent) sys

section Serving

variable {blockBuf : U64} {sys sys' : System}

theorem serving_step (h : Serving blockBuf sys.world) (hinv : SystemInv blockBuf sys) {event : Event}
    (hevent : PageEvent event) (hstep : SystemStep blockBuf sys event sys') :
    Serving blockBuf sys'.world := by
  cases hstep with
  | @call c err ret st' hoffers hcall =>
    refine h.call hoffers ?_ hcall
    cases c with
    | addRegion base size => trivial
    | allocAligned size alignment old => exact hevent
  | store hg _ hframe => exact h.withMem hinv.managed hg hframe
  | create hcall =>
    obtain ⟨err, ret, w', hcall', h', -⟩ := h.exists_alloc
    obtain ⟨-, -, rfl⟩ := ok_triple_inj (hcall.symm.trans hcall')
    exact h'
  | map hk hargs hcall =>
    have hholds := hinv.holds _ (List.mem_of_getElem? hk)
    obtain ⟨err, w', hcall', h', -⟩ := exists_mapSmallPage h hinv.managed hholds.tree hargs
    obtain ⟨-, rfl⟩ := ok_pair_inj (hcall.symm.trans hcall')
    exact h'

theorem PageRun.serving (h : PageRun blockBuf sys) : Serving blockBuf sys.world := by
  refine Runs.RunWhere.induction (Q := fun sys => Serving blockBuf sys.world) ?_ ?_ h
  · rintro sys ⟨⟨hobject, -, -, mem, hinit⟩, -⟩
    exact ⟨_, _, refines_init hobject hinit⟩
  · intro sys event sys' hrun hserving hevent hstep
    exact serving_step hserving (SystemRun.inv hrun.run) hevent hstep

end Serving

/-- Seven pages, of which two are roots. -/
theorem exists_pageRun_twoRoots : ∃ w, PageRun 0xffffffff80100000
      ⟨w, [⟨0x1000, [], fun _ => none⟩, ⟨0x2000, [], fun _ => none⟩]⟩ ∧
    w.st.freeBytes.toNat = 0x5000 := by
  obtain ⟨st₀, st₁, _, hinitial, husable, hregion, h₁⟩ := exists_sevenPages
  obtain ⟨st₂, hfirst, h₂⟩ := h₁.alloc pageSize 0
  obtain ⟨st₃, hsecond, h₃⟩ := h₂.alloc pageSize 0
  have hstart : PageRun 0xffffffff80100000 ⟨⟨st₀, [], []⟩, []⟩ := .start ⟨hinitial, rfl⟩
  have hentered := Runs.RunWhere.next hstart (show PageEvent (.call (.addRegion 0x1000 0x7000)) from trivial)
    (.call (c := .addRegion 0x1000 0x7000) husable hregion)
  have hone := Runs.RunWhere.next hentered (show PageEvent .create from trivial)
    (@SystemStep.create _ _ 0x1000 _ (by rw [World.alloc, World.after, hfirst]; rfl))
  have htwo := Runs.RunWhere.next hone (show PageEvent .create from trivial)
    (@SystemStep.create _ _ 0x2000 _ (by rw [World.alloc, hsecond]; rfl))
  exact ⟨_, htwo, h₃.free⟩

/-- The reply where the allocations have not failed. -/
theorem Outcome.reply_eq {w w' : Pmm.World} {root entry : U64} {key : Key} {err : Error}
    (h : Outcome w w' root key entry err)
    (henough : err = .ofCode .pagingMapExists ∨ err = .ofCode .success) :
    err = if pageMap w.st.mem root key = none then .ofCode .success
      else .ofCode .pagingMapExists := by
  cases h with
  | exists' hdefined _ => rw [if_neg hdefined]
  | inserted hundefined _ => rw [if_pos hundefined]
  | failed _ _ _ =>
    rcases henough with hfailed | hfailed <;>
      exact absurd hfailed (push_pagingAllocFailed_ne _ (by decide))

/-- Then a page is mapped in the first of the two spaces. -/
theorem exists_systemRun_mapped : ∃ sys s s', SystemRun 0xffffffff80100000 sys ∧
    sys.spaces = [s, s'] ∧
    s.map (keyOf 0x4000) = some (tableEntry 0x80000000 (tefRead ||| tefValid)) ∧
    s'.map = fun _ => none := by
  obtain ⟨w, hrun, hfree⟩ := exists_pageRun_twoRoots
  have hargs : CallOk 0x4000 0x80000000 tefRead := ⟨by decide, by decide, by decide⟩
  have hinv := SystemRun.inv hrun.run
  have hholds := hinv.holds ⟨0x1000, [], fun _ => none⟩ List.mem_cons_self
  obtain ⟨err, w', hcall, -, henough⟩ :=
    exists_mapSmallPage hrun.serving hinv.managed hholds.tree hargs
  obtain ⟨pages', -, houtcome⟩ := mapSmallPage_spec hinv.managed hholds.tree hargs hcall
  have herr := houtcome.reply_eq (henough (by rw [hfree]; decide))
  rw [hholds.map_eq, if_pos rfl] at herr
  subst herr
  have hnext := Runs.RunWhere.next hrun.run trivial (.map (k := 0) rfl hargs hcall)
  refine ⟨_, _, _, hnext, rfl, ?_, rfl⟩
  dsimp only
  rw [Space.record, if_neg (by decide), Function.update_self]

/-- What `virt_to_phys` makes of a map. -/
def lookup (map : Key → Option U64) (va : U64) : Option U64 :=
  match map (keyOf va) with
  | none => some (-1)
  | some e => if isLeaf e then some (getAddress e ||| va &&& pageSize) else none

/-- Over any interleaving of allocations, stores of other owners, new roots and calls of
`map_small_page` for any of the spaces, each space's tables hold what the calls for that
space have inserted, and `virt_to_phys` translates by that alone. -/
theorem spaces_isolated {blockBuf : U64} {sys : System} (hrun : SystemRun blockBuf sys) :
    ∀ s ∈ sys.spaces, pageMap sys.world.st.mem s.root = s.map ∧
      ∀ va, virtToPhys sys.world.st.mem s.root va = lookup s.map va := by
  intro s hs
  have hholds := hrun.inv.holds s hs
  refine ⟨hholds.map_eq, fun va => ?_⟩
  have hroot := frameAddr_frameOf (hholds.tree.aligned s.root List.mem_cons_self)
  have hwalk := virtToPhys_eq hholds.tree.inv va
  rw [hroot] at hwalk
  dsimp only at hwalk
  rw [hwalk, hholds.map_eq]
  rfl

/-- The page at `0x4000`, mapped in the first of two spaces, is not in the second. -/
theorem spaces_isolated_twoRoots : ∃ sys s s', SystemRun 0xffffffff80100000 sys ∧
    sys.spaces = [s, s'] ∧
    virtToPhys sys.world.st.mem s.root 0x4000 = some 0x80000000 ∧
    virtToPhys sys.world.st.mem s'.root 0x4000 = some (-1) := by
  obtain ⟨sys, s, s', hrun, hspaces, hmap, hmap'⟩ := exists_systemRun_mapped
  have hs : s ∈ sys.spaces := by simp [hspaces]
  have hs' : s' ∈ sys.spaces := by simp [hspaces]
  refine ⟨sys, s, s', hrun, hspaces, ?_, ?_⟩
  · rw [(spaces_isolated hrun s hs).2, lookup, hmap]
    decide
  · rw [(spaces_isolated hrun s' hs').2, lookup, hmap']

/-- A call for a space refuses exactly the pages that the space has mapped; for another page
it succeeds or passes on the manager's error. -/
theorem mapSmallPage_reply {blockBuf : U64} {sys : System} {s : Space} {va pa flags : U64}
    {err : Error} {w' : Pmm.World} (hrun : SystemRun blockBuf sys) (hs : s ∈ sys.spaces)
    (hargs : CallOk va pa flags)
    (hcall : mapSmallPage sys.world s.root va pa flags = .ok (err, w')) :
    (s.map (keyOf va) ≠ none ∧ err = .ofCode .pagingMapExists) ∨
      (s.map (keyOf va) = none ∧ (err = .ofCode .success ∨
        ∃ err₀ : Error, err₀.isErr = true ∧ err = err₀.push .pagingAllocFailed)) := by
  have hholds := hrun.inv.holds s hs
  obtain ⟨pages', -, houtcome⟩ := mapSmallPage_spec hrun.inv.managed hholds.tree hargs hcall
  rw [← hholds.map_eq]
  cases houtcome with
  | exists' hdefined _ => exact .inl ⟨hdefined, rfl⟩
  | inserted hundefined _ => exact .inr ⟨hundefined, .inl rfl⟩
  | failed hundefined herr _ => exact .inr ⟨hundefined, .inr ⟨_, herr, rfl⟩⟩

/-- With a free page the first of the two spaces takes a new mapping. -/
theorem mapSmallPage_reply_twoRoots : ∃ sys s err w', SystemRun 0xffffffff80100000 sys ∧
    s ∈ sys.spaces ∧ mapSmallPage sys.world s.root 0x4000 0x80000000 tefRead = .ok (err, w') ∧
    err ≠ .ofCode .pagingMapExists := by
  obtain ⟨w, hrun, hfree⟩ := exists_pageRun_twoRoots
  have hargs : CallOk 0x4000 0x80000000 tefRead := ⟨by decide, by decide, by decide⟩
  have hinv := SystemRun.inv hrun.run
  have hholds := hinv.holds ⟨0x1000, [], fun _ => none⟩ List.mem_cons_self
  obtain ⟨err, w', hcall, -⟩ := exists_mapSmallPage hrun.serving hinv.managed hholds.tree hargs
  refine ⟨_, _, err, w', hrun.run, List.mem_cons_self, hcall, ?_⟩
  rcases mapSmallPage_reply hrun.run List.mem_cons_self hargs hcall with
    ⟨hdefined, -⟩ | ⟨-, rfl | ⟨err₀, -, rfl⟩⟩
  · exact absurd rfl hdefined
  · decide
  · exact push_pagingAllocFailed_ne err₀ (by decide)

/-- As long as everybody allocates whole pages, every call of `map_small_page` for a space
returns, and with two pages free it does what the space's map says. -/
theorem mapSmallPage_completes {blockBuf : U64} {sys : System} {s : Space} {va pa flags : U64}
    (hrun : PageRun blockBuf sys) (hs : s ∈ sys.spaces) (hargs : CallOk va pa flags) :
    ∃ err w', mapSmallPage sys.world s.root va pa flags = .ok (err, w') ∧
      (2 * pageBytes ≤ (freeMemory sys.world.st).toNat →
        err = if s.map (keyOf va) = none then .ofCode .success else .ofCode .pagingMapExists) := by
  have hinv := SystemRun.inv hrun.run
  have hholds := hinv.holds s hs
  obtain ⟨err, w', hcall, -, henough⟩ :=
    exists_mapSmallPage hrun.serving hinv.managed hholds.tree hargs
  obtain ⟨pages', -, houtcome⟩ := mapSmallPage_spec hinv.managed hholds.tree hargs hcall
  refine ⟨err, w', hcall, fun hfree => ?_⟩
  rw [← hholds.map_eq]
  exact houtcome.reply_eq (henough hfree)

/-- The first mapping of the first of two spaces succeeds. -/
theorem mapSmallPage_completes_twoRoots : ∃ sys s w', PageRun 0xffffffff80100000 sys ∧
    s ∈ sys.spaces ∧
    mapSmallPage sys.world s.root 0x4000 0x80000000 tefRead = .ok (.ofCode .success, w') := by
  obtain ⟨w, hrun, hfree⟩ := exists_pageRun_twoRoots
  have hargs : CallOk 0x4000 0x80000000 tefRead := ⟨by decide, by decide, by decide⟩
  obtain ⟨err, w', hcall, hreply⟩ := mapSmallPage_completes hrun List.mem_cons_self hargs
  rw [hreply (by rw [freeMemory, hfree]; decide), if_pos rfl] at hcall
  exact ⟨_, _, w', hrun, List.mem_cons_self, hcall⟩

end Octiron.Riscv.AddressSpaces
