import Octiron.Pmm.Managed
import Octiron.Riscv.Translate

/-! Several address spaces over one physical memory.  Here `map_small_page` calls the
manager itself, whose memory the tables lie in, among the ranges of other owners. -/
namespace Octiron.Riscv.AddressSpaces

open Lib Lib.Word Lib.ByteMemory Lib.Span Lib.RadixTree Exec Pmm Sv39

def write (w : Pmm.World) (address v : U64) : Pmm.World :=
  { w with st := { w.st with mem := store64 w.st.mem address v } }

/-- The block at levels 2 and 1.  What the local `page` holds before the call is
overwritten first. -/
def ensureTable (w : Pmm.World) (err : Error) (entry : U64)
    (rest : Error → Pmm.World → Exec (Error × Pmm.World)) : Exec (Error × Pmm.World) :=
  if isValid (load64 w.st.mem entry) then rest err w
  else do
    let (err, page, w) ← w.alloc pageSize (some 0)
    if err.isErr then return (err.push .pagingAllocFailed, w)
    else rest err (write w entry (tableEntry (page.getD 0) tefValid))

def mapSmallPage (w : Pmm.World) (root va pa flags : U64) : Exec (Error × Pmm.World) :=
  if !isAligned va alignofPageTable || !isAligned pa alignofPageTable then
    .ok (.ofCode .pagingUnalignedAddr, w)
  else
    let l2Entry := entryAddr root (vpn va 2)
    ensureTable w (.ofCode .success) l2Entry fun err w =>
      let l1Entry := entryAddr (getAddress (load64 w.st.mem l2Entry)) (vpn va 1)
      ensureTable w err l1Entry fun err w =>
        let l0Entry := entryAddr (getAddress (load64 w.st.mem l1Entry)) (vpn va 0)
        if isValid (load64 w.st.mem l0Entry) then .ok (.ofCode .pagingMapExists, w)
        else .ok (err, write w l0Entry (tableEntry pa (flags ||| tefValid)))

def pageSpan (page : U64) : Span := ⟨page.toNat, pageBytes⟩

/-- The tables of one address space lie in pages granted for them. -/
structure TableTree (w : Pmm.World) (root : U64) (pages : List U64) : Prop where
  aligned : ∀ page ∈ root :: pages, isAligned page pageSize = true
  granted : ∀ page ∈ root :: pages, pageSpan page ∈ w.grants
  nodup : (root :: pages).Nodup
  inv : Sv39.Inv (frameOf root) ⟨w.st.mem, 0, pages⟩

/-- What a call for one address space does to the rest: it takes pages that were not
granted before, and writes to its own pages and `BLOCK_BUF` only. -/
structure Grows (blockBuf root : U64) (w : Pmm.World) (pages : List U64) (w' : Pmm.World)
    (pages' : List U64) : Prop where
  grants : ∃ new, pages' = new ++ pages ∧ w'.grants = new.map pageSpan ++ w.grants
  frame : ∀ x, (∀ page ∈ root :: pages', x.toNat ∉ pageSpan page) → ¬ Within x blockBuf bufBytes →
    w'.st.mem x = w.st.mem x

section Frames

variable {m m' : Mem} {root : U64} {pages : List U64}

/-- A table is what its page holds. -/
theorem tables_congr {page : U64} (halign : isAligned page pageSize = true)
    (h : ∀ x : U64, x.toNat ∈ pageSpan page → m' x = m x) (i : Index) :
    tables m' (frameOf page) i = tables m (frameOf page) i := by
  have hpage := page_toNat halign
  have hslot := slot_toNat (frameOf page) i
  have hi := i.isLt
  have hp := (frameOf page).isLt
  apply load64_congr
  intro x hx
  apply h
  rw [within_iff (by omega)] at hx
  rw [pageSpan, mem_def, pageBytes]
  dsimp only
  omega

theorem exists_page_of_frame {p : Frame} (hp : p ∈ frames (frameOf root) ⟨m, 0, pages⟩) :
    ∃ page ∈ root :: pages, frameOf page = p := by
  rcases List.mem_append.mp hp with hp | hp
  · obtain ⟨page, hpage, rfl⟩ := List.mem_map.mp hp
    exact ⟨page, List.mem_cons_of_mem root hpage, rfl⟩
  · exact ⟨root, List.mem_cons_self, (List.mem_singleton.mp hp).symm⟩

variable (haligned : ∀ page ∈ root :: pages, isAligned page pageSize = true)
  (h : ∀ page ∈ root :: pages, ∀ x : U64, x.toNat ∈ pageSpan page → m' x = m x)
include haligned h

theorem frames_congr : ∀ p ∈ frames (frameOf root) ⟨m, 0, pages⟩, ∀ i,
    tables m' p i = tables m p i := by
  intro p hp i
  obtain ⟨page, hpage, rfl⟩ := exists_page_of_frame hp
  exact tables_congr (haligned page hpage) (h page hpage) i

/-- An address space is what its pages hold. -/
theorem inv_congr (hinv : Sv39.Inv (frameOf root) ⟨m, 0, pages⟩) :
    Sv39.Inv (frameOf root) ⟨m', 0, pages⟩ ∧ pageMap m' root = pageMap m root := by
  have hsame := frames_congr haligned h
  refine ⟨⟨hinv.separated.of_fresh hsame, fun path p i hpath hreach hvalid => ?_⟩, ?_⟩
  · have hreach' : reach isValid entryFrame (tables m) (frameOf root) path = some p :=
      (hinv.separated.reach_of_fresh hsame (by omega)).symm.trans hreach
    have hp := hsame p (hinv.separated.mem path p (by omega) hreach') i
    dsimp only at hvalid ⊢
    rw [hp] at hvalid ⊢
    exact hinv.pointers path p i hpath hreach' hvalid
  · have hroot := frameAddr_frameOf (haligned root List.mem_cons_self)
    funext key
    rw [← hroot, pageMap_eq_find, pageMap_eq_find]
    exact hinv.separated.find_of_fresh hsame (keyPath_lt key) _

end Frames

section Managed

variable {blockBuf root : U64} {w w' : Pmm.World} {pages : List U64}

theorem isAligned_pageSize_of_dvd {page : U64} (h : 2 ^ 12 ∣ page.toNat) :
    isAligned page pageSize = true := by
  rw [isAligned, beq_iff_eq]
  apply BitVec.eq_of_toNat_eq
  rw [BitVec.toNat_umod, pageSize_toNat, Nat.mod_eq_zero_of_dvd h]
  rfl

/-- A page granted for a table. -/
structure GrantedPage (blockBuf : U64) (w w' : Pmm.World) (page : U64) : Prop where
  managed : Managed blockBuf w'
  aligned : isAligned page pageSize = true
  grants : w'.grants = pageSpan page :: w.grants
  fresh : ∀ g ∈ w.grants, Disjoint (pageSpan page) g
  zero : ∀ x : U64, x.toNat ∈ pageSpan page → w'.st.mem x = 0
  frame : ∀ x : U64, x.toNat ∉ pageSpan page → ¬ Within x blockBuf bufBytes →
    w'.st.mem x = w.st.mem x

theorem alloc_cases (h : Managed blockBuf w) {err : Error} {ret : Option U64}
    (hcall : w.alloc pageSize (some 0) = .ok (err, ret, w')) :
    (err.isErr = true ∧ w' = w) ∨
      ∃ page, err = .ofCode .success ∧ ret = some page ∧ GrantedPage blockBuf w w' page := by
  have hsize : (alignUp pageSize pageSize).toNat = pageBytes := by decide
  rcases h.alloc_cases hcall with ⟨herr, -, rfl⟩ | ⟨page, rfl, rfl, htaken⟩
  · exact .inl ⟨herr, rfl⟩
  rw [hsize] at htaken
  exact .inr ⟨page, rfl, rfl, htaken.managed, isAligned_pageSize_of_dvd htaken.dvd, htaken.grants,
    htaken.fresh, htaken.zero, htaken.frame⟩

end Managed

section Tree

variable {blockBuf root : U64} {w w₁ : Pmm.World} {pages : List U64}

theorem Grows.refl (blockBuf root : U64) (w : Pmm.World) (pages : List U64) :
    Grows blockBuf root w pages w pages :=
  ⟨⟨[], rfl, rfl⟩, fun _ _ _ => rfl⟩

theorem Grows.trans {w₂ : Pmm.World} {pages₁ pages₂ : List U64}
    (h : Grows blockBuf root w pages w₁ pages₁) (h' : Grows blockBuf root w₁ pages₁ w₂ pages₂) :
    Grows blockBuf root w pages w₂ pages₂ := by
  obtain ⟨new, rfl, hgrants⟩ := h.grants
  obtain ⟨new', rfl, hgrants'⟩ := h'.grants
  refine ⟨⟨new' ++ new, (List.append_assoc ..).symm, ?_⟩, fun x hx hbuf => ?_⟩
  · rw [hgrants', hgrants, List.map_append, List.append_assoc]
  · rw [h'.frame x hx hbuf]
    refine h.frame x (fun page hpage => hx page ?_) hbuf
    rcases List.mem_cons.mp hpage with rfl | hpage
    · exact List.mem_cons_self
    · exact List.mem_cons_of_mem _ (List.mem_append_right _ hpage)

/-- Writing an entry stays inside its table's page. -/
theorem write_frame {page : U64} (halign : isAligned page pageSize = true) (i : Index) (v : U64)
    {x : U64} (hx : x.toNat ∉ pageSpan page) :
    (write w (slot (frameOf page) i) v).st.mem x = w.st.mem x := by
  have hpage := page_toNat halign
  have hslot := slot_toNat (frameOf page) i
  have hi := i.isLt
  have hp := (frameOf page).isLt
  apply store64_apply_of_not_within
  rw [within_iff (by omega)]
  rw [pageSpan, mem_def, pageBytes] at hx
  dsimp only at hx
  omega

theorem TableTree.fresh (h : TableTree w root pages) (hmanaged : Managed blockBuf w) :
    Fresh root pages := by
  obtain ⟨used, lost, hinv⟩ := hmanaged.inv
  refine ⟨fun page hpage => h.aligned page (List.mem_cons_of_mem _ hpage), fun page hpage => ?_,
    h.nodup⟩
  have hhigh := hinv.grant_high (h.granted page (List.mem_cons_of_mem _ hpage))
  change page.toNat + 4096 ≤ 2 ^ 56 at hhigh
  rw [BitVec.lt_def]
  change page.toNat < 2 ^ 56
  omega

/-- Writing an entry of a table of the tree. -/
theorem TableTree.write_grows (h : TableTree w root pages) (hmanaged : Managed blockBuf w)
    {p : Frame} (hp : p ∈ frames (frameOf root) ⟨w.st.mem, 0, pages⟩) (i : Index) (v : U64) :
    Managed blockBuf (write w (slot p i) v) ∧
      Grows blockBuf root w pages (write w (slot p i) v) pages := by
  obtain ⟨page, hpage, rfl⟩ := exists_page_of_frame hp
  have halign := h.aligned page hpage
  exact ⟨hmanaged.store (h.granted page hpage) fun x hx => write_frame halign i v hx,
    ⟨[], rfl, rfl⟩, fun x hx _ => write_frame halign i v (hx page hpage)⟩

theorem first_mem (page : U64) : page.toNat ∈ pageSpan page :=
  ⟨le_rfl, Nat.lt_add_of_pos_right (show 0 < pageBytes by decide)⟩

/-- A page granted is none of the tree's, and leaves these as they are. -/
theorem GrantedPage.keeps {page : U64} (hpage : GrantedPage blockBuf w w₁ page)
    (h : TableTree w root pages) (hmanaged : Managed blockBuf w) :
    page ∉ root :: pages ∧
      ∀ page' ∈ root :: pages, ∀ x : U64, x.toNat ∈ pageSpan page' → w₁.st.mem x = w.st.mem x := by
  constructor
  · intro hmem
    exact hpage.fresh _ (h.granted page hmem) page.toNat (first_mem page) (first_mem page)
  · intro page' hpage' x hx
    have hgranted := h.granted page' hpage'
    exact hpage.frame x (fun hin => hpage.fresh _ hgranted x.toNat hin hx)
      (hmanaged.apart_buf hgranted hx)

/-- Memory that is zero on a page is not changed by zeroing it. -/
theorem fill_of_zero {m : Mem} {page : U64} (hhigh : page.toNat + 4096 ≤ 2 ^ 64)
    (hzero : ∀ x : U64, x.toNat ∈ pageSpan page → m x = 0) :
    Memory.fill m page 0 pageSize.toNat = m := by
  rw [Memory.fill_eq_setRange _ _ _ (by decide)]
  funext x
  by_cases hin : Within x page pageSize.toNat
  · rw [setRange_apply_of_within hin]
    exact (hzero x ((within_iff hhigh).mp hin)).symm
  · rw [setRange_apply_of_not_within hin]

variable {p : Frame} {path : List Index} {i : Index}

/-- A new table below an invalid entry. -/
theorem TableTree.install {page : U64} (h : TableTree w root pages) (hmanaged : Managed blockBuf w)
    (hp : reach isValid entryFrame (tables w.st.mem) (frameOf root) path = some p)
    (hlen : path.length < 2) (hold : isValid (tables w.st.mem p i) = false)
    (hpage : GrantedPage blockBuf w w₁ page) :
    let w₂ := write w₁ (slot p i) (tableEntry page tefValid)
    Managed blockBuf w₂ ∧ TableTree w₂ root (page :: pages) ∧
      Grows blockBuf root w pages w₂ (page :: pages) ∧
      pageMap w₂.st.mem root = pageMap w.st.mem root ∧
      reach isValid entryFrame (tables w₂.st.mem) (frameOf root) (path ++ [i]) =
        some (entryFrame (tables w₂.st.mem p i)) := by
  intro w₂
  obtain ⟨hnew, hkeeps⟩ := hpage.keeps h hmanaged
  have hsame := frames_congr h.aligned hkeeps
  obtain ⟨hinv₁, hmap₁⟩ := inv_congr h.aligned hkeeps h.inv
  have hp₁ : reach isValid entryFrame (tables w₁.st.mem) (frameOf root) path = some p :=
    (h.inv.separated.reach_of_fresh hsame (by omega)).trans hp
  have hframe := h.inv.separated.mem path p (by omega) hp
  have hold₁ : isValid (tables w₁.st.mem p i) = false := by rw [hsame p hframe, hold]
  have hroot := frameAddr_frameOf (h.aligned root List.mem_cons_self)
  have haligned : ∀ page' ∈ root :: page :: pages, isAligned page' pageSize = true := by
    intro page' hpage'
    rcases List.mem_cons.mp hpage' with rfl | hpage'
    · exact h.aligned _ List.mem_cons_self
    · rcases List.mem_cons.mp hpage' with rfl | hpage'
      · exact hpage.aligned
      · exact h.aligned _ (List.mem_cons_of_mem _ hpage')
  have hgranted : ∀ page' ∈ root :: page :: pages, pageSpan page' ∈ w₁.grants := by
    intro page' hpage'
    rw [hpage.grants]
    rcases List.mem_cons.mp hpage' with rfl | hpage'
    · exact List.mem_cons_of_mem _ (h.granted _ List.mem_cons_self)
    · rcases List.mem_cons.mp hpage' with rfl | hpage'
      · exact List.mem_cons_self
      · exact List.mem_cons_of_mem _ (h.granted _ (List.mem_cons_of_mem _ hpage'))
  have hnodup : (root :: page :: pages).Nodup := by
    have hold := List.nodup_cons.mp h.nodup
    rw [List.mem_cons, not_or] at hnew
    refine List.nodup_cons.mpr ⟨?_, List.nodup_cons.mpr ⟨hnew.2, hold.2⟩⟩
    rw [List.mem_cons, not_or]
    exact ⟨Ne.symm hnew.1, hold.1⟩
  have htree₁ : TableTree w₁ root pages :=
    ⟨h.aligned, fun page' hpage' => by
      rw [hpage.grants]
      exact List.mem_cons_of_mem _ (h.granted page' hpage'), h.nodup, hinv₁⟩
  -- the page is zero already, so installing it is writing the entry
  have hfresh : Fresh (frameAddr (frameOf root)) (page :: pages) := by
    rw [hroot]
    obtain ⟨used, lost, hpmm⟩ := hpage.managed.inv
    have hhigh : page.toNat + 4096 ≤ 2 ^ 56 := hpmm.grant_high (hgranted page (by simp))
    refine ⟨fun page' hpage' => haligned page' (List.mem_cons_of_mem _ hpage'), ?_, hnodup⟩
    intro page' hpage'
    rcases List.mem_cons.mp hpage' with rfl | hpage'
    · rw [BitVec.lt_def]
      change page'.toNat < 2 ^ 56
      omega
    · exact (h.fresh hmanaged).below page' hpage'
  obtain ⟨hinv₂, hmap₂, hreach₂⟩ := hinv₁.install hp₁ hlen hold₁ hfresh
  have hmem : ((⟨w₁.st.mem, 0, pages⟩ : Sv39.State).install page (slot p i)).mem = w₂.st.mem := by
    have hlt := hfresh.below page List.mem_cons_self
    rw [BitVec.lt_def] at hlt
    change page.toNat < 2 ^ 56 at hlt
    change store64 (Memory.fill w₁.st.mem page 0 pageSize.toNat) _ _ = _
    rw [fill_of_zero (by omega) hpage.zero]
    rfl
  rw [hmem] at hmap₂ hreach₂
  obtain ⟨hmanaged₂, hgrows₂⟩ := htree₁.write_grows hpage.managed hframe i (tableEntry page tefValid)
  have hinv₂' : Sv39.Inv (frameOf root) ⟨w₂.st.mem, 0, page :: pages⟩ := by
    have hsep := hinv₂.separated
    have hpointers := hinv₂.pointers
    rw [hmem] at hsep hpointers
    exact ⟨hsep, hpointers⟩
  refine ⟨hmanaged₂, ⟨haligned, hgranted, hnodup, hinv₂'⟩, ⟨⟨[page], rfl, hpage.grants⟩, ?_⟩,
    ?_, hreach₂⟩
  · intro x hx hbuf
    rw [hgrows₂.frame x (fun page' hpage' => hx page' ?_) hbuf,
      hpage.frame x (hx page (by simp)) hbuf]
    rcases List.mem_cons.mp hpage' with rfl | hpage'
    · exact List.mem_cons_self
    · exact List.mem_cons_of_mem _ (List.mem_cons_of_mem _ hpage')
  · rw [← hmap₁]
    funext key
    have hkey := hmap₂ key
    rwa [hroot] at hkey

end Tree

/-- Where a call for an address space has got to. -/
structure Progress (blockBuf root : U64) (w : Pmm.World) (pages : List U64) (w' : Pmm.World)
    (pages' : List U64) : Prop where
  managed : Managed blockBuf w'
  tree : TableTree w' root pages'
  grows : Grows blockBuf root w pages w' pages'

/-- What became of a call. -/
inductive Outcome (w w' : Pmm.World) (root : U64) (key : Key) (entry : U64) : Error → Prop where
  | exists' (hdefined : pageMap w.st.mem root key ≠ none)
      (hmap : pageMap w'.st.mem root = pageMap w.st.mem root) :
      Outcome w w' root key entry (.ofCode .pagingMapExists)
  | inserted (hundefined : pageMap w.st.mem root key = none)
      (hmap : pageMap w'.st.mem root = Function.update (pageMap w.st.mem root) key (some entry)) :
      Outcome w w' root key entry (.ofCode .success)
  | failed {err : Error} (hundefined : pageMap w.st.mem root key = none) (herr : err.isErr = true)
      (hmap : pageMap w'.st.mem root = pageMap w.st.mem root) :
      Outcome w w' root key entry (err.push .pagingAllocFailed)

section Call

variable {blockBuf root : U64} {w w' : Pmm.World} {pages : List U64} {p : Frame}
  {path : List Index} {i : Index} {va pa flags : U64} {err : Error}

theorem Progress.trans {w₁ : Pmm.World} {pages₁ pages' : List U64}
    (h : Grows blockBuf root w pages w₁ pages₁) (h' : Progress blockBuf root w₁ pages₁ w' pages') :
    Progress blockBuf root w pages w' pages' :=
  ⟨h'.managed, h'.tree, h.trans h'.grows⟩

/-- The block fails with the allocation, or goes on with an entry that leads to a table. -/
theorem ensureTable_spec (hmanaged : Managed blockBuf w) (h : TableTree w root pages)
    (hp : reach isValid entryFrame (tables w.st.mem) (frameOf root) path = some p)
    (hlen : path.length < 2) {rest : Error → Pmm.World → Exec (Error × Pmm.World)}
    (hcall : ensureTable w (.ofCode .success) (slot p i) rest = .ok (err, w')) :
    (isValid (tables w.st.mem p i) = false ∧ w' = w ∧
        ∃ err₀ : Error, err₀.isErr = true ∧ err = err₀.push .pagingAllocFailed) ∨
      ∃ w₁ pages₁, rest (.ofCode .success) w₁ = .ok (err, w') ∧
        Progress blockBuf root w pages w₁ pages₁ ∧
        pageMap w₁.st.mem root = pageMap w.st.mem root ∧
        reach isValid entryFrame (tables w₁.st.mem) (frameOf root) (path ++ [i]) =
          some (entryFrame (tables w₁.st.mem p i)) := by
  rw [ensureTable] at hcall
  split at hcall
  · rename_i hvalid
    refine .inr ⟨w, pages, hcall, ⟨hmanaged, h, .refl blockBuf root w pages⟩, rfl, ?_⟩
    rw [reach_concat, find_of_reach hp, if_pos (show isValid (tables w.st.mem p i) = true from hvalid)]
    rfl
  · rename_i hold
    rw [Bool.not_eq_true] at hold
    obtain ⟨⟨err₀, ret, w₁⟩, halloc, hrest⟩ := bind_eq_ok.mp hcall
    dsimp only at hrest
    rcases alloc_cases hmanaged halloc with ⟨herr, rfl⟩ | ⟨page, rfl, rfl, hpage⟩
    · rw [if_pos herr] at hrest
      obtain ⟨rfl, rfl⟩ := Prod.mk.inj (pure_eq_ok.mp hrest)
      exact .inl ⟨hold, rfl, err₀, herr, rfl⟩
    · rw [if_neg (by decide)] at hrest
      obtain ⟨hmanaged', htree, hgrows, hmap, hreach⟩ := h.install hmanaged hp hlen hold hpage
      exact .inr ⟨_, _, hrest, ⟨hmanaged', htree, hgrows⟩, hmap, hreach⟩

/-- A call keeps to its own pages and has one of the three outcomes. -/
theorem mapSmallPage_spec (hmanaged : Managed blockBuf w) (h : TableTree w root pages)
    (hargs : CallOk va pa flags) (hcall : mapSmallPage w root va pa flags = .ok (err, w')) :
    ∃ pages', Progress blockBuf root w pages w' pages' ∧
      Outcome w w' root (keyOf va) (tableEntry pa (flags ||| tefValid)) err := by
  have hroot := frameAddr_frameOf (h.aligned root List.mem_cons_self)
  have hl2 : entryAddr root (vpn va 2) = slot (frameOf root) (keyIndex (keyOf va) 2) := by
    rw [← entryAddr_vpn _ _ (by decide), hroot]
  rw [mapSmallPage, hargs.passesTest.1, hargs.passesTest.2] at hcall
  simp only [Bool.not_true, Bool.or_self, Bool.false_eq_true, if_false, hl2] at hcall
  have hempty : reach isValid entryFrame (tables w.st.mem) (frameOf root) [] =
      some (frameOf root) := rfl
  rcases ensureTable_spec hmanaged h hempty (by decide) hcall with
    ⟨hinvalid, rfl, err₀, herr₀, rfl⟩ | ⟨w₁, pages₁, hcall, hprogress₁, hmap₁, hreach₁⟩
  · refine ⟨pages, ⟨hmanaged, h, .refl _ _ _ _⟩, .failed ?_ herr₀ rfl⟩
    rw [← hroot]
    apply pageMap_eq_none_of_reach
    rw [keyPath, reach, hinvalid]
    rfl
  rw [List.nil_append] at hreach₁
  rw [entryAddr_getAddress (by decide)] at hcall
  rcases ensureTable_spec hprogress₁.managed hprogress₁.tree hreach₁ (Nat.lt_succ_self 1) hcall with
    ⟨hinvalid, rfl, err₀, herr₀, rfl⟩ | ⟨w₂, pages₂, hcall, hprogress₂, hmap₂, hreach₂⟩
  · refine ⟨pages₁, hprogress₁, .failed ?_ herr₀ hmap₁⟩
    rw [← hmap₁, ← hroot]
    apply pageMap_eq_none_of_reach
    rw [show keyPath (keyOf va) = [keyIndex (keyOf va) 2] ++ [keyIndex (keyOf va) 1] from rfl,
      reach_concat, find_of_reach hreach₁, if_neg (by rw [hinvalid]; decide)]
    rfl
  have hprogress := Progress.trans hprogress₁.grows hprogress₂
  have hmap := hmap₂.trans hmap₁
  rw [entryAddr_getAddress (by decide)] at hcall
  have hpath : reach isValid entryFrame (tables w₂.st.mem) (frameOf root) (keyPath (keyOf va)) =
      some _ := hreach₂
  set q := entryFrame (tables w₂.st.mem
    (entryFrame (tables w₁.st.mem (frameOf root) (keyIndex (keyOf va) 2))) (keyIndex (keyOf va) 1))
  have hfound : pageMap w₂.st.mem root (keyOf va) =
      if isValid (load64 w₂.st.mem (slot q (keyIndex (keyOf va) 0))) then
        some (load64 w₂.st.mem (slot q (keyIndex (keyOf va) 0))) else none := by
    rw [← hroot, pageMap_eq_find]
    exact find_of_reach hpath _
  split at hcall
  · rename_i hvalid
    obtain ⟨rfl, rfl⟩ := ok_pair_inj hcall
    refine ⟨pages₂, hprogress, .exists' ?_ hmap⟩
    rw [← hmap, hfound, if_pos hvalid]
    exact Option.some_ne_none _
  · rename_i hinvalid
    obtain ⟨rfl, rfl⟩ := ok_pair_inj hcall
    have hentry := frameAddr_frameOf hargs.pa_aligned ▸
      isValid_tableEntry (p := frameOf pa) (flags_lt hargs.flags_ok)
    obtain ⟨hinv₃, hmap₃⟩ := hprogress₂.tree.inv.setLeaf hpath hentry
    have hframe := hprogress₂.tree.inv.separated.mem _ q (keyPath_lt _) hpath
    obtain ⟨hmanaged₃, hgrows₃⟩ := hprogress₂.tree.write_grows hprogress₂.managed hframe
      (keyIndex (keyOf va) 0) (tableEntry pa (flags ||| tefValid))
    refine ⟨pages₂, ⟨hmanaged₃, ⟨hprogress.tree.aligned, hprogress.tree.granted,
      hprogress.tree.nodup, hinv₃⟩, hprogress.grows.trans hgrows₃⟩, .inserted ?_ ?_⟩
    · rw [← hmap, hfound, if_neg hinvalid]
    · rw [hroot] at hmap₃
      rw [← hmap]
      exact hmap₃

end Call

section Returns

variable {blockBuf root : U64} {w w₁ : Pmm.World} {pages : List U64} {p : Frame}
  {path : List Index} {i : Index} {va pa flags : U64}

/-- An entry of a table lies outside `BLOCK_BUF`. -/
theorem serving_write_entry (h : Serving blockBuf w) (hmanaged : Managed blockBuf w) {page : U64}
    (halign : isAligned page pageSize = true) (hgranted : pageSpan page ∈ w.grants) (i : Index)
    (v : U64) : Serving blockBuf (write w (slot (frameOf page) i) v) := by
  refine h.withMem hmanaged hgranted fun x hx => write_frame halign i v hx

/-- The block returns: with the error when nothing is free, else it goes on after taking a
page at most. -/
theorem exists_ensureTable (hserving : Serving blockBuf w) (hmanaged : Managed blockBuf w)
    (h : TableTree w root pages)
    (hp : reach isValid entryFrame (tables w.st.mem) (frameOf root) path = some p)
    (hlen : path.length < 2) (i : Index) :
    (w.st.freeBytes.toNat = 0 ∧ ∃ err, ∀ rest,
        ensureTable w (.ofCode .success) (slot p i) rest = .ok (err, w)) ∨
      ∃ w₁ pages₁, (∀ rest, ensureTable w (.ofCode .success) (slot p i) rest =
          rest (.ofCode .success) w₁) ∧
        Serving blockBuf w₁ ∧ Progress blockBuf root w pages w₁ pages₁ ∧
        pageMap w₁.st.mem root = pageMap w.st.mem root ∧
        w.st.freeBytes.toNat ≤ w₁.st.freeBytes.toNat + pageBytes ∧
        reach isValid entryFrame (tables w₁.st.mem) (frameOf root) (path ++ [i]) =
          some (entryFrame (tables w₁.st.mem p i)) := by
  obtain ⟨page, hpage, hframe⟩ := exists_page_of_frame (h.inv.separated.mem path p (by omega) hp)
  by_cases hvalid : isValid (load64 w.st.mem (slot p i)) = true
  · refine .inr ⟨w, pages, fun rest => by rw [ensureTable, if_pos hvalid], hserving,
      ⟨hmanaged, h, .refl blockBuf root w pages⟩, rfl, Nat.le_add_right _ _, ?_⟩
    rw [reach_concat, find_of_reach hp, if_pos (show isValid (tables w.st.mem p i) = true from hvalid)]
    rfl
  obtain ⟨err, ret, w', halloc, hserving', hfree, hempty⟩ := hserving.exists_alloc
  rcases alloc_cases hmanaged halloc with ⟨herr, rfl⟩ | ⟨page', rfl, rfl, hgranted⟩
  · refine .inl ⟨hempty.mp herr, err.push .pagingAllocFailed, fun rest => ?_⟩
    rw [ensureTable, if_neg hvalid, halloc]
    exact if_pos herr
  · obtain ⟨hmanaged₁, htree, hgrows, hmap, hreach⟩ :=
      h.install hmanaged hp hlen (Bool.eq_false_of_not_eq_true hvalid) hgranted
    refine .inr ⟨_, page' :: pages, fun rest => ?_, ?_, ⟨hmanaged₁, htree, hgrows⟩, hmap, hfree,
      hreach⟩
    · rw [ensureTable, if_neg hvalid, halloc]
      rfl
    · rw [← hframe]
      refine serving_write_entry hserving' hgranted.managed (h.aligned page hpage) ?_ i _
      rw [hgranted.grants]
      exact List.mem_cons_of_mem _ (h.granted page hpage)

/-- A call returns, and with two pages free it does not fail for want of memory. -/
theorem exists_mapSmallPage (hserving : Serving blockBuf w) (hmanaged : Managed blockBuf w)
    (h : TableTree w root pages) (hargs : CallOk va pa flags) :
    ∃ err w', mapSmallPage w root va pa flags = .ok (err, w') ∧ Serving blockBuf w' ∧
      (2 * pageBytes ≤ w.st.freeBytes.toNat →
        err = .ofCode .pagingMapExists ∨ err = .ofCode .success) := by
  have hl2 : entryAddr root (vpn va 2) = slot (frameOf root) (keyIndex (keyOf va) 2) := by
    rw [← entryAddr_vpn _ _ (by decide), frameAddr_frameOf (h.aligned root List.mem_cons_self)]
  rw [mapSmallPage, hargs.passesTest.1, hargs.passesTest.2]
  simp only [Bool.not_true, Bool.or_self, Bool.false_eq_true, if_false, hl2]
  have hempty : reach isValid entryFrame (tables w.st.mem) (frameOf root) [] =
      some (frameOf root) := rfl
  rcases exists_ensureTable hserving hmanaged h hempty (by decide) (keyIndex (keyOf va) 2) with
    ⟨hnone, err, hcall⟩ | ⟨w₁, pages₁, hcall, hserving₁, hprogress₁, -, hfree₁, hreach₁⟩
  · refine ⟨err, w, hcall _, hserving, fun hroom => ?_⟩
    rw [hnone] at hroom
    exact absurd hroom (by decide)
  rw [List.nil_append] at hreach₁
  rw [hcall, entryAddr_getAddress (by decide)]
  rcases exists_ensureTable hserving₁ hprogress₁.managed hprogress₁.tree hreach₁
    (Nat.lt_succ_self 1) (keyIndex (keyOf va) 1) with
    ⟨hnone, err, hcall₁⟩ | ⟨w₂, pages₂, hcall₁, hserving₂, hprogress₂, -, hfree₂, hreach₂⟩
  · refine ⟨err, w₁, hcall₁ _, hserving₁, fun hroom => ?_⟩
    rw [hnone] at hfree₁
    have hone := Nat.le_trans hroom hfree₁
    exact absurd hone (by decide)
  rw [hcall₁, entryAddr_getAddress (by decide)]
  split
  · exact ⟨_, w₂, rfl, hserving₂, fun _ => .inl rfl⟩
  · have hframe := hprogress₂.tree.inv.separated.mem _ _ (keyPath_lt (keyOf va)) hreach₂
    obtain ⟨page, hpage, hpage_eq⟩ := exists_page_of_frame hframe
    rw [← hpage_eq]
    exact ⟨_, _, rfl, serving_write_entry hserving₂ hprogress₂.managed (hprogress₂.tree.aligned page hpage)
      (hprogress₂.tree.granted page hpage) _ _, fun _ => .inr rfl⟩

end Returns

end Octiron.Riscv.AddressSpaces
