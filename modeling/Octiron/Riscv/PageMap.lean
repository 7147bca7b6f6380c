import Octiron.Riscv.PageTables
import Mathlib.Logic.Relation
import Mathlib.Logic.Function.Basic

/-! The tables as a finite map from pages of virtual addresses to entries, and
`map_small_page` as an insertion into it.  The tables are kept separate: every
path of indices shorter than three leads to a table of its own. -/
namespace Octiron.Riscv.Sv39

open Lib Lib.Word Lib.ByteMemory Lib.RadixTree

/-- The level-0 entry found by the three indices of a key, if the three entries on
the way are valid. -/
def pageMap (m : Mem) (root : U64) (key : Key) : Option U64 :=
  let l2 := load64 m (entryAddr root ((keyIndex key 2).setWidth 64))
  if isValid l2 then
    let l1 := load64 m (entryAddr (getAddress l2) ((keyIndex key 1).setWidth 64))
    if isValid l1 then
      let l0 := load64 m (entryAddr (getAddress l1) ((keyIndex key 0).setWidth 64))
      if isValid l0 then some l0 else none
    else none
  else none

/-- The indices on the way to the level-0 table of a key. -/
def keyPath (key : Key) : List Index := [keyIndex key 2, keyIndex key 1]

theorem keyPath_lt (key : Key) : (keyPath key).length < 3 := Nat.lt_succ_self 2

theorem pageMap_eq_find (m : Mem) (root : Frame) (key : Key) :
    pageMap m (frameAddr root) key =
      find isValid entryFrame (tables m) root (keyPath key) (keyIndex key 0) := by
  have htables : ∀ p i, load64 m (entryAddr (frameAddr p) (i.setWidth 64)) = tables m p i :=
    fun _ _ => rfl
  simp only [pageMap, getAddress_eq, htables, find, keyPath, reach]
  cases h₂ : isValid (tables m root (keyIndex key 2))
  · rfl
  · cases h₁ : isValid (tables m (entryFrame (tables m root (keyIndex key 2))) (keyIndex key 1))
    · rfl
    · rfl

/-- What is promised of the pages granted so far: page-aligned pages below `2 ^ 56`,
none of them granted twice and none of them the root. -/
structure Fresh (root : U64) (pages : List U64) : Prop where
  aligned : ∀ page ∈ pages, isAligned page pageSize = true
  below : ∀ page ∈ pages, page < 0x100000000000000
  nodup : (root :: pages).Nodup

theorem Fresh.of_suffix {root : U64} {pages pages' : List U64} (h : Fresh root pages')
    (hsuffix : pages <:+ pages') : Fresh root pages :=
  ⟨fun page hpage => h.aligned page (hsuffix.subset hpage),
    fun page hpage => h.below page (hsuffix.subset hpage),
    h.nodup.sublist (hsuffix.sublist.cons_cons root)⟩

/-- The arguments of a call: page-aligned addresses and bits of `TableEntryFlags`. -/
structure CallOk (va pa flags : U64) : Prop where
  va_aligned : isAligned va pageSize = true
  pa_aligned : isAligned pa pageSize = true
  flags_ok : flags &&& tefMask = flags

/-- One call, with fresh answers from `pmm::alloc` as far as it asks for any. -/
def Step (answers : Pmm.Answers) (root : U64) (st st' : State) : Prop :=
  ∃ va pa flags, CallOk va pa flags ∧ st' = (mapSmallPage answers st root va pa flags).2 ∧
    Fresh root st'.pages

/-- Any calls, from a page-aligned root of 512 zero entries on. -/
def Run (answers : Pmm.Answers) (root : U64) (st : State) : Prop :=
  isAligned root pageSize = true ∧ ∃ m, (∀ i : Index, tables m (frameOf root) i = 0) ∧
    Relation.ReflTransGen (Step answers root) ⟨m, 0, []⟩ st

/-- The tables in use: what was granted and the root. -/
def frames (root : Frame) (st : State) : List Frame := st.pages.map frameOf ++ [root]

structure Inv (root : Frame) (st : State) : Prop where
  separated : Separated isValid entryFrame (tables st.mem) root 3 (frames root st)
  /-- Entries above level 0 only point. -/
  pointers : ∀ path p i, path.length < 2 →
    reach isValid entryFrame (tables st.mem) root path = some p →
    isValid (tables st.mem p i) = true → isLeaf (tables st.mem p i) = false

theorem isValid_zero : isValid 0 = false := by decide

theorem tefValid_lt : tefValid.toNat < 1024 := by decide

theorem isValid_tableEntry {p : Frame} {flags : U64} (hflags : (flags ||| tefValid).toNat < 1024) :
    isValid (tableEntry (frameAddr p) (flags ||| tefValid)) = true := by
  have hbit : (flags ||| tefValid) &&& tefValid = tefValid := by
    rw [BitVec.and_comm, BitVec.or_comm]
    apply BitVec.eq_of_getLsbD_eq
    intro i hi
    rw [BitVec.getLsbD_and, BitVec.getLsbD_or]
    cases tefValid.getLsbD i <;> simp
  rw [isValid, tableEntry_and_flag hflags (by decide), hbit]
  decide

theorem flags_lt {flags : U64} (h : flags &&& tefMask = flags) :
    (flags ||| tefValid).toNat < 1024 := by
  have hflags : flags.toNat < 2 ^ 8 := by
    rw [← h, BitVec.toNat_and]
    exact Nat.lt_of_le_of_lt Nat.and_le_right (by decide)
  rw [BitVec.toNat_or]
  exact (Nat.or_lt_two_pow hflags (by decide)).trans (by decide)

/-- Before the first call there is the root and nothing below it. -/
theorem inv_start {m : Mem} {root : Frame} (hzero : ∀ i : Index, tables m root i = 0) :
    Inv root ⟨m, 0, []⟩ := by
  have hreach : ∀ i rest, reach isValid entryFrame (tables m) root (i :: rest) = none := by
    intro i rest
    rw [reach, hzero, isValid_zero]
    rfl
  refine ⟨⟨?_, ?_⟩, ?_⟩
  · intro path path' p _ _ hp hp'
    cases path with
    | cons i rest => cases (hreach i rest).symm.trans hp
    | nil =>
      cases path' with
      | cons i rest => cases (hreach i rest).symm.trans hp'
      | nil => rfl
  · intro path p _ hp
    cases path with
    | cons i rest => cases (hreach i rest).symm.trans hp
    | nil => exact List.mem_singleton.mpr (Option.some.inj hp).symm
  · intro path p i _ hp hvalid
    cases path with
    | cons i rest => cases (hreach i rest).symm.trans hp
    | nil =>
      obtain rfl := Option.some.inj hp
      rw [hzero, isValid_zero] at hvalid
      cases hvalid

theorem isLeaf_tableEntry {p : Frame} {flags : U64} (hflags : flags.toNat < 1024) :
    isLeaf (tableEntry (frameAddr p) flags) = isLeaf flags := by
  simp only [isLeaf, isReadable, isWritable, isExecutable]
  rw [@tableEntry_and_flag _ _ hflags tefRead (by decide),
    @tableEntry_and_flag _ _ hflags tefWrite (by decide),
    @tableEntry_and_flag _ _ hflags tefExecute (by decide)]

/-- A newly granted page is none of the tables in use. -/
theorem Fresh.not_mem_frames {root : Frame} {st : State} {page : U64}
    (h : Fresh (frameAddr root) (page :: st.pages)) : frameOf page ∉ frames root st := by
  have hpage := frameAddr_frameOf (h.aligned page List.mem_cons_self)
  have hnodup := h.nodup
  rw [List.nodup_cons, List.nodup_cons] at hnodup
  intro hmem
  rcases List.mem_append.mp hmem with hold | hroot
  · obtain ⟨page', hpage', heq⟩ := List.mem_map.mp hold
    have haligned := h.aligned page' (List.mem_cons_of_mem _ hpage')
    rw [← frameAddr_frameOf haligned, heq, hpage] at hpage'
    exact hnodup.2.1 hpage'
  · rw [List.mem_singleton] at hroot
    rw [← hroot, hpage] at hnodup
    exact hnodup.1 List.mem_cons_self

/-- The state after an invalid entry has been given a new table. -/
def State.install (st : State) (page entry : U64) : State :=
  { st.grant page with
    mem := store64 (st.grant page).mem entry (tableEntry page tefValid) }

section Install

variable {root p : Frame} {st : State} {path : List Index} {i : Index} {page : U64}

theorem tables_install (hpage : isAligned page pageSize = true) :
    tables (st.install page (slot p i)).mem =
      setEntry (clear (tables st.mem) (frameOf page) 0) p i
        (tableEntry (frameAddr (frameOf page)) tefValid) := by
  rw [frameAddr_frameOf hpage, ← tables_fill, frameAddr_frameOf hpage, ← tables_store64]
  rfl

variable (h : Inv root st)
  (hp : reach isValid entryFrame (tables st.mem) root path = some p) (hlen : path.length < 2)
  (hold : isValid (tables st.mem p i) = false) (hfresh : Fresh (frameAddr root) (page :: st.pages))
include h hp hlen hold hfresh

/-- Installing a table keeps the tables separate and the map as it is. -/
theorem Inv.install :
    Inv root (st.install page (slot p i)) ∧
      (∀ key, pageMap (st.install page (slot p i)).mem (frameAddr root) key =
        pageMap st.mem (frameAddr root) key) ∧
      reach isValid entryFrame (tables (st.install page (slot p i)).mem) root (path ++ [i]) =
        some (entryFrame (tables (st.install page (slot p i)).mem p i)) := by
  have hnew := hfresh.not_mem_frames
  have hmem := h.separated.mem path p (by omega) hp
  have htables := @tables_install p st i _
    (hfresh.aligned page List.mem_cons_self)
  set q := frameOf page
  set t := clear (tables st.mem) q 0 with ht
  set e := tableEntry (frameAddr q) tefValid
  have hvalid : isValid e = true := @isValid_tableEntry _ 0 (by decide)
  have hchild : entryFrame e = q := entryFrame_tableEntry tefValid_lt
  have hsame : ∀ r ∈ frames root st, ∀ j, t r j = tables st.mem r j :=
    fun r hr j => clear_of_ne (fun heq : r = q => hnew (heq ▸ hr)) j
  have hsep := h.separated.of_fresh hsame
  have hp' : reach isValid entryFrame t root path = some p := by
    rw [h.separated.reach_of_fresh hsame (by omega), hp]
  have hold' : isValid (t p i) = false := by rw [hsame p hmem, hold]
  have hempty : ∀ j, isValid (t (entryFrame e) j) = false := by
    intro j
    rw [hchild, ht, clear_self, isValid_zero]
  have hreach := fun (other : List Index) (hother : other.length ≤ 3) =>
    hsep.reach_install (i := i) (e := e) hp' (by omega) hold' hvalid (hchild ▸ hnew) hempty hother
  rw [htables]
  refine ⟨⟨?_, ?_⟩, ?_, ?_⟩
  · rw [htables]
    have hinstall := hsep.install hp' (by omega) hold' hvalid (hchild ▸ hnew) hempty
    rw [hchild] at hinstall
    exact hinstall
  · intro other r j hother hr hvalid'
    rw [htables] at hr hvalid' ⊢
    rw [hreach other (by omega)] at hr
    by_cases hopen : other = path ++ [i]
    · rw [if_pos hopen, hchild] at hr
      obtain rfl := Option.some.inj hr
      have hne : q ≠ p := fun heq => hnew (heq ▸ hmem)
      rw [setEntry_of_ne fun hboth => hne hboth.1, ht, clear_self, isValid_zero] at hvalid'
      exact nomatch hvalid'
    · rw [if_neg hopen, h.separated.reach_of_fresh hsame (by omega)] at hr
      by_cases hslot : r = p ∧ j = i
      · obtain ⟨rfl, rfl⟩ := hslot
        rw [setEntry_self]
        exact (isLeaf_tableEntry tefValid_lt).trans (by decide)
      · have hr' := h.separated.mem other r (by omega) hr
        rw [setEntry_of_ne hslot, hsame r hr'] at hvalid' ⊢
        exact h.pointers other r j hother hr hvalid'
  · intro key
    rw [pageMap_eq_find, pageMap_eq_find, htables,
      hsep.find_install hp' (by omega) hold' hvalid (hchild ▸ hnew) hempty
        (keyPath_lt key) hlen,
      h.separated.find_of_fresh hsame (keyPath_lt key)]
  · rw [hreach _ (by rw [List.length_append, List.length_singleton]; omega), if_pos rfl,
      setEntry_self]

end Install

section Leaf

variable {root p : Frame} {st : State} {path : List Index} {i : Index} {e : U64}

/-- Writing a level-0 entry keeps the tables and changes the map at one key. -/
theorem Inv.setLeaf (h : Inv root st) {key : Key}
    (hp : reach isValid entryFrame (tables st.mem) root (keyPath key) = some p)
    (hvalid : isValid e = true) :
    Inv root { st with mem := store64 st.mem (slot p (keyIndex key 0)) e } ∧
      pageMap (store64 st.mem (slot p (keyIndex key 0)) e) (frameAddr root) =
        Function.update (pageMap st.mem (frameAddr root)) key (some e) := by
  have hlen : (keyPath key).length + 1 = 3 := rfl
  refine ⟨⟨?_, ?_⟩, ?_⟩
  · rw [tables_store64]
    exact h.separated.setLeaf hp hlen
  · intro other r j hother hr hvalid'
    rw [tables_store64] at hr hvalid' ⊢
    rw [h.separated.reach_setEntry hp (keyPath_lt key) (by omega) (fun hextends => by
      have := hextends.length_le
      simp only [keyPath, List.length_append, List.length_cons, List.length_nil] at this
      omega)] at hr
    have hne : ¬ (r = p ∧ j = keyIndex key 0) := by
      rintro ⟨rfl, -⟩
      have := congrArg List.length (h.separated.injective other _ r (by omega) (keyPath_lt key) hr hp)
      rw [show (keyPath key).length = 2 from rfl] at this
      omega
    rw [setEntry_of_ne hne] at hvalid' ⊢
    exact h.pointers other r j hother hr hvalid'
  · funext key'
    rw [pageMap_eq_find, tables_store64,
      h.separated.find_setLeaf hp hlen hvalid (keyPath_lt key')]
    by_cases hkey : key' = key
    · subst hkey
      rw [if_pos ⟨rfl, rfl⟩, Function.update_self]
    · rw [Function.update_of_ne hkey, pageMap_eq_find, if_neg]
      rintro ⟨hpath, hindex⟩
      apply hkey
      apply key_ext
      intro level hlevel
      simp only [keyPath, List.cons.injEq, and_true] at hpath
      interval_cases level
      · exact hindex
      · exact hpath.2
      · exact hpath.1

end Leaf

end Octiron.Riscv.Sv39
