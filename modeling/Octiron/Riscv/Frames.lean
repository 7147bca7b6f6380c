import Octiron.Riscv.Superpages
import Octiron.Riscv.Alignment

/-! Which pages a call of `map_small_page` writes to.  The descent tests the valid
bit of an entry only, so below a gigapage or a megapage it takes the mapped memory
for a table. -/
namespace Octiron.Riscv.Sv39

open Lib Lib.Word Lib.ByteMemory Lib.RadixTree Pmm

/-- A valid entry that is no leaf. -/
def isPointer (entry : U64) : Bool := isValid entry && !isLeaf entry

/-- The page is a table of the tree: pointers lead to it from the root. -/
def TablePage (m : Mem) (root p : Frame) : Prop :=
  ∃ path : List Index, path.length ≤ 2 ∧ reach isPointer entryFrame (tables m) root path = some p

/-- The walk for `va` from a table at a level meets a valid leaf above level 0. -/
def meetsLeaf (m : Mem) (va table : U64) : Nat → Bool
  | 0 => false
  | level + 1 =>
    let pte := load64 m (entryAddr table (vpn va (level + 1)))
    isValid pte && (isLeaf pte || meetsLeaf m va (getAddress pte) level)

section Claim

variable (answers : Answers) (st : State) (root va pa flags : U64)

/-- The call writes to tables of the tree and to the pages it was granted. -/
def WritesOwnTables : Prop :=
  ∃ new, (mapSmallPage answers st root va pa flags).2.pages = new ++ st.pages ∧
    ChangesOnly (fun x => (∃ p, TablePage st.mem (frameOf root) p ∧ Within x (frameAddr p) 4096) ∨
      ∃ page ∈ new, Within x page 4096) st.mem (mapSmallPage answers st root va pa flags).2.mem

/-- A call that meets a mapped superpage says so and leaves memory as it is. -/
def RefusesSuperpage : Prop :=
  meetsLeaf st.mem va root 2 = true →
    (mapSmallPage answers st root va pa flags).1 = .ofCode .pagingMapExists ∧
      (mapSmallPage answers st root va pa flags).2.mem = st.mem

end Claim

section Confined

/-- What lies between two states of a call changed the pages of some tables and of
the pages granted in between, and nothing else. -/
def Confined (own : Frame → Prop) (st st' : State) : Prop :=
  ∃ new, st'.pages = new ++ st.pages ∧
    ChangesOnly (fun x => ∃ p, (own p ∨ frameAddr p ∈ new) ∧ Within x (frameAddr p) 4096)
      st.mem st'.mem

variable {own : Frame → Prop} {st st' : State} {p : Frame} {i : Index} {page : U64}

theorem confined_of_same (hmem : st'.mem = st.mem) (hpages : st'.pages = st.pages) :
    Confined own st st' :=
  ⟨[], hpages, hmem ▸ .refl _ _⟩

theorem within_frame_of_slot {x : U64} (h : Within x (slot p i) 8) :
    Within x (frameAddr p) 4096 := by
  have hp := p.isLt
  have hi := i.isLt
  have hslot := slot_toNat p i
  have hframe := frameAddr_toNat p
  rw [within_iff (by omega)] at h ⊢
  omega

theorem changesOnly_slot {m : Mem} (hp : own p) (v : U64) :
    ChangesOnly (fun x => ∃ q, own q ∧ Within x (frameAddr q) 4096) m
      (store64 m (slot p i) v) :=
  (changesOnly_store64 _ _ _).mono fun _ hx => ⟨p, hp, within_frame_of_slot hx⟩

theorem confined_store (hp : own p) (v : U64) :
    Confined own st { st with mem := store64 st.mem (slot p i) v } :=
  ⟨[], rfl, changesOnly_slot (.inl hp) v⟩

/-- A new table is among the pages granted, so what is written to it later is too. -/
theorem Confined.after_install (hp : own p) (hpage : isAligned page pageSize = true)
    (h : Confined (fun q => own q ∨ q = frameOf page) (st.install page (slot p i)) st') :
    Confined own st st' := by
  obtain ⟨new, hpages, hchanges⟩ := h
  have hframe := frameAddr_frameOf hpage
  refine ⟨new ++ [page], by rw [hpages, List.append_assoc]; rfl, ?_⟩
  have hfill : ChangesOnly (fun x => ∃ q, (own q ∨ frameAddr q ∈ new ++ [page]) ∧
      Within x (frameAddr q) 4096) st.mem (st.grant page).mem := by
    rw [State.grant, Memory.fill_eq_setRange _ _ _ (by decide)]
    refine (changesOnly_setRange _ _ _ _).mono fun x hx => ⟨frameOf page, .inr ?_, ?_⟩
    · rw [hframe]
      exact List.mem_append_right new List.mem_cons_self
    · rw [hframe]
      exact hx
  have hstore : ChangesOnly (fun x => ∃ q, (own q ∨ frameAddr q ∈ new ++ [page]) ∧
      Within x (frameAddr q) 4096) (st.grant page).mem (st.install page (slot p i)).mem :=
    changesOnly_slot (.inl hp) _
  apply (hfill.trans hstore).trans
  refine hchanges.mono fun x hx => ?_
  obtain ⟨q, (hq | rfl) | hq, hx⟩ := hx
  · exact ⟨q, .inl hq, hx⟩
  · exact ⟨_, .inr (by rw [hframe]; exact List.mem_append_right new List.mem_cons_self), hx⟩
  · exact ⟨q, .inr (List.mem_append_left _ hq), hx⟩

end Confined

section Descent

variable {answers : Answers} {own : Frame → Prop} {st : State} {root p : Frame} {i : Index}
  {va pa flags : U64} {err : Error}

theorem mapAtLevel0_confined (hown : own (entryFrame (tables st.mem p i))) :
    Confined own st (mapAtLevel0 va pa flags (slot p i) err st).2 := by
  simp only [mapAtLevel0, entryAddr_getAddress (p := p) (show 0 ≤ 2 by decide)]
  split
  · exact confined_of_same rfl rfl
  · exact confined_store hown _

/-- The entry of a new table leads to it. -/
theorem entryFrame_install (hpage : isAligned page pageSize = true) (st : State) (p : Frame)
    (i : Index) : entryFrame (tables (st.install page (slot p i)).mem p i) = frameOf page := by
  rw [tables_install hpage, setEntry_self, entryFrame_tableEntry tefValid_lt]

/-- Only what the valid bits of the entries say decides where a call goes on. -/
theorem mapAtLevel1_confined (hgranted : ∀ k page, answers k = .granted page →
      isAligned page pageSize = true) (hown : own (entryFrame (tables st.mem p i)))
    (hnext : isValid (tables st.mem (entryFrame (tables st.mem p i)) (keyIndex (keyOf va) 1)) = true →
      own (entryFrame (tables st.mem (entryFrame (tables st.mem p i)) (keyIndex (keyOf va) 1)))) :
    Confined own st (mapAtLevel1 answers va pa flags (slot p i) err st).2 := by
  simp only [mapAtLevel1, entryAddr_getAddress (p := p) (show 1 ≤ 2 by decide)]
  set q := entryFrame (tables st.mem p i)
  set j := keyIndex (keyOf va) 1
  cases hvalid : isValid (tables st.mem q j) with
  | true =>
    rw [ensureTable_of_valid (show isValid (load64 st.mem (slot q j)) = true from hvalid)]
    exact mapAtLevel0_confined (hnext hvalid)
  | false =>
    have hinvalid : isValid (load64 st.mem (slot q j)) = false := hvalid
    cases hanswer : answers st.allocs with
    | failed err' herr =>
      rw [ensureTable_of_failed hinvalid hanswer]
      exact confined_of_same rfl rfl
    | granted page =>
      have hpage := hgranted _ _ hanswer
      rw [ensureTable_of_granted hinvalid hanswer]
      apply Confined.after_install hown hpage
      apply mapAtLevel0_confined
      exact .inr (entryFrame_install hpage st q j)

/-- In a new table there is no valid entry but the one that points to it, if it lies there. -/
theorem entryFrame_of_valid_install {page : U64} (hpage : isAligned page pageSize = true)
    {j : Index}
    (hvalid : isValid (tables (st.install page (slot p i)).mem (frameOf page) j) = true) :
    entryFrame (tables (st.install page (slot p i)).mem (frameOf page) j) = frameOf page := by
  by_cases hsame : frameOf page = p ∧ j = i
  · obtain ⟨hframe, rfl⟩ := hsame
    subst hframe
    exact entryFrame_install hpage st _ j
  · rw [tables_install hpage, setEntry_of_ne hsame, clear_self, isValid_zero] at hvalid
    cases hvalid

/-- Without a superpage in its way a call keeps to the tables of the tree. -/
theorem mapSmallPage_confined (hgranted : ∀ k page, answers k = .granted page →
      isAligned page pageSize = true) (htest : PassesTest va pa)
    (hleaf : meetsLeaf st.mem va (frameAddr root) 2 = false) :
    Confined (TablePage st.mem root) st
      (mapSmallPage answers st (frameAddr root) va pa flags).2 := by
  have hroot : TablePage st.mem root root := ⟨[], Nat.zero_le 2, rfl⟩
  rw [mapSmallPage_of_passesTest htest, entryAddr_vpn _ _ (by decide)]
  rw [meetsLeaf, entryAddr_vpn _ _ (by decide)] at hleaf
  set i := keyIndex (keyOf va) 2
  cases hvalid : isValid (tables st.mem root i) with
  | true =>
    have hload : isValid (load64 st.mem (slot root i)) = true := hvalid
    simp only [hload, Bool.true_and, Bool.or_eq_false_iff] at hleaf
    obtain ⟨hpointer, hbelow⟩ := hleaf
    have hstep : isPointer (tables st.mem root i) = true := by
      rw [isPointer, hvalid, tables, hpointer]
      rfl
    rw [ensureTable_of_valid hload]
    apply mapAtLevel1_confined hgranted
    · refine ⟨[i], Nat.le_succ 1, ?_⟩
      rw [reach, if_pos hstep]
      rfl
    · intro hvalid'
      rw [meetsLeaf, entryAddr_getAddress (p := root) (by decide)] at hbelow
      have hload' : isValid (load64 st.mem (slot (entryFrame (tables st.mem root i))
        (keyIndex (keyOf va) 1))) = true := hvalid'
      simp only [hload', Bool.true_and, Bool.or_eq_false_iff] at hbelow
      have hstep' : isPointer (tables st.mem (entryFrame (tables st.mem root i))
          (keyIndex (keyOf va) 1)) = true := by
        rw [isPointer, hvalid', tables, hbelow.1]
        rfl
      refine ⟨[i, keyIndex (keyOf va) 1], Nat.le_refl 2, ?_⟩
      rw [reach, if_pos hstep, reach, if_pos hstep']
      rfl
  | false =>
    have hinvalid : isValid (load64 st.mem (slot root i)) = false := hvalid
    cases hanswer : answers st.allocs with
    | failed err' herr =>
      rw [ensureTable_of_failed hinvalid hanswer]
      exact confined_of_same rfl rfl
    | granted page =>
      have hpage := hgranted _ _ hanswer
      have hnew := entryFrame_install hpage st root i
      rw [ensureTable_of_granted hinvalid hanswer]
      apply Confined.after_install hroot hpage
      apply mapAtLevel1_confined hgranted
      · exact .inr hnew
      · intro hvalid'
        rw [hnew] at hvalid' ⊢
        exact .inr (entryFrame_of_valid_install hpage hvalid')

end Descent

section Superpage

variable {answers : Answers} {st : State} {root : Frame} {va pa flags : U64}

/-- A call that finds valid entries all the way answers that the mapping exists. -/
theorem mapSmallPage_of_pageMap (htest : PassesTest va pa)
    (hmap : pageMap st.mem (frameAddr root) (keyOf va) ≠ none) :
    mapSmallPage answers st (frameAddr root) va pa flags = (.ofCode .pagingMapExists, st) := by
  rw [mapSmallPage_of_passesTest htest, vpn_eq va (Nat.le_refl 2)]
  simp only [pageMap, ← vpn_eq va (show 1 ≤ 2 by decide), ← vpn_eq va (show 0 ≤ 2 by decide)] at hmap
  split at hmap
  · rename_i hvalid₂
    split at hmap
    · rename_i hvalid₁
      split at hmap
      · rename_i hvalid₀
        rw [ensureTable_of_valid hvalid₂, mapAtLevel1, ensureTable_of_valid hvalid₁, mapAtLevel0,
          if_pos hvalid₀]
      · exact absurd rfl hmap
    · exact absurd rfl hmap
  · exact absurd rfl hmap

/-- Below a superpage a call either finds valid entries all the way, or it writes to
the mapped memory or fails with another error. -/
theorem pageMap_of_refusesSuperpage (hgranted : ∀ k page, answers k = .granted page →
      isAligned page pageSize = true) (htest : PassesTest va pa)
    (hleaf : meetsLeaf st.mem va (frameAddr root) 2 = true)
    (herr : (mapSmallPage answers st (frameAddr root) va pa flags).1 = .ofCode .pagingMapExists)
    (hmem : (mapSmallPage answers st (frameAddr root) va pa flags).2.mem = st.mem) :
    pageMap st.mem (frameAddr root) (keyOf va) ≠ none := by
  generalize hresult : mapSmallPage answers st (frameAddr root) va pa flags = result at herr hmem
  have hends := hresult ▸ @mapSmallPage_ends answers st (frameAddr root) va pa flags
  cases hends with
  | refused hrefused => exact absurd htest hrefused
  | unallocated => exact absurd herr (push_pagingAllocFailed_ne _ (by decide))
  | written => exact absurd (ofCode_injective herr) (by decide)
  | @occupied st' l0Entry _ hreach hvalid₀ =>
    change st'.mem = st.mem at hmem
    rw [meetsLeaf, Bool.and_eq_true] at hleaf
    have hvalid₂ := hleaf.1
    rw [reachLevel0, ensured, if_pos hvalid₂, Option.bind_some] at hreach
    set l1Entry := entryAddr (getAddress (load64 st.mem (entryAddr (frameAddr root) (vpn va 2))))
      (vpn va 1)
    obtain ⟨after, hensured, heq⟩ := Option.map_eq_some_iff.mp hreach
    obtain ⟨rfl, rfl⟩ := Prod.mk.inj heq
    have hvalid₁ : isValid (load64 st.mem l1Entry) = true := by
      by_contra hinvalid
      rw [ensured, if_neg hinvalid] at hensured
      cases hanswer : answers st.allocs with
      | failed err herr =>
        rw [hanswer] at hensured
        cases hensured
      | granted page =>
        rw [hanswer] at hensured
        obtain rfl := Option.some.inj hensured
        rw [← hmem, State.install, load64_store64_same,
          ← frameAddr_frameOf (hgranted _ _ hanswer)] at hinvalid
        exact hinvalid (@isValid_tableEntry _ 0 (by decide))
    rw [hmem] at hvalid₀
    simp only [pageMap, ← vpn_eq va (show 2 ≤ 2 by decide), ← vpn_eq va (show 1 ≤ 2 by decide),
      ← vpn_eq va (show 0 ≤ 2 by decide), if_pos hvalid₂]
    rw [if_pos hvalid₁, if_pos hvalid₀]
    exact Option.some_ne_none _

end Superpage

/-- A call keeps to the tables and refuses what is mapped exactly if its walk meets
no superpage, or what it takes for entries in the mapped memory is valid all the way. -/
theorem mapSmallPage_frame_iff {answers : Answers} {st : State} {root va pa flags : U64}
    (hgranted : ∀ k page, answers k = .granted page → isAligned page pageSize = true)
    (hroot : isAligned root pageSize = true) (hva : isAligned va pageSize = true)
    (hpa : isAligned pa pageSize = true) :
    WritesOwnTables answers st root va pa flags ∧ RefusesSuperpage answers st root va pa flags ↔
      meetsLeaf st.mem va root 2 = false ∨ pageMap st.mem root (keyOf va) ≠ none := by
  have htest : PassesTest va pa := ⟨isAligned_of_page hva, isAligned_of_page hpa⟩
  obtain ⟨frame, rfl⟩ : ∃ frame, root = frameAddr frame := ⟨_, (frameAddr_frameOf hroot).symm⟩
  constructor
  · rintro ⟨-, hrefuses⟩
    cases hleaf : meetsLeaf st.mem va (frameAddr frame) 2 with
    | false => exact .inl rfl
    | true =>
      obtain ⟨herr, hmem⟩ := hrefuses hleaf
      exact .inr (pageMap_of_refusesSuperpage hgranted htest hleaf herr hmem)
  · rintro (hleaf | hmap)
    · obtain ⟨new, hpages, hchanges⟩ := mapSmallPage_confined hgranted htest hleaf
      refine ⟨⟨new, hpages, ?_⟩, fun hmet => absurd (hleaf.symm.trans hmet) Bool.false_ne_true⟩
      refine hchanges.mono fun x hx => ?_
      obtain ⟨p, hp | hp, hx⟩ := hx
      · rw [frameOf_frameAddr]
        exact .inl ⟨p, hp, hx⟩
      · exact .inr ⟨_, hp, hx⟩
    · have hcall := @mapSmallPage_of_pageMap answers st frame va pa flags htest hmap
      rw [WritesOwnTables, RefusesSuperpage, hcall]
      exact ⟨⟨[], rfl, .refl _ _⟩, fun _ => ⟨rfl, rfl⟩⟩

theorem pageByPage_aligned {k : Nat} {page : U64} (h : pageByPage k = .granted page) :
    isAligned page pageSize = true := by
  obtain rfl := Answer.granted.inj h
  rw [isAligned, beq_iff_eq]
  apply BitVec.eq_of_toNat_eq
  rw [BitVec.toNat_umod, BitVec.toNat_add, BitVec.toNat_mul, pageSize_toNat]
  change 0 = (0x2000 + 0x1000 * (BitVec.ofNat 64 k).toNat % 2 ^ 64) % 2 ^ 64 % 2 ^ 12
  omega

/-- One gigapage in the way, at `0x80000000`. -/
def gigapageState : State := ⟨oneEntry 0x200000CF, 0, []⟩

/-- Memory full of words with their valid bit set. -/
def onesState : State := ⟨fun _ => 0xFF, 0, []⟩

/-- A mapping beside the gigapage; and one below a leaf behind which every word looks valid. -/
theorem mapSmallPage_frame_besideGigapage :
    WritesOwnTables pageByPage gigapageState 0x1000 0x40005000 0x80000000 tefRead ∧
      RefusesSuperpage pageByPage gigapageState 0x1000 0x40005000 0x80000000 tefRead ∧
      meetsLeaf onesState.mem 0x5000 0x1000 2 = true ∧
      RefusesSuperpage pageByPage onesState 0x1000 0x5000 0x80000000 tefRead := by
  have hgranted : ∀ k page, pageByPage k = .granted page → isAligned page pageSize = true :=
    fun _ _ => pageByPage_aligned
  have hbeside := @mapSmallPage_frame_iff pageByPage gigapageState 0x1000 0x40005000 0x80000000
    tefRead hgranted (by decide) (by decide) (by decide)
  have hones := @mapSmallPage_frame_iff pageByPage onesState 0x1000 0x5000 0x80000000
    tefRead hgranted (by decide) (by decide) (by decide)
  obtain ⟨hwrites, hrefuses⟩ := hbeside.mpr (.inl (by decide))
  exact ⟨hwrites, hrefuses, by decide, (hones.mpr (.inr (by decide))).2⟩

theorem tables_gigapageState :
    tables gigapageState.mem = setEntry (fun _ _ => 0) 1 0 0x200000CF := by
  rw [← tables_zeroState, ← tables_store64]
  rfl

/-- The root is the only table there. -/
theorem tablePage_gigapageState {p : Frame} (h : TablePage gigapageState.mem 1 p) : p = 1 := by
  obtain ⟨path, -, hp⟩ := h
  cases path with
  | nil => exact (Option.some.inj hp).symm
  | cons i rest =>
    have hnone : isPointer (tables gigapageState.mem 1 i) = false := by
      rw [tables_gigapageState]
      by_cases hi : i = 0
      · subst hi
        rw [setEntry_self]
        decide
      · rw [setEntry_of_ne fun hboth => hi hboth.2]
        decide
    rw [reach, hnone] at hp
    cases hp

/-- The call takes the first page of the gigapage for its level-1 table. -/
theorem mapSmallPage_gigapageState :
    ∃ st', mapSmallPage pageByPage gigapageState 0x1000 0x5000 0x80000000 tefRead =
        (.ofCode .success, st') ∧ st'.pages = [0x2000] ∧
      tables st'.mem 0x80000 0 = tableEntry 0x2000 tefValid := by
  have hroot : load64 gigapageState.mem (slot 1 0) = 0x200000CF := by decide
  have hdata : load64 gigapageState.mem (slot 0x80000 0) = 0 := by decide
  have htables := @tables_install 0x80000 gigapageState 0 0x2000 (by decide)
  have hentry : load64 (gigapageState.install 0x2000 (slot 0x80000 0)).mem (slot 0x80000 0) = _ :=
    congrFun (congrFun htables 0x80000) 0
  have hfree : isValid (tables (gigapageState.install 0x2000 (slot 0x80000 0)).mem 2 5) = false := by
    rw [htables]
    decide
  refine ⟨{ gigapageState.install 0x2000 (slot 0x80000 0) with
    mem := store64 (gigapageState.install 0x2000 (slot 0x80000 0)).mem (slot 2 5)
      (tableEntry 0x80000000 (tefRead ||| tefValid)) }, ?_, rfl, ?_⟩
  · rw [mapSmallPage_of_passesTest ⟨by decide, by decide⟩,
      show entryAddr 0x1000 (vpn 0x5000 2) = slot 1 0 by decide,
      ensureTable_of_valid (by rw [hroot]; decide), mapAtLevel1, hroot,
      show entryAddr (getAddress 0x200000CF) (vpn 0x5000 1) = slot 0x80000 0 by decide,
      @ensureTable_of_granted _ _ _ _ _ 0x2000 (by rw [hdata]; decide) rfl, mapAtLevel0, hentry,
      show entryAddr (getAddress _) (vpn 0x5000 0) = slot 2 5 by decide]
    exact if_neg (Bool.eq_false_iff.mp hfree)
  · rw [tables_store64, setEntry_of_ne (by decide), htables]
    decide

/-- A mapping below the gigapage: the call takes `0x80000000` for a table and puts a
pointer into it. -/
theorem not_refusesSuperpage_gigapage :
    meetsLeaf gigapageState.mem 0x5000 0x1000 2 = true ∧
      ¬ RefusesSuperpage pageByPage gigapageState 0x1000 0x5000 0x80000000 tefRead ∧
      ¬ WritesOwnTables pageByPage gigapageState 0x1000 0x5000 0x80000000 tefRead := by
  have hmet : meetsLeaf gigapageState.mem 0x5000 0x1000 2 = true := by decide
  obtain ⟨st', hcall, hpages, hentry⟩ := mapSmallPage_gigapageState
  refine ⟨hmet, fun hrefuses => ?_, ?_⟩
  · have herr := (hrefuses hmet).1
    rw [hcall] at herr
    exact absurd (ofCode_injective herr) (by decide)
  · rintro ⟨new, hnew, hchanges⟩
    rw [hcall] at hnew hchanges
    have hlist : new = [0x2000] := by
      rw [hpages] at hnew
      exact (List.append_nil new).symm.trans hnew.symm
    have hsame : load64 st'.mem (slot 0x80000 0) = load64 gigapageState.mem (slot 0x80000 0) := by
      apply load64_congr
      intro x hx
      by_contra hne
      rw [within_iff (by decide)] at hx
      obtain ⟨p, hp, hin⟩ | ⟨page, hpage, hin⟩ := hchanges x hne
      · obtain rfl := tablePage_gigapageState hp
        rw [within_iff (by decide)] at hin
        have hlow : (slot 0x80000 0).toNat = 0x80000000 := by decide
        have hhigh : (frameAddr 1).toNat = 0x1000 := by decide
        omega
      · rw [hlist, List.mem_singleton] at hpage
        subst hpage
        rw [within_iff (by decide)] at hin
        have hlow : (slot 0x80000 0).toNat = 0x80000000 := by decide
        have hhigh : (0x2000 : U64).toNat = 0x2000 := rfl
        omega
    have hword : tables st'.mem 0x80000 0 = 0 := hsame.trans (by decide)
    rw [hentry] at hword
    exact absurd hword (by decide)

end Octiron.Riscv.Sv39
