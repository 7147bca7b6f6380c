import Octiron.Riscv.PageMap

/-! `map_small_page` refines insertion into the page map: it inserts at an
undefined key, refuses a defined one, and a failed allocation leaves the map as it
was, also when a table has been installed before the failure. -/
namespace Octiron.Riscv.Sv39

open Lib Lib.Word Lib.ByteMemory Lib.RadixTree Pmm

/-- Of the codes of paging only that of a failed allocation has bit 0 set. -/
theorem push_pagingAllocFailed_ne (err : Error) {code : ErrorCode}
    (hcode : code.val.getLsbD 0 = false) : err.push .pagingAllocFailed ≠ .ofCode code := by
  intro heq
  have hbit := congrArg (·.top.getLsbD 0) heq
  have hset : ErrorCode.pagingAllocFailed.val.getLsbD 0 = true := by decide
  simp only [Error.top_push, Error.top_ofCode, BitVec.getLsbD_or, hset, hcode, Bool.or_true] at hbit
  cases hbit

section EnsureTable

variable {answers : Answers} {st : State} {rest : Error → State → Error × State}

theorem ensureTable_of_valid {err : Error} {entry : U64}
    (h : isValid (load64 st.mem entry) = true) :
    ensureTable answers st err entry rest = rest err st := if_pos h

theorem ensureTable_of_failed {err err' : Error} {herr : err'.isErr = true} {entry : U64}
    (h : isValid (load64 st.mem entry) = false) (hanswer : answers st.allocs = .failed err' herr) :
    ensureTable answers st err entry rest =
      (err'.push .pagingAllocFailed, { st with allocs := st.allocs + 1 }) := by
  rw [ensureTable, if_neg (by simp [h]), hanswer]

theorem ensureTable_of_granted {err : Error} {entry page : U64}
    (h : isValid (load64 st.mem entry) = false) (hanswer : answers st.allocs = .granted page) :
    ensureTable answers st err entry rest =
      rest (.ofCode .success) (st.install page entry) := by
  unfold ensureTable
  rw [if_neg (by simp [h])]
  exact hanswer ▸ rfl

/-- The pages granted before a block stay granted behind it. -/
theorem ensureTable_suffix {err : Error} {entry : U64}
    (hrest : ∀ err st, st.pages <:+ (rest err st).2.pages) :
    st.pages <:+ (ensureTable answers st err entry rest).2.pages := by
  cases hvalid : isValid (load64 st.mem entry) with
  | true =>
    rw [ensureTable_of_valid hvalid]
    exact hrest _ _
  | false =>
    cases hanswer : answers st.allocs with
    | failed err' herr =>
      have hfailed : (ensureTable answers st err entry rest).2.pages = st.pages :=
        congrArg (fun result => result.2.pages) (ensureTable_of_failed hvalid hanswer)
      exact hfailed ▸ List.suffix_refl st.pages
    | granted page =>
      rw [ensureTable_of_granted hvalid hanswer]
      exact (List.suffix_cons page st.pages).trans (hrest _ (st.install page entry))

/-- What a block that goes on leaves behind it: the entry leads to a table. -/
structure Ensured (root p : Frame) (path : List Index) (i : Index) (st st' : State) : Prop where
  inv : Inv root st'
  map : ∀ key, pageMap st'.mem (frameAddr root) key = pageMap st.mem (frameAddr root) key
  leads : reach isValid entryFrame (tables st'.mem) root (path ++ [i]) =
    some (entryFrame (tables st'.mem p i))

variable {root p : Frame} {path : List Index} {i : Index}

/-- The block fails with the allocation, or goes on with an entry that leads to a
table. -/
theorem ensureTable_spec (h : Inv root st)
    (hp : reach isValid entryFrame (tables st.mem) root path = some p) (hlen : path.length < 2) :
    (∃ err herr, isValid (tables st.mem p i) = false ∧ answers st.allocs = .failed err herr ∧
      ensureTable answers st (.ofCode .success) (slot p i) rest =
        (err.push .pagingAllocFailed, { st with allocs := st.allocs + 1 })) ∨
    ∃ st', ensureTable answers st (.ofCode .success) (slot p i) rest =
        rest (.ofCode .success) st' ∧
      st.allocs ≤ st'.allocs ∧ AllGranted answers st.allocs st'.allocs ∧
      (Fresh (frameAddr root) st'.pages → Ensured root p path i st st') := by
  cases hvalid : isValid (tables st.mem p i) with
  | true =>
    refine .inr ⟨st, ensureTable_of_valid hvalid, Nat.le_refl _, .refl answers _,
      fun _ => ⟨h, fun _ => rfl, ?_⟩⟩
    rw [reach_concat, find_of_reach hp, if_pos hvalid]
    rfl
  | false =>
    cases hanswer : answers st.allocs with
    | failed err herr => exact .inl ⟨err, herr, rfl, rfl, ensureTable_of_failed hvalid hanswer⟩
    | granted page =>
      refine .inr ⟨st.install page (slot p i), ensureTable_of_granted hvalid hanswer,
        Nat.le_succ _, .succ hanswer, fun hfresh => ?_⟩
      obtain ⟨hinv, hmap, hleads⟩ := h.install hp hlen hvalid hfresh
      exact ⟨hinv, hmap, hleads⟩

end EnsureTable

/-- The error of a failed allocation stays an error when a code is pushed on it. -/
theorem isErr_push_pagingAllocFailed (err : Error) : (err.push .pagingAllocFailed).isErr = true := by
  rw [Error.isErr, Error.isOk, Error.top_push, Bool.not_eq_true', beq_eq_false_iff_ne]
  intro heq
  have hbit := congrArg (·.getLsbD 0) heq
  have hset : ErrorCode.pagingAllocFailed.val.getLsbD 0 = true := by decide
  have hclear : ErrorCode.success.val.getLsbD 0 = false := by decide
  rw [BitVec.getLsbD_or, hset, hclear, Bool.or_true] at hbit
  exact nomatch hbit

/-- What became of a call. -/
inductive Outcome (answers : Answers) (root : U64) (st : State) (key : Key) (entry : U64) :
    Error × State → Prop where
  | exists' {st' : State} (hdefined : pageMap st.mem root key ≠ none)
      (hmap : pageMap st'.mem root = pageMap st.mem root) :
      Outcome answers root st key entry (.ofCode .pagingMapExists, st')
  | inserted {st' : State} (hundefined : pageMap st.mem root key = none)
      (hgranted : AllGranted answers st.allocs st'.allocs)
      (hmap : pageMap st'.mem root = Function.update (pageMap st.mem root) key (some entry)) :
      Outcome answers root st key entry (.ofCode .success, st')
  | failed {err : Error} {st' : State} (hundefined : pageMap st.mem root key = none)
      (hgranted : ¬ AllGranted answers st.allocs st'.allocs) (herr : err.isErr = true)
      (hmap : pageMap st'.mem root = pageMap st.mem root) :
      Outcome answers root st key entry (err, st')

/-- A call that goes on from a state with the same map has the same outcome. -/
theorem Outcome.of_map {answers : Answers} {root : U64} {st st₁ : State} {key : Key} {entry : U64}
    {result : Error × State} (h : Outcome answers root st₁ key entry result)
    (hmap : ∀ key, pageMap st₁.mem root key = pageMap st.mem root key)
    (hle : st.allocs ≤ st₁.allocs) (hgranted : AllGranted answers st.allocs st₁.allocs) :
    Outcome answers root st key entry result := by
  have hsame : pageMap st₁.mem root = pageMap st.mem root := funext hmap
  cases h with
  | exists' hdefined hmap' =>
    rw [hsame] at hdefined hmap'
    exact .exists' hdefined hmap'
  | inserted hundefined hall hmap' =>
    rw [hsame] at hundefined hmap'
    exact .inserted hundefined (hgranted.trans hall) hmap'
  | failed hundefined hnot herr hmap' =>
    rw [hsame] at hundefined hmap'
    exact .failed hundefined (fun hall => hnot fun k hlow => hall k (hle.trans hlow)) herr hmap'

theorem isAligned_of_page {v : U64} (h : isAligned v pageSize = true) :
    isAligned v alignofPageTable = true := by
  have hmod := congrArg BitVec.toNat (beq_iff_eq.mp h)
  rw [BitVec.toNat_umod, show pageSize.toNat = 4096 from rfl] at hmod
  rw [isAligned, beq_iff_eq]
  apply BitVec.eq_of_toNat_eq
  rw [BitVec.toNat_umod, show alignofPageTable.toNat = 8 from rfl]
  change 0 = v.toNat % 8
  change 0 = v.toNat % 4096 at hmod
  omega

/-- An invalid entry on the way leaves the key undefined. -/
theorem pageMap_eq_none_of_reach {m : Mem} {root : Frame} {key : Key}
    (h : reach isValid entryFrame (tables m) root (keyPath key) = none) :
    pageMap m (frameAddr root) key = none := by
  rw [pageMap_eq_find, find, h, Option.bind_none]

/-- The tail of `map_small_page` at level 0. -/
def mapAtLevel0 (va pa flags l1Entry : U64) (err : Error) (st : State) : Error × State :=
  let l0Entry := entryAddr (getAddress (load64 st.mem l1Entry)) (vpn va 0)
  if isValid (load64 st.mem l0Entry) then (.ofCode .pagingMapExists, st)
  else (err, { st with mem := store64 st.mem l0Entry (tableEntry pa (flags ||| tefValid)) })

/-- The tail of `map_small_page` at level 1. -/
def mapAtLevel1 (answers : Answers) (va pa flags l2Entry : U64) (err : Error) (st : State) :
    Error × State :=
  let l1Entry := entryAddr (getAddress (load64 st.mem l2Entry)) (vpn va 1)
  ensureTable answers st err l1Entry (mapAtLevel0 va pa flags l1Entry)

/-- The test `map_small_page` makes of its addresses. -/
def PassesTest (va pa : U64) : Prop :=
  isAligned va alignofPageTable = true ∧ isAligned pa alignofPageTable = true

theorem mapSmallPage_of_passesTest {answers : Answers} {st : State} {root va pa flags : U64}
    (htest : PassesTest va pa) :
    mapSmallPage answers st root va pa flags =
      ensureTable answers st (.ofCode .success) (entryAddr root (vpn va 2))
        (mapAtLevel1 answers va pa flags (entryAddr root (vpn va 2))) := by
  rw [mapSmallPage, if_neg (by simp [htest.1, htest.2])]
  rfl

theorem CallOk.passesTest {va pa flags : U64} (hargs : CallOk va pa flags) : PassesTest va pa :=
  ⟨isAligned_of_page hargs.va_aligned, isAligned_of_page hargs.pa_aligned⟩

theorem mapAtLevel0_suffix (va pa flags l1Entry : U64) (err : Error) (st : State) :
    st.pages <:+ (mapAtLevel0 va pa flags l1Entry err st).2.pages := by
  simp only [mapAtLevel0]
  split <;> exact List.suffix_refl _

section Spec

variable {answers : Answers} {st : State} {root p : Frame} {va pa flags : U64}

/-- At level 0 the map is changed, or the entry is there already. -/
theorem mapAtLevel0_spec (h : Inv root st) (hargs : CallOk va pa flags)
    (hreach : reach isValid entryFrame (tables st.mem) root (keyPath (keyOf va)) =
      some (entryFrame (tables st.mem p (keyIndex (keyOf va) 1)))) :
    let result := mapAtLevel0 va pa flags (slot p (keyIndex (keyOf va) 1)) (.ofCode .success) st
    Inv root result.2 ∧ result.2.allocs = st.allocs ∧
      Outcome answers (frameAddr root) st (keyOf va) (tableEntry pa (flags ||| tefValid)) result := by
  have hentry := frameAddr_frameOf hargs.pa_aligned ▸
    isValid_tableEntry (p := frameOf pa) (flags_lt hargs.flags_ok)
  set q := entryFrame (tables st.mem p (keyIndex (keyOf va) 1)) with hq
  have hslot : entryAddr (getAddress (load64 st.mem (slot p (keyIndex (keyOf va) 1)))) (vpn va 0) =
      slot q (keyIndex (keyOf va) 0) := by
    rw [getAddress_eq, entryAddr_vpn _ _ (by decide)]
    rfl
  have hfound : pageMap st.mem (frameAddr root) (keyOf va) =
      if isValid (load64 st.mem (slot q (keyIndex (keyOf va) 0))) then
        some (load64 st.mem (slot q (keyIndex (keyOf va) 0))) else none := by
    rw [pageMap_eq_find]
    exact find_of_reach hreach _
  simp only [mapAtLevel0, hslot]
  split
  · rename_i hvalid
    refine ⟨h, rfl, .exists' ?_ rfl⟩
    rw [hfound, if_pos hvalid]
    exact Option.some_ne_none _
  · rename_i hinvalid
    obtain ⟨hinv, hmap⟩ := h.setLeaf hreach hentry
    refine ⟨hinv, rfl, .inserted ?_ (.refl answers _) hmap⟩
    rw [hfound, if_neg hinvalid]

theorem not_allGranted_of_failed {n : Nat} {err : Error} {herr : err.isErr = true}
    (h : answers n = .failed err herr) : ¬ AllGranted answers n (n + 1) := by
  intro hall
  have hgranted := hall n (Nat.le_refl n) (Nat.lt_succ_self n)
  rw [h] at hgranted
  exact nomatch hgranted

/-- A call keeps the tables separate and has one of the three outcomes. -/
theorem mapSmallPage_spec (h : Inv root st) (hargs : CallOk va pa flags)
    (hfresh : Fresh (frameAddr root)
      (mapSmallPage answers st (frameAddr root) va pa flags).2.pages) :
    Inv root (mapSmallPage answers st (frameAddr root) va pa flags).2 ∧
      Outcome answers (frameAddr root) st (keyOf va) (tableEntry pa (flags ||| tefValid))
        (mapSmallPage answers st (frameAddr root) va pa flags) := by
  rw [mapSmallPage_of_passesTest hargs.passesTest, entryAddr_vpn _ _ (by decide)] at hfresh ⊢
  rcases @ensureTable_spec answers _ (mapAtLevel1 answers va pa flags _) _ _ _ _ h rfl
    (show ([] : List Index).length < 2 by decide) with
    ⟨err, herr, hinvalid, hanswer, heq⟩ | ⟨st₁, heq, hle₁, hall₁, hensured₁⟩
  · rw [heq]
    refine ⟨⟨h.separated, h.pointers⟩, .failed ?_ (not_allGranted_of_failed hanswer)
      (isErr_push_pagingAllocFailed err) rfl⟩
    apply pageMap_eq_none_of_reach
    rw [keyPath, reach, hinvalid]
    rfl
  rw [heq] at hfresh ⊢
  have h₁ := hensured₁ (hfresh.of_suffix (ensureTable_suffix (mapAtLevel0_suffix va pa flags _)))
  set p₁ := entryFrame (tables st₁.mem root (keyIndex (keyOf va) 2)) with hp₁
  have hslot : entryAddr (getAddress (load64 st₁.mem (slot root (keyIndex (keyOf va) 2))))
      (vpn va 1) = slot p₁ (keyIndex (keyOf va) 1) := by
    rw [getAddress_eq, entryAddr_vpn _ _ (by decide)]
    rfl
  rw [mapAtLevel1, hslot] at hfresh ⊢
  have hleads : reach isValid entryFrame (tables st₁.mem) root [keyIndex (keyOf va) 2] =
      some p₁ := h₁.leads
  rcases @ensureTable_spec answers _ (mapAtLevel0 va pa flags _) _ _ _ (keyIndex (keyOf va) 1)
    h₁.inv hleads (Nat.lt_succ_self 1) with
    ⟨err, herr, hinvalid, hanswer, heq₁⟩ | ⟨st₂, heq₁, hle₂, hall₂, hensured₂⟩
  · rw [heq₁]
    refine ⟨⟨h₁.inv.separated, h₁.inv.pointers⟩, Outcome.of_map (.failed ?_
      (not_allGranted_of_failed hanswer) (isErr_push_pagingAllocFailed err) rfl) h₁.map hle₁ hall₁⟩
    apply pageMap_eq_none_of_reach
    rw [show keyPath (keyOf va) = [keyIndex (keyOf va) 2] ++ [keyIndex (keyOf va) 1] from rfl,
      reach_concat, find_of_reach hleads, hinvalid]
    rfl
  rw [heq₁] at hfresh ⊢
  have h₂ := hensured₂ (hfresh.of_suffix (mapAtLevel0_suffix va pa flags _ _ _))
  obtain ⟨hinv, -, houtcome⟩ := @mapAtLevel0_spec answers _ _ _ _ _ _ h₂.inv hargs h₂.leads
  exact ⟨hinv, (houtcome.of_map h₂.map hle₂ hall₂).of_map h₁.map hle₁ hall₁⟩

end Spec

section Runs

variable {answers : Answers} {root : U64} {st st' : State}

theorem Inv.step {root : Frame} (h : Inv root st)
    (hstep : Step answers (frameAddr root) st st') : Inv root st' := by
  obtain ⟨va, pa, flags, hargs, rfl, hfresh⟩ := hstep
  exact (mapSmallPage_spec h hargs hfresh).1

theorem Inv.steps {root : Frame} (h : Inv root st)
    (hsteps : Relation.ReflTransGen (Step answers (frameAddr root)) st st') : Inv root st' := by
  induction hsteps with
  | refl => exact h
  | tail _ hlast ih => exact ih.step hlast

/-- In every state of a run the tables are separate. -/
theorem Run.inv (h : Run answers root st) : Inv (frameOf root) st := by
  obtain ⟨hroot, m, hzero, hsteps⟩ := h
  rw [← frameAddr_frameOf hroot] at hsteps
  exact (inv_start hzero).steps hsteps

end Runs

/-- Memory of zeros, and nothing allocated. -/
def zeroState : State := ⟨fun _ => 0, 0, []⟩

theorem tables_zeroState : tables zeroState.mem = fun _ _ => 0 := by
  funext p i
  exact load64_zero _

/-- Page after page, from `0x2000` on. -/
def pageByPage : Answers := fun k => .granted (0x2000 + 0x1000 * BitVec.ofNat 64 k)

theorem run_zeroState : Run pageByPage 0x1000 zeroState :=
  ⟨by decide, fun _ => 0, fun i => congrFun (congrFun tables_zeroState _) i, .refl⟩

/-- The first call installs two tables and then the entry. -/
theorem mapSmallPage_zeroState {pa flags : U64} (hpa : isAligned pa pageSize = true) :
    mapSmallPage pageByPage zeroState 0x1000 0x5000 pa flags =
      (.ofCode .success, { (zeroState.install 0x2000 (slot 1 0)).install 0x3000 (slot 2 0) with
        mem := store64 ((zeroState.install 0x2000 (slot 1 0)).install 0x3000 (slot 2 0)).mem
          (slot 3 5) (tableEntry pa (flags ||| tefValid)) }) := by
  have htables₁ := @tables_install 1 zeroState 0 0x2000 (by decide)
  rw [tables_zeroState] at htables₁
  have htables₂ := @tables_install 2 (zeroState.install 0x2000 (slot 1 0)) 0 0x3000 (by decide)
  rw [htables₁] at htables₂
  have hentry₁ : load64 (zeroState.install 0x2000 (slot 1 0)).mem (slot 1 0) = _ :=
    congrFun (congrFun htables₁ 1) 0
  have hentry₂ : load64 ((zeroState.install 0x2000 (slot 1 0)).install 0x3000 (slot 2 0)).mem
    (slot 2 0) = _ := congrFun (congrFun htables₂ 2) 0
  rw [mapSmallPage_of_passesTest ⟨by decide, isAligned_of_page hpa⟩,
    show entryAddr 0x1000 (vpn 0x5000 2) = slot 1 0 by decide,
    @ensureTable_of_granted _ _ _ _ _ 0x2000
      (show isValid (tables zeroState.mem 1 0) = false by rw [tables_zeroState]; decide) rfl,
    mapAtLevel1, hentry₁,
    show entryAddr (getAddress _) (vpn 0x5000 1) = slot 2 0 by decide,
    @ensureTable_of_granted _ _ _ _ _ 0x3000
      (show isValid (tables _ 2 0) = false by rw [htables₁]; decide) rfl,
    mapAtLevel0, hentry₂, show entryAddr (getAddress _) (vpn 0x5000 0) = slot 3 5 by decide]
  dsimp only
  exact if_neg (show ¬ isValid (tables _ 3 5) = true by rw [htables₂]; decide)

theorem fresh_zeroState : Fresh 0x1000 [0x3000, 0x2000] :=
  ⟨List.forall_mem_cons.mpr ⟨by decide, List.forall_mem_singleton.mpr (by decide)⟩,
    List.forall_mem_cons.mpr ⟨by decide, List.forall_mem_singleton.mpr (by decide)⟩, by decide⟩

/-- A call inserts at an undefined key, refuses a defined one, and with a failed
allocation returns an error; in the last two cases the map is as before. -/
theorem mapSmallPage_refines {answers : Answers} {root : U64} {st st' : State}
    {va pa flags : U64} {err : Error} (hrun : Run answers root st) (hargs : CallOk va pa flags)
    (hcall : mapSmallPage answers st root va pa flags = (err, st'))
    (hfresh : Fresh root st'.pages) :
    (pageMap st.mem root (keyOf va) = none → AllGranted answers st.allocs st'.allocs →
      err = .ofCode .success ∧ ∃ e, getAddress e = pa ∧ e &&& 0x3FF = flags ||| tefValid ∧
        pageMap st'.mem root = Function.update (pageMap st.mem root) (keyOf va) (some e)) ∧
      (pageMap st.mem root (keyOf va) ≠ none →
        err = .ofCode .pagingMapExists ∧ pageMap st'.mem root = pageMap st.mem root) ∧
      (¬ AllGranted answers st.allocs st'.allocs →
        err.isErr = true ∧ pageMap st'.mem root = pageMap st.mem root) := by
  have hroot := frameAddr_frameOf hrun.1
  have hpages : Fresh (frameAddr (frameOf root))
      (mapSmallPage answers st (frameAddr (frameOf root)) va pa flags).2.pages := by
    rw [hroot, hcall]
    exact hfresh
  have houtcome := (mapSmallPage_spec hrun.inv hargs hpages).2
  rw [hroot, hcall] at houtcome
  cases houtcome with
  | exists' hdefined hmap =>
    exact ⟨fun hnone => absurd hnone hdefined, fun _ => ⟨rfl, hmap⟩, fun _ => ⟨by decide, hmap⟩⟩
  | inserted hundefined hall hmap =>
    have hpa := frameAddr_frameOf hargs.pa_aligned
    have hflags := flags_lt hargs.flags_ok
    refine ⟨fun _ _ => ⟨rfl, _, ?_, ?_, hmap⟩, fun hsome => absurd hundefined hsome,
      fun hnot => absurd hall hnot⟩
    · rw [getAddress_eq, ← hpa, entryFrame_tableEntry hflags]
    · rw [← hpa, tableEntry_and hflags]
  | failed hundefined hnot herr hmap =>
    exact ⟨fun _ hall => absurd hall hnot, fun hsome => absurd hundefined hsome,
      fun _ => ⟨herr, hmap⟩⟩

/-- The first mapping below an empty root. -/
theorem mapSmallPage_refines_zeroState :
    ∃ st', mapSmallPage pageByPage zeroState 0x1000 0x5000 0x80000000 tefRead =
        (.ofCode .success, st') ∧ st'.pages = [0x3000, 0x2000] ∧
      ∃ e, pageMap st'.mem 0x1000 (keyOf 0x5000) = some e ∧ getAddress e = 0x80000000 ∧
        e &&& 0x3FF = tefRead ||| tefValid := by
  have hcall := @mapSmallPage_zeroState 0x80000000 tefRead (by decide)
  obtain ⟨hinserts, -, -⟩ := mapSmallPage_refines run_zeroState
    ⟨by decide, by decide, by decide⟩ hcall fresh_zeroState
  have hempty : pageMap zeroState.mem 0x1000 (keyOf 0x5000) = none := by
    have hzero : ∀ a, load64 zeroState.mem a = 0 := load64_zero
    simp only [pageMap, hzero, isValid_zero]
    rfl
  obtain ⟨-, e, haddr, hflags, hmap⟩ := hinserts hempty fun _ _ _ => rfl
  exact ⟨_, hcall, rfl, e, by rw [hmap, Function.update_self], haddr, hflags⟩

end Octiron.Riscv.Sv39
