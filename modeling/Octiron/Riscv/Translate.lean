import Octiron.Riscv.Mapping

/-! Reading a mapping back.  `virt_to_phys` takes the page offset to be
`va & PAGE_SIZE`, one bit above the offset, so what it returns for a mapped page
is the page's address with that one bit of `va` added in. -/
namespace Octiron.Riscv.Sv39

open Lib Lib.Word Lib.ByteMemory Lib.RadixTree Pmm

section Walk

variable {m : Mem} {va table : U64} {level : Nat}

theorem walkDown_pointer (hvalid : isValid (load64 m (entryAddr table (vpn va (level + 1)))) = true)
    (hleaf : isLeaf (load64 m (entryAddr table (vpn va (level + 1)))) = false) :
    walkDown m va table (level + 1) =
      walkDown m va (getAddress (load64 m (entryAddr table (vpn va (level + 1))))) level := by
  rw [walkDown]
  simp only [hvalid, hleaf, Bool.not_true, Bool.false_eq_true, if_false]

theorem walkDown_leaf (hvalid : isValid (load64 m (entryAddr table (vpn va level))) = true)
    (hleaf : isLeaf (load64 m (entryAddr table (vpn va level))) = true) :
    walkDown m va table level =
      some (leafAddress (load64 m (entryAddr table (vpn va level))) va level |||
        va &&& pageSize) := by
  rw [walkDown.eq_def]
  simp only [hvalid, hleaf, Bool.not_true, Bool.false_eq_true, if_false, if_true]

theorem walkDown_invalid (hinvalid : isValid (load64 m (entryAddr table (vpn va level))) = false) :
    walkDown m va table level = some (-1) := by
  rw [walkDown.eq_def]
  simp only [hinvalid, Bool.not_false, if_true]

/-- The walk goes on below level 0 only to the end of the function. -/
theorem walkDown_zero : walkDown m va table 0 =
    let pte := load64 m (entryAddr table (vpn va 0))
    if isValid pte then
      if isLeaf pte then some (getAddress pte ||| va &&& pageSize) else none
    else some (-1) := by
  rw [walkDown]
  cases hvalid : isValid (load64 m (entryAddr table (vpn va 0))) <;> simp [hvalid, leafAddress]

end Walk

theorem isLeaf_or_tefValid (flags : U64) : isLeaf (flags ||| tefValid) = isLeaf flags := by
  have hbit : ∀ bit : U64, tefValid &&& bit = 0 → (flags ||| tefValid) &&& bit = flags &&& bit := by
    intro bit hzero
    rw [BitVec.and_comm, BitVec.and_or_distrib_left, BitVec.and_comm bit tefValid, hzero,
      BitVec.and_comm bit]
    exact BitVec.or_zero
  simp only [isLeaf, isReadable, isWritable, isExecutable]
  rw [hbit tefRead (by decide), hbit tefWrite (by decide), hbit tefExecute (by decide)]

/-- The walk of `virt_to_phys` ends at the entry of the page map. -/
theorem virtToPhys_eq {root : Frame} {st : State} (h : Inv root st) (va : U64) :
    virtToPhys st.mem (frameAddr root) va =
      match pageMap st.mem (frameAddr root) (keyOf va) with
      | none => some (-1)
      | some e => if isLeaf e then some (getAddress e ||| va &&& pageSize) else none := by
  have htables : ∀ p level, level ≤ 2 → load64 st.mem (entryAddr (frameAddr p) (vpn va level)) =
      tables st.mem p (keyIndex (keyOf va) level) := by
    intro p level hlevel
    rw [entryAddr_vpn p va hlevel]
    rfl
  rw [pageMap_eq_find, find, keyPath, virtToPhys]
  cases hvalid₂ : isValid (tables st.mem root (keyIndex (keyOf va) 2)) with
  | false =>
    rw [walkDown_invalid (by rw [htables _ _ (by decide), hvalid₂]), reach, if_neg (by simp [hvalid₂])]
    rfl
  | true =>
    have hpointer₂ := h.pointers [] root (keyIndex (keyOf va) 2) (by decide) rfl hvalid₂
    rw [walkDown_pointer (by rw [htables _ _ (by decide), hvalid₂])
      (by rw [htables _ _ (by decide), hpointer₂]), htables _ _ (by decide), getAddress_eq, reach,
      if_pos hvalid₂]
    cases hvalid₁ : isValid (tables st.mem (entryFrame (tables st.mem root (keyIndex (keyOf va) 2)))
        (keyIndex (keyOf va) 1)) with
    | false =>
      rw [walkDown_invalid (by rw [htables _ _ (by decide), hvalid₁]), reach,
        if_neg (by simp [hvalid₁])]
      rfl
    | true =>
      have hpointer₁ := h.pointers [keyIndex (keyOf va) 2] _ (keyIndex (keyOf va) 1)
        (Nat.lt_succ_self 1) (by rw [reach, if_pos hvalid₂]; rfl) hvalid₁
      rw [walkDown_pointer (by rw [htables _ _ (by decide), hvalid₁])
        (by rw [htables _ _ (by decide), hpointer₁]), htables _ _ (by decide), getAddress_eq, reach,
        if_pos hvalid₁, walkDown_zero, htables _ _ (by decide)]
      simp only [reach, Option.bind_some]
      split <;> rfl

theorem virtToPhys_of_pageMap {root : Frame} {st : State} {va e : U64} (h : Inv root st)
    (hmap : pageMap st.mem (frameAddr root) (keyOf va) = some e) (hleaf : isLeaf e = true) :
    virtToPhys st.mem (frameAddr root) va = some (getAddress e ||| va &&& pageSize) := by
  rw [virtToPhys_eq h, hmap]
  exact if_pos hleaf

section PageOffset

variable {va pa o : U64}

theorem page_toNat (h : isAligned va pageSize = true) : va.toNat = (frameOf va).toNat * 4096 := by
  rw [← frameAddr_toNat, frameAddr_frameOf h]

theorem page_add_toNat (h : isAligned va pageSize = true) (ho : o.toNat < 4096) :
    (va + o).toNat = (frameOf va).toNat * 4096 + o.toNat := by
  have hframe := (frameOf va).isLt
  rw [BitVec.toNat_add, page_toNat h]
  omega

/-- The addresses of one page have one key. -/
theorem keyOf_add (h : isAligned va pageSize = true) (ho : o.toNat < 4096) :
    keyOf (va + o) = keyOf va := by
  apply BitVec.eq_of_toNat_eq
  simp only [keyOf, BitVec.toNat_setWidth, BitVec.toNat_ushiftRight, Nat.shiftRight_eq_div_pow]
  rw [page_add_toNat h ho, page_toNat h]
  omega

theorem and_pageSize (x : U64) : x &&& pageSize = if x.getLsbD 12 then pageSize else 0 :=
  BitVec.and_twoPow x 12

theorem getLsbD_add (h : isAligned va pageSize = true) (ho : o.toNat < 4096) :
    (va + o).getLsbD 12 = va.getLsbD 12 := by
  have hdiv : (va + o).toNat / 2 ^ 12 = va.toNat / 2 ^ 12 := by
    rw [page_add_toNat h ho, page_toNat h]
    omega
  rw [BitVec.getLsbD, BitVec.getLsbD, Nat.testBit_eq_decide_div_mod_eq,
    Nat.testBit_eq_decide_div_mod_eq, hdiv]

theorem or_pageSize_of_set (h : pa.getLsbD 12 = true) : pa ||| pageSize = pa := by
  apply BitVec.eq_of_getLsbD_eq
  intro i hi
  rw [BitVec.getLsbD_or, show pageSize = BitVec.twoPow 64 12 from rfl, BitVec.getLsbD_twoPow]
  by_cases hbit : 12 = i
  · rw [← hbit, h, Bool.true_or]
  · simp [hbit]

theorem or_pageSize_of_clear (h : pa.getLsbD 12 = false) : pa ||| pageSize = pa + pageSize := by
  rw [BitVec.add_eq_or_of_and_eq_zero]
  rw [and_pageSize, h]
  rfl

/-- Adding in the page bit is harmless only where it is there already. -/
theorem or_pageSize_eq_iff (ho : o.toNat < 4096) (bit : Bool) :
    (pa ||| if bit then pageSize else 0) = pa + o ↔
      o = 0 ∧ (bit = true → pa.getLsbD 12 = true) := by
  cases bit with
  | false => simp
  | true =>
    rw [if_pos rfl]
    cases hpa : pa.getLsbD 12 with
    | true =>
      rw [or_pageSize_of_set hpa]
      simp
    | false =>
      rw [or_pageSize_of_clear hpa, BitVec.add_right_inj]
      constructor
      · rintro rfl
        exact absurd ho (by decide)
      · rintro ⟨-, hset⟩
        exact nomatch hset rfl

end PageOffset

section Runs

variable {answers : Answers} {root : Frame} {st st' : State} {key : Key} {e : U64}

/-- No call removes or replaces an entry. -/
theorem Outcome.keeps {entry : U64} {key' : Key} {result : Error × State}
    (h : Outcome answers (frameAddr root) st key' entry result)
    (hmap : pageMap st.mem (frameAddr root) key = some e) :
    pageMap result.2.mem (frameAddr root) key = some e := by
  cases h with
  | exists' _ hsame => rw [hsame, hmap]
  | failed _ _ _ hsame => rw [hsame, hmap]
  | inserted hundefined _ hupdate =>
    have hne : key ≠ key' := by
      rintro rfl
      exact nomatch hmap.symm.trans hundefined
    rw [hupdate, Function.update_of_ne hne, hmap]

theorem Inv.steps_keep (h : Inv root st)
    (hsteps : Relation.ReflTransGen (Step answers (frameAddr root)) st st')
    (hmap : pageMap st.mem (frameAddr root) key = some e) :
    pageMap st'.mem (frameAddr root) key = some e := by
  induction hsteps with
  | refl => exact hmap
  | tail hbefore hlast ih =>
    obtain ⟨va, pa, flags, hargs, rfl, hfresh⟩ := hlast
    exact (mapSmallPage_spec (h.steps hbefore) hargs hfresh).2.keeps ih

/-- What `virt_to_phys` returns for an address of a mapped page. -/
theorem virtToPhys_of_mapped {answers : Answers} {root : U64} {st st' st'' : State}
    {va pa flags o : U64} (hrun : Run answers root st) (hargs : CallOk va pa flags)
    (hleaf : isLeaf flags = true)
    (hcall : mapSmallPage answers st root va pa flags = (.ofCode .success, st'))
    (hfresh : Fresh root st'.pages)
    (hlater : Relation.ReflTransGen (Step answers root) st' st'') (ho : o.toNat < 4096) :
    virtToPhys st''.mem root (va + o) =
      some (pa ||| if va.getLsbD 12 then pageSize else 0) := by
  have hroot := frameAddr_frameOf hrun.1
  have hpa := frameAddr_frameOf hargs.pa_aligned
  have hflags := flags_lt hargs.flags_ok
  have hpages : Fresh (frameAddr (frameOf root))
      (mapSmallPage answers st (frameAddr (frameOf root)) va pa flags).2.pages := by
    rw [hroot, hcall]
    exact hfresh
  obtain ⟨hinv, houtcome⟩ := mapSmallPage_spec hrun.inv hargs hpages
  rw [hroot, hcall] at hinv houtcome
  rw [← hroot] at hlater houtcome ⊢
  have hmap : pageMap st'.mem (frameAddr (frameOf root)) (keyOf va) =
      some (tableEntry pa (flags ||| tefValid)) := by
    cases houtcome with
    | inserted _ _ hupdate => rw [hupdate, Function.update_self]
    | failed _ _ herr _ => exact absurd herr (by decide)
  have hleaf' : isLeaf (tableEntry pa (flags ||| tefValid)) = true := by
    rw [← hpa, isLeaf_tableEntry hflags]
    exact (isLeaf_or_tefValid flags).trans hleaf
  have hkept := hinv.steps_keep hlater hmap
  rw [← keyOf_add hargs.va_aligned ho] at hkept
  rw [virtToPhys_of_pageMap (hinv.steps hlater) hkept hleaf', and_pageSize,
    getLsbD_add hargs.va_aligned ho, getAddress_eq, ← hpa, entryFrame_tableEntry hflags]

end Runs

/-- A mapped page is read back at offset zero only, and there only if the page bit
of the physical address covers that of the virtual one. -/
theorem virtToPhys_eq_iff {answers : Answers} {root : U64} {st st' st'' : State}
    {va pa flags o : U64} (hrun : Run answers root st) (hargs : CallOk va pa flags)
    (hleaf : isLeaf flags = true)
    (hcall : mapSmallPage answers st root va pa flags = (.ofCode .success, st'))
    (hfresh : Fresh root st'.pages)
    (hlater : Relation.ReflTransGen (Step answers root) st' st'') (ho : o < pageSize) :
    virtToPhys st''.mem root (va + o) = some (pa + o) ↔
      o = 0 ∧ (va.getLsbD 12 = true → pa.getLsbD 12 = true) := by
  rw [virtToPhys_of_mapped hrun hargs hleaf hcall hfresh hlater ho, Option.some_inj]
  exact or_pageSize_eq_iff ho _

/-- The page at `0x5000`, mapped to `0x80001000`: both have their page bit set. -/
theorem virtToPhys_eq_iff_zeroState :
    ∃ st', mapSmallPage pageByPage zeroState 0x1000 0x5000 0x80001000 tefRead =
        (.ofCode .success, st') ∧
      virtToPhys st'.mem 0x1000 (0x5000 + 0) = some (0x80001000 + 0) := by
  refine ⟨_, mapSmallPage_zeroState (by decide), ?_⟩
  exact (virtToPhys_eq_iff run_zeroState ⟨by decide, by decide, by decide⟩ (by decide)
    (mapSmallPage_zeroState (by decide)) fresh_zeroState .refl (by decide)).mpr ⟨rfl, fun _ => by decide⟩

/-- The page at `0x5000`, mapped to `0x80000000`: neither its first byte nor its
second is read back. -/
theorem virtToPhys_ne_zeroState :
    ∃ st', Run pageByPage 0x1000 zeroState ∧ CallOk 0x5000 0x80000000 tefRead ∧
      mapSmallPage pageByPage zeroState 0x1000 0x5000 0x80000000 tefRead =
        (.ofCode .success, st') ∧
      virtToPhys st'.mem 0x1000 (0x5000 + 0) ≠ some (0x80000000 + 0) ∧
      virtToPhys st'.mem 0x1000 (0x5000 + 1) ≠ some (0x80000000 + 1) := by
  have hargs : CallOk 0x5000 0x80000000 tefRead := ⟨by decide, by decide, by decide⟩
  refine ⟨_, run_zeroState, hargs, mapSmallPage_zeroState (by decide), ?_, ?_⟩
  · rw [virtToPhys_of_mapped run_zeroState hargs (by decide)
      (mapSmallPage_zeroState (by decide)) fresh_zeroState .refl (by decide)]
    decide
  · rw [virtToPhys_of_mapped run_zeroState hargs (by decide)
      (mapSmallPage_zeroState (by decide)) fresh_zeroState .refl (by decide)]
    decide

end Octiron.Riscv.Sv39
