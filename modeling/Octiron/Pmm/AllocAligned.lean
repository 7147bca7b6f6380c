import Octiron.Pmm.Invariant

/-! `alloc_aligned` keeps the invariant.  A call either refuses and changes
nothing, or cuts the granted range out of the head block of the first region
with room, and fills it with zeros. -/
namespace Octiron.Pmm

open Lib Lib.Word Lib.ByteMemory Lib.Span Exec

/-- Only memory outside `BLOCK_BUF` has changed, so every list is as before. -/
theorem Inv.frame {blockBuf : U64} {w : World} {used : Nat} {lost : List Span} {m' : Mem}
    (h : Inv blockBuf w used lost)
    (hsame : ∀ x, Within x blockBuf bufBytes → m' x = w.st.mem x) :
    Inv blockBuf { w with st := { w.st with mem := m' } } used lost := by
  have hfit := h.slab.fits
  have hused := h.slab.used_le
  have hdesc : ∀ j < 64, ∀ x, Within x (descriptor blockBuf j) 24 → m' x = w.st.mem x :=
    fun j hj x hx => hsame x (within_buf_of_descriptor hfit hj hx)
  refine ⟨?_, h.pol, h.offered, ?_, h.separate, h.grants, h.lost⟩
  · exact h.slab.congr (fun x hx => hsame x (within_buf_of_header hfit hx))
      fun j _ hj => hdesc j hj
  · intro region hregion
    have hold := h.regions region hregion
    obtain ⟨hhead, hheld⟩ := hold.head.congr hfit hused le_rfl
      fun k hk _ => hdesc k (hk.trans_le hused)
    exact hold.congr hhead hheld (fun x _ => rfl) (fun x _ => rfl) rfl

section Fit

variable {b n size alignment : U64} {k : Nat}

theorem exponent_le (hk : alignment.toNat = 2 ^ k) : 2 ^ k ≤ 2 ^ 63 := by
  have hlt : 2 ^ k < 2 ^ 64 := hk ▸ alignment.isLt
  have hexp : k < 64 := (Nat.pow_lt_pow_iff_right (by decide)).mp hlt
  exact Nat.pow_le_pow_right (by decide) (by omega)

/-- Physical addresses stay far enough below `2 ^ 64` for the test not to wrap. -/
theorem headFits_iff (hk : alignment.toNat = 2 ^ k) (hhigh : b.toNat + n.toNat ≤ 2 ^ 56)
    (hsize : size.toNat ≤ 2 ^ 56) :
    ¬ b + n < alignUp b alignment + size ↔
      (alignUp b alignment).toNat + size.toNat ≤ b.toNat + n.toNat := by
  have hpow := exponent_le hk
  have hup := @alignUp_lt b alignment _ hk (by omega)
  rw [BitVec.lt_def, BitVec.toNat_add, BitVec.toNat_add, Nat.mod_eq_of_lt (by omega),
    Nat.mod_eq_of_lt (by omega), Nat.not_lt]

theorem inside_of_headFits (hk : alignment.toNat = 2 ^ k) (hhigh : b.toNat + n.toNat ≤ 2 ^ 56)
    (hsize : size.toNat ≤ 2 ^ 56) (hfits : ¬ b + n < alignUp b alignment + size) :
    Inside ⟨(alignUp b alignment).toNat, size.toNat⟩ ⟨b.toNat, n.toNat⟩ := by
  have hpow := exponent_le hk
  exact ⟨le_alignUp hk (by omega), (headFits_iff hk hhigh hsize).mp hfits⟩

end Fit

/-- A block of another region is on another list. -/
theorem Separate.other_head {blockBuf : U64} {r r' : MemoryRegion} (h : Separate r r')
    {k : Nat} (hr' : r'.freeBlocks = descriptor blockBuf k) (hne : r'.freeBlocks ≠ 0) {j : Nat}
    (hr : r.freeBlocks = descriptor blockBuf j) : j ≠ k := by
  rintro rfl
  rcases h.2 with hzero | hdiff
  · rw [hr, ← hr'] at hzero
    exact hne hzero
  · exact hdiff (hr.trans hr'.symm)

/-- A span inside one region adds nothing to the account of another. -/
theorem Separate.account_cons {r r' : MemoryRegion} (h : Separate r r') {s : Span}
    (hs : Inside s (regionSpan r')) (ss : List Span) {x : Nat} (hx : x ∈ regionSpan r) :
    cover (s :: ss) x = cover ss x := by
  have hout : x ∉ s := fun hin => h.1 x hx (hs.mem hin)
  rw [cover_cons, if_neg hout, Nat.zero_add]

/-- The dropped tail is booked under the region it came from, and no other. -/
theorem lostIn_append_lostByCut {block : Span} {a n : Nat} {region : MemoryRegion}
    (hcut : Inside ⟨a, n⟩ block) (hblock : Inside block (regionSpan region)) (lost : List Span) :
    lostIn (lost ++ lostByCut block a n) region = lostIn lost region ++ lostByCut block a n := by
  have hall : (lostByCut block a n).filter (fun s => decide (Inside s (regionSpan region))) =
      lostByCut block a n :=
    List.filter_eq_self.mpr fun s hs => decide_eq_true ((mem_lostByCut hcut hs).1.trans hblock)
  rw [lostIn, List.filter_append, hall]
  rfl

theorem Separate.lostIn_append_lostByCut {r r' : MemoryRegion} (h : Separate r r') {block : Span}
    {a n : Nat} (hcut : Inside ⟨a, n⟩ block) (hblock : Inside block (regionSpan r'))
    (lost : List Span) : lostIn (lost ++ lostByCut block a n) r = lostIn lost r := by
  have hnone : (lostByCut block a n).filter (fun s => decide (Inside s (regionSpan r))) = [] := by
    rw [List.filter_eq_nil_iff]
    intro s hs hin
    obtain ⟨hs', hpos⟩ := mem_lostByCut hcut hs
    have hbase : s.base ∈ s := ⟨le_rfl, by omega⟩
    exact h.1 s.base ((of_decide_eq_true hin).mem hbase) ((hs'.trans hblock).mem hbase)
  rw [lostIn, List.filter_append, hnone, List.append_nil]
  rfl

/-- What a successful call hands out of a region. -/
structure Granted (blockBuf : U64) (st st' : State) (region : MemoryRegion) (k : Nat)
    (r size : U64) : Prop where
  aligned : 2 ^ k ∣ r.toNat
  inside : Inside ⟨r.toNat, size.toNat⟩ (regionSpan region)
  zero : ∀ x, Within x r size.toNat → st'.mem x = 0
  frame : ∀ x, ¬ Within x r size.toNat → ¬ Within x blockBuf bufBytes → st'.mem x = st.mem x

/-- The tail that the cut of the head block drops, empty unless both sides remain. -/
def droppedTail (st : State) (region : MemoryRegion) (size alignment : U64) : List Span :=
  lostByCut (blockSpan st.mem region.freeBlocks)
    (alignUp (blockBase st.mem region.freeBlocks) alignment).toNat size.toNat

/-- The region entry that a cut of its head block leaves behind. -/
def cutRegion (region : MemoryRegion) (freeBlocks size : U64) : MemoryRegion :=
  { region with freeBytes := region.freeBytes - size, freeBlocks := freeBlocks }

/-- The state after the split and before the fill. -/
def cutState (st : State) (i : Nat) (region : MemoryRegion) (split : SplitResult) (size : U64) :
    State :=
  { st with
    regions := st.regions.set i (cutRegion region split.freeBlocks size)
    freeBytes := st.freeBytes - size
    blockAllocator := split.slab
    mem := split.mem }

section Cut

variable {blockBuf : U64} {w : World} {used used' : Nat} {lost : List Span} {i j : Nat}
  {region : MemoryRegion} {split : SplitResult} {a : Nat} {size : U64}

/-- The region that is cut: the head block is shared out between what stays on
the list, the grant and the dropped tail. -/
theorem RegionInv.cut {grants : List Span}
    (h : RegionInv blockBuf w.st.mem used grants lost region)
    (hdesc : region.freeBlocks = descriptor blockBuf j) (hne : region.freeBlocks ≠ 0)
    (hj : j < used) (hnext : blockNext w.st.mem (descriptor blockBuf j) = 0)
    (hsplit : SplitOk blockBuf w.st.mem used j ⟨a, size.toNat⟩ split used')
    (hcut : Inside ⟨a, size.toNat⟩ (blockSpan w.st.mem region.freeBlocks))
    (hsize : size.toNat ≤ region.freeBytes.toNat) :
    RegionInv blockBuf split.mem used' (⟨a, size.toNat⟩ :: grants)
      (lost ++ lostByCut (blockSpan w.st.mem region.freeBlocks) a size.toNat)
      (cutRegion region split.freeBlocks size) := by
  set block := blockSpan w.st.mem region.freeBlocks with hblock
  have hheld : heldAt w.st.mem region.freeBlocks = [block] := heldAt_of_ne hne
  have hheld' : heldAt split.mem split.freeBlocks = keptByCut block a size.toNat := by
    rw [hsplit.held, hblock, hdesc]
  have hinside : Inside block (regionSpan region) ∧ 0 < block.length :=
    h.inside block (by rw [hheld]; exact List.mem_singleton_self _)
  have hfree : (region.freeBytes - size).toNat = region.freeBytes.toNat - size.toNat :=
    BitVec.toNat_sub_of_le (by rwa [BitVec.le_def])
  refine ⟨h.high, h.buf, ?_, ?_, ?_, ?_, ?_⟩
  · rcases hsplit.freeBlocks with hsame | hzero
    · exact .inr ⟨j, hj.trans_le hsplit.used_le, hsame, hsplit.next.trans hnext⟩
    · exact .inl hzero
  · intro s hs
    rw [cutRegion, hheld'] at hs
    obtain ⟨hin, hpos⟩ := inside_of_mem_keptByCut hcut hs
    exact ⟨hin.trans hinside.1, hpos⟩
  · intro x hx
    have hold := h.partition x hx
    have hsum := cover_cut hcut x
    rw [cover_singleton] at hsum
    rw [hheld] at hold
    rw [cutRegion, hheld', cover_cons, cover_append]
    omega
  · have hold := h.free_eq
    have hsum := total_cut hcut
    rw [hheld, show total [block] = block.length by simp [total]] at hold
    rw [show lostIn (lost ++ lostByCut block a size.toNat)
      (cutRegion region split.freeBlocks size) = lostIn lost region ++ lostByCut block a size.toNat
        from @lostIn_append_lostByCut block a size.toNat region hcut hinside.1 lost, total_append,
      cutRegion, hheld', hfree]
    omega
  · exact (hfree.le.trans (Nat.sub_le _ _)).trans h.free_le

/-- The other regions keep their list, and no byte of theirs changes hands. -/
theorem RegionInv.cutOther {grants : List Span} {other : MemoryRegion}
    (h : RegionInv blockBuf w.st.mem used grants lost other) (hsep : Separate other region)
    (hfit : blockBuf.toNat + bufBytes < 2 ^ 64) (hused : used ≤ 64)
    (hdesc : region.freeBlocks = descriptor blockBuf j) (hne : region.freeBlocks ≠ 0)
    (hsplit : SplitOk blockBuf w.st.mem used j ⟨a, size.toNat⟩ split used')
    (hblock : Inside (blockSpan w.st.mem region.freeBlocks) (regionSpan region))
    (hcut : Inside ⟨a, size.toNat⟩ (blockSpan w.st.mem region.freeBlocks)) :
    RegionInv blockBuf split.mem used' (⟨a, size.toNat⟩ :: grants)
      (lost ++ lostByCut (blockSpan w.st.mem region.freeBlocks) a size.toNat) other := by
  obtain ⟨hhead, hheld⟩ := h.head.congr hfit hused hsplit.used_le fun k hk hother =>
    hsplit.frameOthers k hk (hsep.other_head hdesc hne hother)
  refine h.congr hhead hheld ?_ ?_ ?_
  · intro x hx
    exact hsep.account_cons (hcut.trans hblock) _ hx
  · intro x hx
    have hout : x ∉ blockSpan w.st.mem region.freeBlocks := fun hin => hsep.1 x hx (hblock.mem hin)
    rw [cover_append, cover_lostByCut_eq_zero hcut hout, Nat.add_zero]
  · rw [hsep.lostIn_append_lostByCut hcut hblock]

/-- An entry of a table with one row replaced is the new row or one elsewhere. -/
theorem getElem?_set_cases {α : Type} {l : List α} {a b : α} {i n : Nat}
    (h : (l.set i a)[n]? = some b) : (n = i ∧ b = a) ∨ (n ≠ i ∧ l[n]? = some b) := by
  by_cases hni : n = i
  · subst hni
    rw [List.getElem?_set_self'] at h
    obtain ⟨_, -, hb⟩ := Option.map_eq_some_iff.mp h
    exact .inl ⟨rfl, hb.symm⟩
  · rw [List.getElem?_set_ne (Ne.symm hni)] at h
    exact .inr ⟨hni, h⟩

/-- The split step: every part of the invariant but the grant's contents. -/
theorem Inv.cut (h : Inv blockBuf w used lost) (hi : w.st.regions[i]? = some region)
    (hdesc : region.freeBlocks = descriptor blockBuf j) (hne : region.freeBlocks ≠ 0)
    (hj : j < used) (hnext : blockNext w.st.mem (descriptor blockBuf j) = 0)
    (hsplit : SplitOk blockBuf w.st.mem used j ⟨a, size.toNat⟩ split used')
    (hcut : Inside ⟨a, size.toNat⟩ (blockSpan w.st.mem region.freeBlocks))
    (hsize : size.toNat ≤ region.freeBytes.toNat) :
    Inv blockBuf ⟨cutState w.st i region split size, w.offered, ⟨a, size.toNat⟩ :: w.grants⟩ used'
      (lost ++ lostByCut (blockSpan w.st.mem region.freeBlocks) a size.toNat) := by
  have hfit := h.slab.fits
  have hused := h.slab.used_le
  have hmem : region ∈ w.st.regions := List.mem_of_getElem? hi
  have hregion := h.regions region hmem
  have hheld : heldAt w.st.mem region.freeBlocks = [blockSpan w.st.mem region.freeBlocks] :=
    heldAt_of_ne hne
  have hblock : Inside (blockSpan w.st.mem region.freeBlocks) (regionSpan region) :=
    (hregion.inside _ (by rw [hheld]; exact List.mem_singleton_self _)).1
  have hlen : i < w.st.regions.length := (List.getElem?_eq_some_iff.mp hi).1
  -- a region of the new table is the cut one or an old one elsewhere in the table
  have hnew : ∀ (n : Nat) (r : MemoryRegion),
      (cutState w.st i region split size).regions[n]? = some r →
      (n = i ∧ r = cutRegion region split.freeBlocks size) ∨
        (n ≠ i ∧ w.st.regions[n]? = some r) :=
    fun _ _ => getElem?_set_cases
  have hkept : ∀ r ∈ w.st.regions, ∃ r' ∈ (cutState w.st i region split size).regions,
      regionSpan r' = regionSpan r := by
    intro r hr
    obtain ⟨n, hn⟩ := List.getElem?_of_mem hr
    by_cases hni : n = i
    · subst hni
      rw [hi] at hn
      refine ⟨cutRegion region split.freeBlocks size, ?_, by rw [← Option.some.inj hn]; rfl⟩
      exact List.mem_of_getElem? (List.getElem?_set_self hlen)
    · exact ⟨r, List.mem_of_getElem? ((List.getElem?_set_ne (Ne.symm hni)).trans hn), rfl⟩
  refine ⟨hsplit.slab, h.pol, ?_, ?_, ?_, ?_, ?_⟩
  · intro r hr
    obtain ⟨n, hn⟩ := List.getElem?_of_mem hr
    rcases hnew n r hn with ⟨-, rfl⟩ | ⟨-, hold⟩
    · exact h.offered region hmem
    · exact h.offered r (List.mem_of_getElem? hold)
  · intro r hr
    obtain ⟨n, hn⟩ := List.getElem?_of_mem hr
    rcases hnew n r hn with ⟨-, rfl⟩ | ⟨hni, hold⟩
    · exact hregion.cut hdesc hne hj hnext hsplit hcut hsize
    · exact (h.regions r (List.mem_of_getElem? hold)).cutOther
        (h.separate n i r region hold hi hni) hfit hused hdesc hne hsplit hblock hcut
  · have hhead : split.freeBlocks = region.freeBlocks ∨ split.freeBlocks = 0 := by
      rw [hdesc]
      exact hsplit.freeBlocks
    intro n n' r r' hn hn' hnn
    rcases hnew n r hn with ⟨rfl, rfl⟩ | ⟨hni, hold⟩ <;>
      rcases hnew n' r' hn' with ⟨rfl, rfl⟩ | ⟨hni', hold'⟩
    · exact absurd rfl hnn
    · obtain ⟨hspans, hlists⟩ := h.separate n n' region r' hi hold' hnn
      refine ⟨hspans, ?_⟩
      rcases hhead with hsame | hzero
      · rw [cutRegion, hsame]
        exact hlists
      · exact .inl hzero
    · obtain ⟨hspans, hlists⟩ := h.separate n n' r region hold hi hnn
      refine ⟨hspans, ?_⟩
      rcases hhead with hsame | hzero
      · rw [cutRegion, hsame]
        exact hlists
      · rw [cutRegion, hzero]
        by_cases hempty : r.freeBlocks = 0
        · exact .inl hempty
        · exact .inr hempty
    · exact h.separate n n' r r' hold hold' hnn
  · intro g hg
    rcases List.mem_cons.mp hg with rfl | hg
    · obtain ⟨r', hr', hspan⟩ := hkept region hmem
      exact ⟨r', hr', hspan ▸ hcut.trans hblock⟩
    · obtain ⟨r, hr, hin⟩ := h.grants g hg
      obtain ⟨r', hr', hspan⟩ := hkept r hr
      exact ⟨r', hr', hspan ▸ hin⟩
  · intro g hg
    rcases List.mem_append.mp hg with hg | hg
    · obtain ⟨hpos, r, hr, hin⟩ := h.lost g hg
      obtain ⟨r', hr', hspan⟩ := hkept r hr
      exact ⟨hpos, r', hr', hspan ▸ hin⟩
    · obtain ⟨r', hr', hspan⟩ := hkept region hmem
      obtain ⟨hin, hpos⟩ := mem_lostByCut hcut hg
      exact ⟨hpos, r', hr', hspan ▸ hin.trans hblock⟩

end Cut

theorem allocFromRegion_spec {blockBuf : U64} {w : World} {used : Nat} {lost : List Span}
    {i : Nat} {region : MemoryRegion} {size alignment : U64} {k : Nat} {err : Error}
    {ret : Option U64} {st' : State} (h : Inv blockBuf w used lost) (hused : used < 64)
    (hi : w.st.regions[i]? = some region) (hhead : region.freeBlocks ≠ 0)
    (hsize : ¬ region.freeBytes < size) (hk : alignment.toNat = 2 ^ k)
    (hcall : allocFromRegion w.st i region size alignment = .ok (err, ret, st')) :
    ∃ r used', err = .ofCode .success ∧ ret = some r ∧
      Granted blockBuf w.st st' region k r size ∧
      Inv blockBuf ⟨st', w.offered, ⟨r.toNat, size.toNat⟩ :: w.grants⟩ used'
        (lost ++ droppedTail w.st region size alignment) := by
  have hfit := h.slab.fits
  have hmem : region ∈ w.st.regions := List.mem_of_getElem? hi
  have hregion := h.regions region hmem
  obtain ⟨j, hj, hdesc, hnext⟩ := hregion.head.resolve_left hhead
  have hheld : heldAt w.st.mem region.freeBlocks = [blockSpan w.st.mem region.freeBlocks] :=
    heldAt_of_ne hhead
  have hblock : Inside (blockSpan w.st.mem region.freeBlocks) (regionSpan region) :=
    (hregion.inside _ (by rw [hheld]; exact List.mem_singleton_self _)).1
  have hhigh := hregion.high
  have hfreeLe := hregion.free_le
  have hsizeLe : size.toNat ≤ region.freeBytes.toNat := by
    rwa [BitVec.lt_def, Nat.not_lt] at hsize
  have hend : (blockBase w.st.mem region.freeBlocks).toNat +
      (blockLength w.st.mem region.freeBlocks).toNat ≤ 2 ^ 56 := hblock.2.trans hhigh
  obtain ⟨split, hsplit, hcall⟩ := bind_eq_ok.mp hcall
  set b := blockBase w.st.mem region.freeBlocks with hb
  set n := blockLength w.st.mem region.freeBlocks with hn
  -- a head that is too small has no successor, and the split would dereference null
  have hfits : ¬ b + n < alignUp b alignment + size := by
    intro hsmall
    rw [if_pos hsmall, if_pos hsmall, hdesc, hnext] at hsplit
    obtain ⟨_, hderef, _⟩ := bind_eq_ok.mp hsplit
    exact deref_eq_ok.mp hderef rfl
  rw [if_neg hfits, if_neg hfits, hdesc] at hsplit
  have hcut : Inside ⟨(alignUp b alignment).toNat, size.toNat⟩ ⟨b.toNat, n.toNat⟩ :=
    inside_of_headFits hk hend (by omega) hfits
  rw [hb, hn, hdesc] at hcut hend hsplit
  obtain ⟨used', hok⟩ := splitBlock_spec h.slab hused hj hnext hcut.1 hcut.2 (by omega) hsplit
  obtain ⟨_, _, hcall⟩ := bind_eq_ok.mp hcall
  obtain ⟨rfl, hrest⟩ := Prod.mk.inj (pure_eq_ok.mp hcall)
  obtain ⟨rfl, rfl⟩ := Prod.mk.inj hrest
  rw [← hdesc, ← hb, ← hn] at hcut
  rw [← hdesc, ← hb] at hok
  have hgrantIn := hcut.trans hblock
  have hbuf : Disjoint ⟨(alignUp b alignment).toNat, size.toNat⟩ (bufSpan blockBuf) :=
    hregion.buf.mono hgrantIn ⟨le_rfl, le_rfl⟩
  have hfill := Memory.fill_eq_setRange split.mem (alignUp b alignment) 0
    (show size.toNat ≤ 2 ^ 64 by omega)
  have hlast : (alignUp b alignment).toNat + size.toNat ≤
      region.base.toNat + region.length.toNat := hgrantIn.2
  have hrange : (alignUp b alignment).toNat + size.toNat ≤ 2 ^ 64 := by omega
  have hframe : ∀ x, Within x blockBuf bufBytes →
      Memory.fill split.mem (alignUp b alignment) 0 size.toNat x = split.mem x := by
    intro x hx
    rw [hfill]
    apply setRange_apply_of_not_within
    intro hin
    rw [within_iff hrange] at hin
    rw [within_iff hfit.le] at hx
    exact hbuf x.toNat hin hx
  have hinv := (h.cut hi hdesc hhead hj hnext hok hcut hsizeLe).frame hframe
  refine ⟨alignUp b alignment, used', rfl, rfl, ⟨dvd_alignUp hk, hgrantIn, ?_, ?_⟩, hinv⟩
  · intro x hx
    change Memory.fill split.mem (alignUp b alignment) 0 size.toNat x = 0
    rw [hfill, setRange_apply_of_within hx]
  · intro x hx hout
    change Memory.fill split.mem (alignUp b alignment) 0 size.toNat x = w.st.mem x
    rw [hfill, setRange_apply_of_not_within hx, hok.frameBuf x hout]

/-- The regions the search looks into: enough free bytes and a list to walk. -/
def hasRoom (size : U64) (region : MemoryRegion) : Bool :=
  !decide (region.freeBytes < size) && region.freeBlocks != 0

theorem hasRoom_eq_true {size : U64} {region : MemoryRegion} :
    hasRoom size region = true ↔ ¬ region.freeBytes < size ∧ region.freeBlocks ≠ 0 := by
  simp [hasRoom]

/-- The search settles on the first region with room, whatever comes of it. -/
theorem searchRegions_cases {st : State} {size alignment : U64} {i : Nat}
    {rest : List MemoryRegion} {err : Error} {ret : Option U64} {st' : State}
    (h : searchRegions st size alignment i rest = .ok (err, ret, st')) :
    (err = .ofCode .pmmOutOfMem ∧ ret = some 0 ∧ st' = st ∧ rest.find? (hasRoom size) = none) ∨
      ∃ j region, rest[j]? = some region ∧ rest.find? (hasRoom size) = some region ∧
        allocFromRegion st (i + j) region size alignment = .ok (err, ret, st') := by
  induction rest generalizing i with
  | nil =>
    obtain ⟨rfl, rfl, rfl⟩ := ok_triple_inj h
    exact .inl ⟨rfl, rfl, rfl, rfl⟩
  | cons region rest ih =>
    by_cases hroom : hasRoom size region = true
    · obtain ⟨hbytes, hlist⟩ := hasRoom_eq_true.mp hroom
      rw [searchRegions, if_neg hbytes, if_neg hlist] at h
      exact .inr ⟨0, region, rfl, by rw [List.find?_cons_of_pos hroom], h⟩
    · have hnext : searchRegions st size alignment (i + 1) rest = .ok (err, ret, st') := by
        rw [hasRoom_eq_true] at hroom
        rw [searchRegions] at h
        by_cases hbytes : region.freeBytes < size
        · rwa [if_pos hbytes] at h
        · rwa [if_neg hbytes, if_pos (by_contra fun hlist => hroom ⟨hbytes, hlist⟩)] at h
      rcases ih hnext with ⟨herr, hret, hst, hnone⟩ | ⟨j, found, hj, hfind, hcall⟩
      · exact .inl ⟨herr, hret, hst, by rw [List.find?_cons_of_neg hroom, hnone]⟩
      · refine .inr ⟨j + 1, found, hj, ?_, ?_⟩
        · rw [List.find?_cons_of_neg hroom, hfind]
        · rwa [Nat.add_assoc, Nat.add_comm 1 j] at hcall

theorem searchRegions_of_find? {st : State} {size alignment : U64} {i : Nat}
    {rest : List MemoryRegion} (h : rest.find? (hasRoom size) = none) :
    searchRegions st size alignment i rest = .ok (.ofCode .pmmOutOfMem, some 0, st) := by
  induction rest generalizing i with
  | nil => rfl
  | cons region rest ih =>
    have hroom := List.find?_eq_none.mp h region List.mem_cons_self
    rw [List.find?_cons_of_neg hroom] at h
    rw [searchRegions, ih h]
    by_cases hbytes : region.freeBytes < size
    · rw [if_pos hbytes]
    · have hlist : region.freeBlocks = 0 := by
        by_contra hne
        exact hroom (hasRoom_eq_true.mpr ⟨hbytes, hne⟩)
      rw [if_neg hbytes, if_pos hlist]

/-- A call that gets as far as a free list. -/
structure Reaches (st : State) (size alignment : U64) (ret : Option U64)
    (region : MemoryRegion) : Prop where
  ret : ret.isSome
  alignment : badAlignment alignment = false
  free : ¬ st.freeBytes < alignUp size pageSize
  descriptors : ¬ st.blockAllocator.free < 16
  pol : st.pol = .firstFit
  found : st.regions.find? (hasRoom (alignUp size pageSize)) = some region

theorem reaches_iff {st : State} {size alignment : U64} {ret : Option U64}
    {region : MemoryRegion} :
    Reaches st size alignment ret region ↔
      ret.isSome ∧ badAlignment alignment = false ∧ ¬ st.freeBytes < alignUp size pageSize ∧
        ¬ st.blockAllocator.free < 16 ∧ st.pol = .firstFit ∧
        st.regions.find? (hasRoom (alignUp size pageSize)) = some region :=
  ⟨fun h => ⟨h.ret, h.alignment, h.free, h.descriptors, h.pol, h.found⟩,
    fun ⟨hret, halign, hfree, hslab, hpol, hfound⟩ => ⟨hret, halign, hfree, hslab, hpol, hfound⟩⟩

theorem Reaches.room {st : State} {size alignment : U64} {ret : Option U64}
    {region : MemoryRegion} (h : Reaches st size alignment ret region) :
    ¬ region.freeBytes < alignUp size pageSize ∧ region.freeBlocks ≠ 0 :=
  hasRoom_eq_true.mp (List.find?_some h.found)

instance {st : State} {size alignment : U64} {ret : Option U64} {region : MemoryRegion} :
    Decidable (Reaches st size alignment ret region) :=
  decidable_of_iff _ reaches_iff.symm

/-- A call that returns has refused and changed nothing, or has cut its grant out
of the first region with room. -/
theorem allocAligned_cases {st : State} {size alignment : U64} {ret : Option U64} {err : Error}
    {ret' : Option U64} {st' : State}
    (h : allocAligned st size alignment ret = .ok (err, ret', st')) :
    (err.isOk = false ∧ st' = st ∧ (ret' = ret.map fun _ => 0) ∧
        ∀ region, ¬ Reaches st size alignment ret region) ∨
      ∃ i region, st.regions[i]? = some region ∧ Reaches st size alignment ret region ∧
        allocFromRegion st i region (alignUp size pageSize) alignment =
          .ok (err, ret', st') := by
  unfold allocAligned at h
  dsimp only at h
  split at h
  · rename_i hnull
    obtain rfl := Option.isNone_iff_eq_none.mp hnull
    obtain ⟨rfl, rfl, rfl⟩ := ok_triple_inj h
    exact .inl ⟨rfl, rfl, rfl, fun _ hreach => nomatch hreach.ret⟩
  rename_i hret
  obtain ⟨old, rfl⟩ : ∃ old, ret = some old := Option.ne_none_iff_exists'.mp (by simpa using hret)
  split at h
  · rename_i halign
    obtain ⟨rfl, rfl, rfl⟩ := ok_triple_inj h
    refine .inl ⟨rfl, rfl, rfl, fun _ hreach => ?_⟩
    rw [hreach.alignment] at halign
    exact nomatch halign
  rename_i halign
  split at h
  · rename_i hfree
    obtain ⟨rfl, rfl, rfl⟩ := ok_triple_inj h
    exact .inl ⟨rfl, rfl, rfl, fun _ hreach => hreach.free hfree⟩
  rename_i hfree
  split at h
  · exact nomatch h
  rename_i hslab
  split at h
  · exact nomatch h
  rename_i hpol
  rcases searchRegions_cases h with ⟨rfl, rfl, rfl, hnone⟩ | ⟨j, region, hj, hfind, hcall⟩
  · refine .inl ⟨rfl, rfl, rfl, fun _ hreach => ?_⟩
    exact nomatch hnone.symm.trans hreach.found
  · rw [Nat.zero_add] at hcall
    exact .inr ⟨j, region, hj, ⟨rfl, by simpa using halign, hfree, hslab, not_not.mp hpol, hfind⟩,
      hcall⟩

theorem exponent_of_badAlignment {alignment : U64} (h : badAlignment alignment = false) :
    ∃ k, alignment.toNat = 2 ^ k := by
  rw [badAlignment, Bool.or_eq_false_iff, decide_eq_false_iff_not, bne_eq_false_iff_eq] at h
  obtain ⟨hlarge, hpow⟩ := h
  obtain ⟨k, -, hk⟩ :=
    exists_two_pow_of_and_sub_one alignment (by rintro rfl; exact hlarge (by decide)) hpow
  exact ⟨k, hk⟩

/-- A success that the invariant explains. -/
theorem allocAligned_spec {blockBuf : U64} {w : World} {used : Nat} {lost : List Span}
    {size alignment : U64} {ret ret' : Option U64} {err : Error} {st' : State}
    (h : Inv blockBuf w used lost)
    (hcall : allocAligned w.st size alignment ret = .ok (err, ret', st')) :
    (err.isOk = false ∧ st' = w.st ∧ (ret' = ret.map fun _ => 0) ∧
        ∀ region, ¬ Reaches w.st size alignment ret region) ∨
      ∃ region ∈ w.st.regions, ∃ k r used', alignment.toNat = 2 ^ k ∧ err = .ofCode .success ∧
        ret' = some r ∧ Reaches w.st size alignment ret region ∧
        Granted blockBuf w.st st' region k r (alignUp size pageSize) ∧
        Inv blockBuf ⟨st', w.offered, recordGrant w.grants err ret' size⟩ used'
          (lost ++ droppedTail w.st region (alignUp size pageSize) alignment) := by
  rcases allocAligned_cases hcall with hrefused | ⟨i, region, hi, hreach, hsearch⟩
  · exact .inl hrefused
  · obtain ⟨k, hk⟩ := exponent_of_badAlignment hreach.alignment
    obtain ⟨hbytes, hlist⟩ := hreach.room
    have hused : used < 64 := by
      have hle := h.slab.used_le
      have hslab := hreach.descriptors
      rw [h.slab.free_eq, BitVec.lt_def, BitVec.toNat_ofNat,
        show (16 : U64).toNat = 16 from rfl] at hslab
      omega
    obtain ⟨r, used', herr, hret', hgrant, hinv⟩ :=
      allocFromRegion_spec h hused hi hlist hbytes hk hsearch
    refine .inr ⟨region, List.mem_of_getElem? hi, k, r, used', hk, herr, hret', hreach, hgrant, ?_⟩
    rw [herr, hret']
    exact hinv

end Octiron.Pmm
