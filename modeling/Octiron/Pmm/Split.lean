import Octiron.Pmm.Runs

/-! What one successful allocation does to a region whose list has a single
block: the block is cut around the granted range, and when something is left on
both sides the part behind the cut is dropped. -/
namespace Octiron.Pmm

open Lib Lib.Word Lib.ByteMemory Lib.Span Exec

/-- The blocks of a list with at most one element. -/
def heldAt (m : Mem) (freeBlocks : U64) : List Span :=
  if freeBlocks = 0 then [] else [blockSpan m freeBlocks]

/-- Memory outside `BLOCK_BUF` is untouched. -/
def FrameBuf (blockBuf : U64) (m m' : Mem) : Prop :=
  ∀ x, ¬ Within x blockBuf bufBytes → m' x = m x

/-- The handed-out descriptors other than the `k`-th are untouched. -/
def FrameOthers (blockBuf : U64) (used k : Nat) (m m' : Mem) : Prop :=
  ∀ j < used, j ≠ k → ∀ x, Within x (descriptor blockBuf j) 24 → m' x = m x

/-- Only the bytes of the `k`-th descriptor have changed. -/
def OnlyDescriptor (blockBuf : U64) (k : Nat) (m m' : Mem) : Prop :=
  ∀ x, ¬ Within x (descriptor blockBuf k) 24 → m' x = m x

theorem OnlyDescriptor.trans {blockBuf : U64} {k : Nat} {m m' m'' : Mem}
    (h : OnlyDescriptor blockBuf k m m') (h' : OnlyDescriptor blockBuf k m' m'') :
    OnlyDescriptor blockBuf k m m'' :=
  fun x hx => (h' x hx).trans (h x hx)

section Fields

variable {blockBuf : U64} (hfit : blockBuf.toNat + bufBytes < 2 ^ 64)
include hfit

/-- The bytes of two descriptors, and of the header and a descriptor, are apart. -/
theorem not_within_descriptor {j k : Nat} (hj : j < 64) (hk : k < 64) (hne : j ≠ k) {x : U64}
    (hx : Within x (descriptor blockBuf j) 24) : ¬ Within x (descriptor blockBuf k) 24 := by
  obtain ⟨hj', _, _, hend⟩ := descriptor_layout hfit hj
  obtain ⟨hk', _, _, _⟩ := descriptor_layout hfit hk
  rw [within_iff (by omega)] at hx ⊢
  omega

theorem not_within_of_header {k : Nat} (hk : k < 64) {x : U64} (hx : Within x blockBuf 32) :
    ¬ Within x (descriptor blockBuf k) 24 := by
  obtain ⟨hk', _, _, hend⟩ := descriptor_layout hfit hk
  rw [within_iff (by omega)] at hx ⊢
  omega

theorem within_buf_of_descriptor {k : Nat} (hk : k < 64) {x : U64}
    (hx : Within x (descriptor blockBuf k) 24) : Within x blockBuf bufBytes := by
  obtain ⟨hk', _, _, hend⟩ := descriptor_layout hfit hk
  rw [bufBytes, within_iff (by omega)]
  rw [within_iff (by omega)] at hx
  omega

theorem within_buf_of_header {x : U64} (hx : Within x blockBuf 32) :
    Within x blockBuf bufBytes := by
  obtain ⟨_, _, _, hend⟩ := header_layout hfit
  rw [bufBytes, within_iff (by omega)]
  rw [within_iff (by omega)] at hx
  omega

/-- The three fields of a descriptor are its 24 bytes. -/
theorem fields_congr {m m' : Mem} {k : Nat} (hk : k < 64)
    (h : ∀ x, Within x (descriptor blockBuf k) 24 → m' x = m x) :
    blockSpan m' (descriptor blockBuf k) = blockSpan m (descriptor blockBuf k) ∧
      blockNext m' (descriptor blockBuf k) = blockNext m (descriptor blockBuf k) := by
  obtain ⟨hdesc, h8, h16, hend⟩ := descriptor_layout hfit hk
  have hfield : ∀ a : U64, blockBuf.toNat + 32 + 24 * k ≤ a.toNat →
      a.toNat + 8 ≤ blockBuf.toNat + 32 + 24 * k + 24 → load64 m' a = load64 m a := by
    intro a hlow hhigh
    apply load64_congr
    intro x hx
    apply h
    rw [within_iff (by omega)] at hx ⊢
    omega
  constructor
  · rw [blockSpan, blockBase, blockLength, hfield _ (by omega) (by omega),
      hfield _ (by omega) (by omega), blockSpan, blockBase, blockLength]
  · exact hfield _ (by omega) (by omega)

theorem setBlockBase_spec {m : Mem} {k : Nat} (hk : k < 64) (v : U64) :
    let m' := setBlockBase m (descriptor blockBuf k) v
    blockBase m' (descriptor blockBuf k) = v ∧
      blockLength m' (descriptor blockBuf k) = blockLength m (descriptor blockBuf k) ∧
      blockNext m' (descriptor blockBuf k) = blockNext m (descriptor blockBuf k) ∧
      OnlyDescriptor blockBuf k m m' := by
  obtain ⟨hdesc, h8, h16, hend⟩ := descriptor_layout hfit hk
  refine ⟨load64_store64_same _ _ _,
    load64_store64_apart (apart_of_le (by omega) (by omega) (by omega)),
    load64_store64_apart (apart_of_le (by omega) (by omega) (by omega)), fun x hx => ?_⟩
  apply store64_apply_of_not_within
  rw [within_iff (by omega)] at hx ⊢
  omega

theorem setBlockLength_spec {m : Mem} {k : Nat} (hk : k < 64) (v : U64) :
    let m' := setBlockLength m (descriptor blockBuf k) v
    blockBase m' (descriptor blockBuf k) = blockBase m (descriptor blockBuf k) ∧
      blockLength m' (descriptor blockBuf k) = v ∧
      blockNext m' (descriptor blockBuf k) = blockNext m (descriptor blockBuf k) ∧
      OnlyDescriptor blockBuf k m m' := by
  obtain ⟨hdesc, h8, h16, hend⟩ := descriptor_layout hfit hk
  refine ⟨load64_store64_apart (apart_of_le (by omega) (by omega) (by omega)),
    load64_store64_same _ _ _,
    load64_store64_apart (apart_of_le (by omega) (by omega) (by omega)), fun x hx => ?_⟩
  apply store64_apply_of_not_within
  rw [within_iff (by omega)] at hx ⊢
  omega

theorem setBlockNext_spec {m : Mem} {k : Nat} (hk : k < 64) (v : U64) :
    let m' := setBlockNext m (descriptor blockBuf k) v
    blockBase m' (descriptor blockBuf k) = blockBase m (descriptor blockBuf k) ∧
      blockLength m' (descriptor blockBuf k) = blockLength m (descriptor blockBuf k) ∧
      blockNext m' (descriptor blockBuf k) = v ∧
      OnlyDescriptor blockBuf k m m' := by
  obtain ⟨hdesc, h8, h16, hend⟩ := descriptor_layout hfit hk
  refine ⟨load64_store64_apart (apart_of_le (by omega) (by omega) (by omega)),
    load64_store64_apart (apart_of_le (by omega) (by omega) (by omega)),
    load64_store64_same _ _ _, fun x hx => ?_⟩
  apply store64_apply_of_not_within
  rw [within_iff (by omega)] at hx ⊢
  omega

/-- A descriptor filled in for a fresh block, the last of its list. -/
theorem fillBlock_spec {m : Mem} {k : Nat} (hk : k < 64) (base size : U64) :
    let m' := setBlockNext (setBlockLength (setBlockBase m (descriptor blockBuf k) base)
      (descriptor blockBuf k) size) (descriptor blockBuf k) 0
    blockSpan m' (descriptor blockBuf k) = ⟨base.toNat, size.toNat⟩ ∧
      blockNext m' (descriptor blockBuf k) = 0 ∧ OnlyDescriptor blockBuf k m m' := by
  obtain ⟨hbase, -, -, honly₁⟩ := setBlockBase_spec hfit (m := m) hk base
  set m₁ := setBlockBase m (descriptor blockBuf k) base
  obtain ⟨hbase₁, hlength, -, honly₂⟩ := setBlockLength_spec hfit (m := m₁) hk size
  set m₂ := setBlockLength m₁ (descriptor blockBuf k) size
  obtain ⟨hbase₂, hlength₁, hnext, honly₃⟩ := setBlockNext_spec hfit (m := m₂) hk 0
  refine ⟨?_, hnext, (honly₁.trans honly₂).trans honly₃⟩
  rw [blockSpan, hbase₂, hbase₁, hbase, hlength₁, hlength]

/-- Dequeuing one descriptor leaves the others as they are. -/
theorem FrameDescriptor.other {m m' : Mem} {j k : Nat} (h : FrameDescriptor blockBuf k m m')
    (hj : j < 64) (hk : k < 64) (hne : j ≠ k) {x : U64} (hx : Within x (descriptor blockBuf j) 24) :
    m' x = m x :=
  h x (fun hin => not_within_of_header hfit hj hin hx) (not_within_descriptor hfit hj hk hne hx)

theorem FrameDescriptor.frameBuf {m m' : Mem} {k : Nat} (h : FrameDescriptor blockBuf k m m')
    (hk : k < 64) : FrameBuf blockBuf m m' :=
  fun x hx => h x (fun hin => hx (within_buf_of_header hfit hin))
    fun hin => hx (within_buf_of_descriptor hfit hk hin)

end Fields

/-- The slab's invariant reads the header and the free descriptors only. -/
theorem SlabInv.congr {blockBuf : U64} {s : Slab.SlabAlloc} {m m' : Mem} {used : Nat}
    (h : SlabInv blockBuf s m used) (hheader : ∀ x, Within x blockBuf 32 → m' x = m x)
    (hfree : ∀ j, used ≤ j → j < 64 → ∀ x, Within x (descriptor blockBuf j) 24 → m' x = m x) :
    SlabInv blockBuf s m' used := by
  have hfit := h.fits
  obtain ⟨h8, h16, _, hend⟩ := header_layout hfit
  have hword : ∀ a : U64, blockBuf.toNat ≤ a.toNat → a.toNat + 8 ≤ blockBuf.toNat + 32 →
      load64 m' a = load64 m a := by
    intro a hlow hhigh
    apply load64_congr
    intro x hx
    apply hheader
    rw [within_iff (by omega)] at hx ⊢
    omega
  refine ⟨h.nonnull, hfit, h.used_le, h.regions_eq, h.total_eq, h.free_eq, ?_, ?_, ?_⟩
  · rw [hword _ (by omega) (by omega), h.header_free]
  · rw [hword _ (by omega) (by omega), h.header_blocks]
  · intro k hlow hk
    rw [← h.link k hlow hk]
    have hdesc := descriptor_toNat hfit hk.le
    apply load64_congr
    intro x hx
    apply hfree k hlow hk
    rw [within_iff (by omega)] at hx ⊢
    omega

/-- Writing to a handed-out descriptor does not disturb the slab. -/
theorem SlabInv.onlyDescriptor {blockBuf : U64} {s : Slab.SlabAlloc} {m m' : Mem}
    {used k : Nat} (h : SlabInv blockBuf s m used) (hk : k < used)
    (honly : OnlyDescriptor blockBuf k m m') : SlabInv blockBuf s m' used := by
  have hused := h.used_le
  apply h.congr
  · intro x hx
    exact honly x (not_within_of_header h.fits (by omega) hx)
  · intro j hlow hj x hx
    exact honly x (not_within_descriptor h.fits hj (by omega) (by omega) hx)

/-- What the split of a region's only block leaves behind. -/
structure SplitOk (blockBuf : U64) (m : Mem) (used k : Nat) (cut : Span)
    (split : SplitResult) (used' : Nat) : Prop where
  used_le : used ≤ used'
  slab : SlabInv blockBuf split.slab split.mem used'
  frameBuf : FrameBuf blockBuf m split.mem
  frameOthers : FrameOthers blockBuf used k m split.mem
  next : blockNext split.mem (descriptor blockBuf k) = blockNext m (descriptor blockBuf k)
  freeBlocks : split.freeBlocks = descriptor blockBuf k ∨ split.freeBlocks = 0
  held : heldAt split.mem split.freeBlocks =
    keptByCut (blockSpan m (descriptor blockBuf k)) cut.base cut.length

section Cut

variable {blockBuf : U64} {st : State} {used k : Nat} {a size : U64}

theorem OnlyDescriptor.frameBuf {m m' : Mem} (hfit : blockBuf.toNat + bufBytes < 2 ^ 64)
    (hk : k < 64) (h : OnlyDescriptor blockBuf k m m') : FrameBuf blockBuf m m' :=
  fun x hx => h x fun hin => hx (within_buf_of_descriptor hfit hk hin)

theorem OnlyDescriptor.frameOthers {m m' : Mem} (hfit : blockBuf.toNat + bufBytes < 2 ^ 64)
    (hk : k < 64) (hused : used ≤ 64) (h : OnlyDescriptor blockBuf k m m') :
    FrameOthers blockBuf used k m m' :=
  fun j hj hne _ hx => h _ (not_within_descriptor hfit (by omega) hk hne hx)

@[simp] theorem heldAt_zero (m : Mem) : heldAt m 0 = [] := if_pos rfl

theorem heldAt_of_ne {m : Mem} {p : U64} (h : p ≠ 0) : heldAt m p = [blockSpan m p] := if_neg h

/-- The split keeps the list head and writes only the head's descriptor. -/
theorem splitOk_of_onlyDescriptor {m' : Mem} {cut : Span}
    (hslab : SlabInv blockBuf st.blockAllocator st.mem used) (hk : k < used)
    (honly : OnlyDescriptor blockBuf k st.mem m')
    (hnext : blockNext m' (descriptor blockBuf k) = blockNext st.mem (descriptor blockBuf k))
    (hheld : [blockSpan m' (descriptor blockBuf k)] =
      keptByCut (blockSpan st.mem (descriptor blockBuf k)) cut.base cut.length) :
    SplitOk blockBuf st.mem used k cut ⟨descriptor blockBuf k, st.blockAllocator, m'⟩ used := by
  have hused := hslab.used_le
  exact ⟨le_rfl, hslab.onlyDescriptor hk honly, honly.frameBuf hslab.fits (by omega),
    honly.frameOthers hslab.fits (by omega) hused, hnext, .inl rfl,
    (heldAt_of_ne (descriptor_ne_zero hslab.fits (by omega))).trans hheld⟩

/-- The split also takes and fills a new descriptor, which no list reaches. -/
theorem splitOk_of_extra {m₁ m₂ m' : Mem} {slab : Slab.SlabAlloc} {cut : Span}
    (hslab : SlabInv blockBuf st.blockAllocator st.mem used) (hused : used < 64) (hk : k < used)
    (honly : OnlyDescriptor blockBuf k st.mem m₁)
    (hnext : blockNext m₁ (descriptor blockBuf k) = blockNext st.mem (descriptor blockBuf k))
    (hheld : [blockSpan m₁ (descriptor blockBuf k)] =
      keptByCut (blockSpan st.mem (descriptor blockBuf k)) cut.base cut.length)
    (hslab₂ : SlabInv blockBuf slab m₂ (used + 1)) (hframe : FrameDescriptor blockBuf used m₁ m₂)
    (hextra : OnlyDescriptor blockBuf used m₂ m') :
    SplitOk blockBuf st.mem used k cut ⟨descriptor blockBuf k, slab, m'⟩ (used + 1) := by
  have hfit := hslab.fits
  have hsame : ∀ j < used, ∀ x, Within x (descriptor blockBuf j) 24 → m' x = m₁ x := by
    intro j hj x hx
    have hother := not_within_descriptor hfit (by omega) hused (by omega) hx
    rw [hextra x hother, hframe x
      (fun hin => not_within_of_header hfit (by omega) hin hx) hother]
  obtain ⟨hspan', hnext'⟩ := fields_congr hfit (by omega) (hsame k hk)
  have hbuf : FrameBuf blockBuf st.mem m' := by
    intro x hx
    have hother := fun hin => hx (within_buf_of_descriptor hfit hused hin)
    rw [hextra x hother, hframe x (fun hin => hx (within_buf_of_header hfit hin)) hother]
    exact honly.frameBuf hfit (by omega) x hx
  have hothers : FrameOthers blockBuf used k st.mem m' := by
    intro j hj hne x hx
    rw [hsame j hj x hx]
    exact honly.frameOthers hfit (by omega) hslab.used_le j hj hne x hx
  have hheld' : heldAt m' (descriptor blockBuf k) =
      keptByCut (blockSpan st.mem (descriptor blockBuf k)) cut.base cut.length := by
    rw [heldAt_of_ne (descriptor_ne_zero hfit (by omega)), hspan', hheld]
  exact {
    used_le := Nat.le_succ used
    slab := hslab₂.onlyDescriptor (Nat.lt_succ_self used) hextra
    frameBuf := hbuf
    frameOthers := hothers
    next := hnext'.trans hnext
    freeBlocks := .inl rfl
    held := hheld' }

/-- Every way a split of the head block ends. -/
theorem splitBlock_cases {st : State} {head b n a size : U64} {split : SplitResult}
    (h : splitBlock st head 0 head b n a size = .ok split) : head ≠ 0 ∧
    ((b ≠ a ∧ b + n > a + size ∧ ∃ extra slab m, extra ≠ 0 ∧
        Slab.alloc memoryBlock st.blockAllocator (setBlockLength st.mem head (a - b)) =
          .ok (extra, slab, m) ∧
        let m := setBlockLength (setBlockBase m extra (a + size)) extra (b + n - (a + size))
        split = ⟨head, slab, setBlockNext m extra (blockNext m head)⟩) ∨
      (b ≠ a ∧ ¬ b + n > a + size ∧
        split = ⟨head, st.blockAllocator, setBlockLength st.mem head (a - b)⟩) ∨
      (b = a ∧ b + n > a + size ∧ split = ⟨head, st.blockAllocator,
        setBlockLength (setBlockBase st.mem head (a + size)) head (b + n - (a + size))⟩) ∨
      b = a ∧ ¬ b + n > a + size ∧ split = ⟨blockNext st.mem head, st.blockAllocator, st.mem⟩) := by
  obtain ⟨_, hderef, h⟩ := bind_eq_ok.mp h
  refine ⟨deref_eq_ok.mp hderef, ?_⟩
  dsimp only at h
  split at h
  · rename_i hboth
    obtain ⟨⟨extra, slab, m⟩, halloc, h⟩ := bind_eq_ok.mp h
    obtain ⟨_, hassert, h⟩ := bind_eq_ok.mp h
    exact .inl ⟨hboth.1, hboth.2, extra, slab, m, bne_iff_ne.mp (kassert_eq_ok.mp hassert), halloc,
      (pure_eq_ok.mp h).symm⟩
  rename_i hboth
  split at h
  · rename_i hfront
    exact .inr (.inl ⟨hfront, fun htail => hboth ⟨hfront, htail⟩, (pure_eq_ok.mp h).symm⟩)
  split at h
  · rename_i hfront htail
    exact .inr (.inr (.inl ⟨not_not.mp hfront, htail, (pure_eq_ok.mp h).symm⟩))
  · rename_i hfront htail
    rw [if_pos rfl] at h
    exact .inr (.inr (.inr ⟨not_not.mp hfront, htail, (pure_eq_ok.mp h).symm⟩))

theorem splitBlock_spec {split : SplitResult}
    (hslab : SlabInv blockBuf st.blockAllocator st.mem used) (hused : used < 64) (hk : k < used)
    (hnext : blockNext st.mem (descriptor blockBuf k) = 0)
    (hlow : (blockBase st.mem (descriptor blockBuf k)).toNat ≤ a.toNat)
    (hhigh : a.toNat + size.toNat ≤ (blockBase st.mem (descriptor blockBuf k)).toNat +
      (blockLength st.mem (descriptor blockBuf k)).toNat)
    (hend : (blockBase st.mem (descriptor blockBuf k)).toNat +
      (blockLength st.mem (descriptor blockBuf k)).toNat < 2 ^ 64)
    (h : splitBlock st (descriptor blockBuf k) 0 (descriptor blockBuf k)
      (blockBase st.mem (descriptor blockBuf k)) (blockLength st.mem (descriptor blockBuf k))
      a size = .ok split) :
    ∃ used', SplitOk blockBuf st.mem used k ⟨a.toNat, size.toNat⟩ split used' := by
  have hfit := hslab.fits
  have hk64 : k < 64 := hk.trans hused
  set b := blockBase st.mem (descriptor blockBuf k) with hb
  set n := blockLength st.mem (descriptor blockBuf k) with hn
  have hspan : blockSpan st.mem (descriptor blockBuf k) = ⟨b.toNat, n.toNat⟩ := rfl
  have hfront : (a - b).toNat = a.toNat - b.toNat := BitVec.toNat_sub_of_le (by
    rw [BitVec.le_def]; exact hlow)
  have hcut : (a + size).toNat = a.toNat + size.toNat := by
    rw [BitVec.toNat_add, Nat.mod_eq_of_lt (by omega)]
  have hlast : (b + n).toNat = b.toNat + n.toNat := by
    rw [BitVec.toNat_add, Nat.mod_eq_of_lt hend]
  have hpre : b ≠ a → b.toNat < a.toNat := fun hne =>
    lt_of_le_of_ne hlow fun heq => hne (BitVec.eq_of_toNat_eq heq)
  have hpost : b + n > a + size ↔ a.toNat + size.toNat < b.toNat + n.toNat := by
    rw [gt_iff_lt, BitVec.lt_def, hcut, hlast]
  have htail : (b + n - (a + size)).toNat = b.toNat + n.toNat - (a.toNat + size.toNat) := by
    rw [BitVec.toNat_sub_of_le (by rw [BitVec.le_def, hcut, hlast]; exact hhigh), hlast, hcut]
  obtain ⟨-, hmiddle | hfrontOnly | htailOnly | hexact⟩ := splitBlock_cases h
  · -- both sides remain: the new descriptor is filled in and stays unlinked
    obtain ⟨hne, -, extra, slab, m₂, -, halloc, rfl⟩ := hmiddle
    obtain ⟨hbase, hlength, hnext', honly⟩ := setBlockLength_spec hfit (m := st.mem) hk64 (a - b)
    obtain ⟨slab', m', halloc', hslab₂, hframe₂⟩ :=
      slabAlloc_spec (hslab.onlyDescriptor hk honly) hused
    obtain ⟨rfl, rfl, rfl⟩ := ok_triple_inj (halloc.symm.trans halloc')
    obtain ⟨_, _, _, honly₃⟩ := setBlockBase_spec hfit (m := m₂) hused (a + size)
    obtain ⟨_, _, _, honly₄⟩ := setBlockLength_spec hfit
      (m := setBlockBase m₂ (descriptor blockBuf used) (a + size)) hused
      (b + n - (a + size))
    set m₄ := setBlockLength (setBlockBase m₂ (descriptor blockBuf used) (a + size))
      (descriptor blockBuf used) (b + n - (a + size))
    obtain ⟨_, _, _, honly₅⟩ := setBlockNext_spec hfit (m := m₄) hused
      (blockNext m₄ (descriptor blockBuf k))
    refine ⟨used + 1, splitOk_of_extra hslab hused hk honly hnext' ?_ hslab₂ hframe₂
      ((honly₃.trans honly₄).trans honly₅)⟩
    rw [hspan, keptByCut, if_pos (hpre hne), blockSpan, hbase, hlength, hfront]
  · obtain ⟨hne, -, rfl⟩ := hfrontOnly
    obtain ⟨hbase, hlength, hnext', honly⟩ := setBlockLength_spec hfit (m := st.mem) hk64 (a - b)
    refine ⟨used, splitOk_of_onlyDescriptor hslab hk honly hnext' ?_⟩
    rw [hspan, keptByCut, if_pos (hpre hne), blockSpan, hbase, hlength, hfront]
  · obtain ⟨heq, hleft, rfl⟩ := htailOnly
    obtain ⟨hbase, _, hnext', honly⟩ := setBlockBase_spec hfit (m := st.mem) hk64 (a + size)
    set m₁ := setBlockBase st.mem (descriptor blockBuf k) (a + size)
    obtain ⟨hbase', hlength, hnext'', honly'⟩ := setBlockLength_spec hfit (m := m₁) hk64
      (b + n - (a + size))
    refine ⟨used, splitOk_of_onlyDescriptor hslab hk (honly.trans honly')
      (hnext''.trans hnext') ?_⟩
    rw [hspan, keptByCut, if_neg (heq ▸ Nat.lt_irrefl _), if_pos (hpost.mp hleft), blockSpan, hbase',
      hbase, hlength, hcut, htail]
  · obtain ⟨heq, hnone, rfl⟩ := hexact
    refine ⟨used, le_rfl, hslab, fun x _ => rfl, fun j _ _ x _ => rfl, rfl, .inr hnext, ?_⟩
    dsimp only
    rw [hspan, keptByCut, if_neg (heq ▸ Nat.lt_irrefl _), if_neg (hpost.not.mp hnone), hnext,
      heldAt_zero]

end Cut

end Octiron.Pmm
