import Mathlib.Data.List.Pairwise
import Octiron.Allocators.SlabRegions
import Octiron.Lib.Runs

/-! Runs of one slab allocator: buffers are added, objects handed out, and clients
write where they like inside the objects they were given. -/
namespace Octiron.Slab

open Lib Lib.Word Lib.ByteMemory Lib.LinkedList Exec

inductive Call where
  | grow (b : Buffer)
  | alloc
  | write

/-- The buffers added and the objects handed out so far, newest first. -/
structure World where
  s : SlabAlloc
  m : Mem
  buffers : List Buffer
  objects : List U64

section Runs

variable (t : BlockType)

/-- Where a client may write: in its objects, and outside the buffers. -/
def ClientByte (w : World) (x : U64) : Prop :=
  (∃ o ∈ w.objects, Within x o t.size.toNat) ∨ ∀ b ∈ w.buffers, x.toNat ∉ b.span

inductive Step : World → Call → World → Prop where
  | grow {w : World} {b : Buffer} {s' : SlabAlloc} {m' : Mem} (hbuffer : Accepted t b.base b.size)
      (hfresh : ∀ b' ∈ w.buffers, Span.Disjoint b.span b'.span)
      (hcall : grow t w.s w.m b.base b.size = .ok (s', m')) :
      Step w (.grow b) ⟨s', m', b :: w.buffers, w.objects⟩
  | alloc {w : World} {p : U64} {s' : SlabAlloc} {m' : Mem}
      (hcall : alloc t w.s w.m = .ok (p, s', m')) :
      Step w .alloc ⟨s', m', w.buffers, if p = 0 then w.objects else p :: w.objects⟩
  | write {w : World} {m' : Mem} (hown : ChangesOnly (ClientByte t w) w.m m') :
      Step w .write { w with m := m' }

def Constructed (w : World) : Prop := ∃ m, w = ⟨{}, m, [], []⟩

def Run (w : World) : Prop := Runs.Run Constructed (Step t) w

/-- The blocks carved from all buffers. -/
def carved (buffers : List Buffer) : Nat :=
  (buffers.map fun b => (b.size.toNat - sizeofRegion.toNat) / t.size.toNat).sum

/-- What is promised of an allocator, of the objects it handed out and of its next call. -/
structure Exact (w : World) : Prop where
  count : w.s.free.toNat + w.objects.length = carved t w.buffers
  inside : ∀ o ∈ w.objects, ∃ b ∈ w.buffers, b.base.toNat + sizeofRegion.toNat ≤ o.toNat ∧
    o.toNat + t.size.toNat ≤ b.base.toNat + b.size.toNat
  apart : w.objects.Pairwise fun o o' => Apart o t.size.toNat o' t.size.toNat
  next : ∃ p s' m', Slab.alloc t w.s w.m = .ok (p, s', m') ∧
    (p = 0 ↔ carved t w.buffers - w.objects.length = 0) ∧
    (p ≠ 0 → ∀ x, Within x p t.size.toNat → m' x = 0)
  grows : ∀ b : Buffer, Accepted t b.base b.size → ∃ s' m',
    Slab.grow t w.s w.m b.base b.size = .ok (s', m')

end Runs

/-- The words `m_next` as a successor function. -/
def nextRegion (m : Mem) (region : U64) : U64 := load64 m (region + 24)

structure Inv (t : BlockType) (w : World) (used : Buffer → Nat) : Prop where
  accepted : ∀ b ∈ w.buffers, Accepted t b.base b.size
  disjoint : w.buffers.Pairwise fun b b' => Span.Disjoint b.span b'.span
  regions : ∀ b ∈ w.buffers, Region t w.m b (used b)
  linked : Linked (nextRegion w.m) 0 w.s.regions (w.buffers.map Buffer.base)
  total : w.s.total.toNat = (w.buffers.map (Buffer.count t)).sum
  free : w.s.free.toNat + w.objects.length = (w.buffers.map (Buffer.count t)).sum
  length : w.objects.length = (w.buffers.map used).sum
  objects : ∀ o ∈ w.objects, ∃ b ∈ w.buffers, ∃ k < used b, o = blockAt t b.base k
  apart : w.objects.Pairwise fun o o' => Apart o t.size.toNat o' t.size.toNat

section FindRegion

variable {m : Mem} {p : U64} {regions : List U64} {fuel : Nat}

/-- The walk stops at the first region with a free block, or at the end. -/
theorem findRegion_eq (h : Linked (nextRegion m) 0 p regions) (hfuel : regions.length < fuel) :
    findRegion m p fuel =
      .ok ((regions.find? fun region => load64 m (region + 8) != 0).getD 0) := by
  induction fuel generalizing p regions with
  | zero => exact absurd hfuel (Nat.not_lt_zero _)
  | succ fuel ih =>
    cases regions with
    | nil =>
      obtain rfl := linked_nil.mp h
      rw [findRegion, if_neg fun hboth => hboth.1 rfl]
      rfl
    | cons region rest =>
      obtain ⟨rfl, hne, hrest⟩ := linked_cons.mp h
      rw [findRegion, List.find?_cons]
      by_cases hfree : load64 m (p + 8) = 0
      · have hnext := ih hrest (Nat.lt_of_succ_lt_succ hfuel)
        rw [if_pos ⟨hne, hfree⟩, bne_eq_false_iff_eq.mpr hfree]
        exact hnext
      · rw [if_neg fun hboth => hfree hboth.2, bne_iff_ne.mpr hfree]
        rfl

end FindRegion

section Sums

variable {α : Type} [DecidableEq α] {l : List α} {a : α} {f : α → Nat}

theorem map_update_of_not_mem (ha : a ∉ l) (v : Nat) : l.map (Function.update f a v) = l.map f := by
  apply List.map_congr_left
  intro x hx
  apply Function.update_of_ne
  rintro rfl
  exact ha hx

theorem sum_map_update_succ (hnodup : l.Nodup) (ha : a ∈ l) :
    (l.map (Function.update f a (f a + 1))).sum = (l.map f).sum + 1 := by
  induction l with
  | nil => exact nomatch ha
  | cons x l ih =>
    rw [List.map_cons, List.sum_cons, List.map_cons, List.sum_cons]
    obtain ⟨hx, hl⟩ := List.nodup_cons.mp hnodup
    by_cases hxa : x = a
    · subst hxa
      rw [Function.update_self, map_update_of_not_mem hx]
      omega
    · rw [Function.update_of_ne hxa, ih hl ((List.mem_cons.mp ha).resolve_left (Ne.symm hxa))]
      omega

end Sums

section Buffers

variable {t : BlockType} {b b' : Buffer} {buffers : List Buffer}

theorem Places.size_pos (h : Places t b) : 0 < b.span.length := by
  have hfull := h.full
  change 0 < b.size.toNat
  omega

/-- Two accepted buffers of a run are one or disjoint. -/
theorem ne_of_disjoint (h : Places t b) (hdisjoint : Span.Disjoint b.span b'.span) : b ≠ b' := by
  rintro rfl
  have hfirst : b.base.toNat ∈ b.span := by
    have hpos := h.size_pos
    rw [Span.mem_def]
    simp only [Buffer.span] at hpos ⊢
    omega
  exact hdisjoint _ hfirst hfirst

/-- The blocks of disjoint buffers can be counted in 64 bits. -/
theorem sum_count_lt (hplaces : ∀ b ∈ buffers, Places t b)
    (hdisjoint : buffers.Pairwise fun b b' => Span.Disjoint b.span b'.span) :
    (buffers.map (Buffer.count t)).sum < 2 ^ 64 ∧
      buffers.length ≤ (buffers.map (Buffer.count t)).sum := by
  have hspans : Span.total (buffers.map Buffer.span) ≤ 2 ^ 64 := by
    refine @Span.total_le_of_disjoint ⟨0, 2 ^ 64⟩ _ ?_ ?_
    · exact List.pairwise_map.mpr hdisjoint
    · intro s hs
      obtain ⟨b, hb, rfl⟩ := List.mem_map.mp hs
      have hobject := (hplaces b hb).object
      exact ⟨Nat.zero_le _, by simp only [Buffer.span]; omega⟩
  have hcounts : (buffers.map (Buffer.count t)).sum + buffers.length ≤
        Span.total (buffers.map Buffer.span) ∧
      buffers.length ≤ (buffers.map (Buffer.count t)).sum := by
    clear hspans hdisjoint
    induction buffers with
    | nil => exact ⟨Nat.le_refl _, Nat.le_refl _⟩
    | cons b rest ih =>
      obtain ⟨hb, hrest⟩ := List.forall_mem_cons.mp hplaces
      obtain ⟨hsum, hlength⟩ := ih hrest
      have hfull := hb.full
      have hpos := hb.count_pos
      have hword := Nat.mul_le_mul_right (b.count t) hb.word
      rw [List.map_cons, List.sum_cons, List.length_cons, List.map_cons, Span.total]
      simp only [Buffer.span]
      omega
  obtain ⟨hsum, hlength⟩ := hcounts
  rcases Nat.eq_zero_or_pos buffers.length with hnone | hsome
  · obtain rfl := List.length_eq_zero_iff.mp hnone
    exact ⟨Nat.two_pow_pos 64, Nat.le_refl _⟩
  · exact ⟨by omega, hlength⟩

/-- What the allocator relies on lies in the buffer, behind `m_total`. -/
theorem Places.kept_span (h : Places t b) {used : Nat} {x : U64} (hx : b.Kept t used x) :
    x.toNat ∈ b.span ∧ b.base.toNat + 8 ≤ x.toNat := by
  obtain ⟨hlow, hhigh, -⟩ := hx
  have hfull := h.full
  rw [Span.mem_def]
  simp only [Buffer.span]
  omega

theorem Places.block_span (h : Places t b) {k : Nat} (hk : k < b.count t) {x : U64}
    (hx : Within x (blockAt t b.base k) t.size.toNat) : x.toNat ∈ b.span := by
  rw [h.within_block hk] at hx
  have hle := block_le hk
  have hfull := h.full
  rw [Span.mem_def]
  simp only [Buffer.span]
  omega

/-- A block handed out is not relied on. -/
theorem Places.not_kept_block (h : Places t b) {k used : Nat} (hk : k < used)
    (hused : used ≤ b.count t) {x : U64} (hx : Within x (blockAt t b.base k) t.size.toNat) :
    ¬ b.Kept t used x := by
  rw [h.within_block (hk.trans_le hused)] at hx
  have hle := Nat.mul_le_mul_left t.size.toNat hk
  rw [Nat.mul_succ] at hle
  rintro ⟨-, -, hbehind⟩
  omega

theorem Places.blocks_apart (h : Places t b) {i k : Nat} (hi : i < b.count t) (hk : k < b.count t)
    (hne : i ≠ k) : Apart (blockAt t b.base i) t.size.toNat (blockAt t b.base k) t.size.toNat := by
  intro x hx hx'
  rw [h.within_block hi] at hx
  rw [h.within_block hk] at hx'
  rcases Nat.lt_or_gt_of_ne hne with hlt | hgt
  · have hle := Nat.mul_le_mul_left t.size.toNat hlt
    rw [Nat.mul_succ] at hle
    omega
  · have hle := Nat.mul_le_mul_left t.size.toNat hgt
    rw [Nat.mul_succ] at hle
    omega

theorem Places.nextRegion_congr (h : Places t b) {m m' : Mem} {used : Nat}
    (hsame : ∀ x, b.Kept t used x → m' x = m x) : nextRegion m' b.base = nextRegion m b.base :=
  h.load64_header (i := 24) (by decide) (by decide) hsame

/-- A new region changes nothing another one relies on: the link behind its last block
reaches at most the `m_total` of the next buffer. -/
theorem Grown.frame_kept {s : SlabAlloc} {m m' : Mem} {used : Nat} (hcompact : Compact t)
    (h : Grown t s m b.base b.size m') (haccepted : Accepted t b.base b.size)
    (hplaces : Places t b') (hdisjoint : Span.Disjoint b.span b'.span) (x : U64)
    (hx : b'.Kept t used x) : m' x = m x := by
  by_contra hchanged
  have hb := hcompact.places haccepted
  obtain ⟨hspan, hlow⟩ := hplaces.kept_span hx
  obtain ⟨k, hlayout⟩ := hcompact.layout
  have hfull := hb.full
  have hobject := hb.object
  have hzero := hb.address 0 (Nat.zero_le _)
  obtain ⟨i, hi⟩ := haccepted.eight_dvd
  obtain ⟨j, hj⟩ := hlayout.eight_dvd_size.mul_right (b.count t)
  rw [Span.disjoint_iff hb.size_pos hplaces.size_pos] at hdisjoint
  rw [Span.mem_def] at hspan
  simp only [Buffer.span] at hspan hdisjoint
  rcases h.frame x hchanged with hheader | hblocks
  · rw [within_iff (by omega)] at hheader
    omega
  · change Within x _ (t.size.toNat * b.count t + 8) at hblocks
    rw [within_iff (by omega)] at hblocks
    omega

end Buffers

instance Buffer.disjoint_symm : Std.Symm fun b b' : Buffer => Span.Disjoint b.span b'.span :=
  ⟨fun _ _ hdisjoint => hdisjoint.symm⟩

section Inv

variable {t : BlockType} {w : World} {used : Buffer → Nat}

theorem Inv.places (h : Inv t w used) (hcompact : Compact t) {b : Buffer} (hb : b ∈ w.buffers) :
    Places t b := hcompact.places (h.accepted b hb)

theorem Inv.disjoint_of_ne (h : Inv t w used) {b b' : Buffer} (hb : b ∈ w.buffers)
    (hb' : b' ∈ w.buffers) (hne : b ≠ b') : Span.Disjoint b.span b'.span :=
  h.disjoint.forall hb hb' hne

theorem Inv.nodup (h : Inv t w used) (hcompact : Compact t) : w.buffers.Nodup :=
  h.disjoint.imp_of_mem fun hb _ hdisjoint => ne_of_disjoint (h.places hcompact hb) hdisjoint

theorem Inv.sum_lt (h : Inv t w used) (hcompact : Compact t) :
    (w.buffers.map (Buffer.count t)).sum < 2 ^ 64 ∧
      w.buffers.length ≤ (w.buffers.map (Buffer.count t)).sum :=
  sum_count_lt (fun _ hb => h.places hcompact hb) h.disjoint

theorem Inv.carved_eq (h : Inv t w used) (hcompact : Compact t) :
    carved t w.buffers = (w.buffers.map (Buffer.count t)).sum := by
  obtain ⟨k, hlayout⟩ := hcompact.layout
  rw [carved]
  congr 1
  apply List.map_congr_left
  intro b hb
  have hsize := (h.accepted b hb).size_le hlayout
  rw [hcompact.offset] at hsize
  rw [Buffer.count, blockCount_toNat (by omega)]
  rfl

/-- A region with a free block, unless the count of free blocks is zero. -/
theorem Inv.findRegion (h : Inv t w used) (hcompact : Compact t) (hfree : w.s.free ≠ 0) :
    ∃ b ∈ w.buffers, used b < b.count t ∧
      findRegion w.m w.s.regions (w.s.total.toNat + 1) = .ok b.base := by
  have hwalk := @findRegion_eq _ _ _ (w.s.total.toNat + 1) h.linked (by
    rw [List.length_map, h.total]
    exact Nat.lt_succ_of_le (h.sum_lt hcompact).2)
  rw [List.find?_map] at hwalk
  cases hfind : w.buffers.find? ((fun region => load64 w.m (region + 8) != 0) ∘ Buffer.base) with
  | some b =>
    rw [hfind] at hwalk
    have hb := List.mem_of_find?_eq_some hfind
    have hsome := List.find?_some hfind
    refine ⟨b, hb, ?_, hwalk⟩
    rw [Function.comp_apply, (h.regions b hb).free, bne_iff_ne] at hsome
    have hle := (h.regions b hb).used_le
    apply lt_of_le_of_ne hle
    intro heq
    rw [heq, Nat.sub_self] at hsome
    exact hsome rfl
  | none =>
    exfalso
    have hall : w.buffers.map used = w.buffers.map (Buffer.count t) := by
      apply List.map_congr_left
      intro b hb
      have hnone := List.find?_eq_none.mp hfind b hb
      rw [Function.comp_apply, (h.regions b hb).free, bne_iff_ne, not_not] at hnone
      have hle := (h.regions b hb).used_le
      have hcount := (blockCount t b.size).isLt
      have hzero := congrArg BitVec.toNat hnone
      rw [BitVec.toNat_ofNat, Nat.mod_eq_of_lt (by rw [Buffer.count]; omega),
        show (0 : U64).toNat = 0 from rfl] at hzero
      omega
    have hlength := h.length
    rw [hall] at hlength
    have hcount := h.free
    exact hfree (BitVec.eq_of_toNat_eq (by rw [show (0 : U64).toNat = 0 from rfl]; omega))

/-- A call without a free block returns null; any other one the first free block of
some region. -/
theorem Inv.alloc_eq (h : Inv t w used) (hcompact : Compact t) (hzero : t.zeroOut = true) :
    (w.s.free = 0 ∧ alloc t w.s w.m = .ok (0, w.s, w.m)) ∨
    (w.s.free ≠ 0 ∧ ∃ b ∈ w.buffers, used b < b.count t ∧
      alloc t w.s w.m = .ok (blockAt t b.base (used b), { w.s with free := w.s.free - 1 },
        dequeue t w.m b.base (blockAt t b.base (used b)))) := by
  by_cases hfree : w.s.free = 0
  · exact .inl ⟨hfree, by rw [alloc, if_pos hfree]⟩
  · obtain ⟨b, hb, hused, hfind⟩ := h.findRegion hcompact hfree
    have hplaces := h.places hcompact hb
    have hblocks := (h.regions b hb).blocks
    have hcall := alloc_of_found hfree hfind hplaces.base_ne
      (by rw [hblocks]; exact hplaces.blockAt_ne_zero hused.le) hzero
    rw [hblocks] at hcall
    exact .inr ⟨hfree, b, hb, hused, hcall⟩

theorem Inv.linked_congr (h : Inv t w used) {m' : Mem}
    (hsame : ∀ b ∈ w.buffers, nextRegion m' b.base = nextRegion w.m b.base) :
    Linked (nextRegion m') 0 w.s.regions (w.buffers.map Buffer.base) := by
  apply h.linked.congr
  intro region hregion
  obtain ⟨b, hb, rfl⟩ := List.mem_map.mp hregion
  exact hsame b hb

/-- Memory may change wherever no region relies on it. -/
theorem Inv.write (h : Inv t w used) (hcompact : Compact t) {m' : Mem}
    (hsame : ∀ b ∈ w.buffers, ∀ x, b.Kept t (used b) x → m' x = w.m x) :
    Inv t { w with m := m' } used := by
  refine ⟨h.accepted, h.disjoint, fun b hb => ?_, ?_, h.total, h.free, h.length, h.objects, h.apart⟩
  · exact (h.regions b hb).congr (h.places hcompact hb) (hsame b hb)
  · exact h.linked_congr fun b hb => (h.places hcompact hb).nextRegion_congr (hsame b hb)

/-- Clients write in blocks handed out. -/
theorem Inv.client_not_kept (h : Inv t w used) (hcompact : Compact t) {x : U64}
    (hx : ClientByte t w x) {b : Buffer} (hb : b ∈ w.buffers) : ¬ b.Kept t (used b) x := by
  have hplaces := h.places hcompact hb
  intro hkept
  obtain ⟨hspan, -⟩ := hplaces.kept_span hkept
  rcases hx with ⟨o, ho, hwithin⟩ | houtside
  · obtain ⟨b', hb', k, hk, rfl⟩ := h.objects o ho
    have hle := (h.regions b' hb').used_le
    by_cases heq : b' = b
    · subst heq
      exact hplaces.not_kept_block hk hle hwithin hkept
    · have hspan' := (h.places hcompact hb').block_span (hk.trans_le hle) hwithin
      exact h.disjoint_of_ne hb' hb heq _ hspan' hspan
  · exact houtside b hb hspan

/-- Objects stay apart from the block handed out next. -/
theorem Inv.apart_next (h : Inv t w used) (hcompact : Compact t) {b : Buffer} (hb : b ∈ w.buffers)
    (hused : used b < b.count t) {o : U64} (ho : o ∈ w.objects) :
    Apart (blockAt t b.base (used b)) t.size.toNat o t.size.toNat := by
  have hplaces := h.places hcompact hb
  obtain ⟨b', hb', k, hk, rfl⟩ := h.objects o ho
  have hle := (h.regions b' hb').used_le
  by_cases heq : b' = b
  · subst heq
    exact hplaces.blocks_apart hused (hk.trans_le hle) hk.ne'
  · intro x hx hx'
    have hspan := (h.places hcompact hb').block_span (hk.trans_le hle) hx'
    exact h.disjoint_of_ne hb' hb heq _ hspan (hplaces.block_span hused hx)

/-- A block is handed out. -/
theorem Inv.alloc (h : Inv t w used) (hcompact : Compact t) (hfree : w.s.free ≠ 0) {b : Buffer}
    (hb : b ∈ w.buffers) (hused : used b < b.count t) :
    Inv t ⟨{ w.s with free := w.s.free - 1 }, dequeue t w.m b.base (blockAt t b.base (used b)),
      w.buffers, blockAt t b.base (used b) :: w.objects⟩
      (Function.update used b (used b + 1)) := by
  have hplaces := h.places hcompact hb
  -- the other regions lie outside the buffer
  have hothers : ∀ b' ∈ w.buffers, b' ≠ b → ∀ x, b'.Kept t (used b') x →
      dequeue t w.m b.base (blockAt t b.base (used b)) x = w.m x := by
    intro b' hb' hne x hkept
    obtain ⟨hspan, -⟩ := (h.places hcompact hb').kept_span hkept
    exact hplaces.dequeue_outside hused (h.disjoint_of_ne hb' hb hne _ hspan)
  have hpos : 0 < w.s.free.toNat := BitVec.toNat_pos_of_ne_zero hfree
  have hfreeNat := toNat_sub_one w.s.free hpos
  have hcount := h.free
  have hlength := h.length
  refine ⟨h.accepted, h.disjoint, fun b' hb' => ?_, ?_, h.total, ?_, ?_, ?_, ?_⟩
  · by_cases hne : b' = b
    · subst hne
      rw [Function.update_self]
      exact (h.regions b' hb').dequeue hplaces hused
    · rw [Function.update_of_ne hne]
      exact (h.regions b' hb').congr (h.places hcompact hb') (hothers b' hb' hne)
  · refine h.linked_congr fun b' hb' => ?_
    by_cases hne : b' = b
    · subst hne
      exact hplaces.dequeue_next hused
    · exact (h.places hcompact hb').nextRegion_congr (hothers b' hb' hne)
  · dsimp only
    rw [List.length_cons]
    omega
  · rw [List.length_cons, sum_map_update_succ (h.nodup hcompact) hb, hlength]
  · intro o ho
    rcases List.mem_cons.mp ho with rfl | ho
    · exact ⟨b, hb, used b, by rw [Function.update_self]; exact Nat.lt_succ_self _, rfl⟩
    · obtain ⟨b', hb', k, hk, rfl⟩ := h.objects o ho
      refine ⟨b', hb', k, ?_, rfl⟩
      by_cases hne : b' = b
      · subst hne
        rw [Function.update_self]
        exact hk.trans (Nat.lt_succ_self _)
      · rwa [Function.update_of_ne hne]
  · exact List.pairwise_cons.mpr ⟨fun o ho => h.apart_next hcompact hb hused ho, h.apart⟩

/-- A region is put in front. -/
theorem Inv.grow (h : Inv t w used) (hcompact : Compact t) {b : Buffer} {m' : Mem}
    (haccepted : Accepted t b.base b.size)
    (hfresh : ∀ b' ∈ w.buffers, Span.Disjoint b.span b'.span)
    (hgrown : Grown t w.s w.m b.base b.size m') :
    Inv t ⟨w.s.withRegion t b.base b.size, m', b :: w.buffers, w.objects⟩
      (Function.update used b 0) := by
  have hplaces := hcompact.places haccepted
  have hne : ∀ b' ∈ w.buffers, b' ≠ b := fun b' hb' => (ne_of_disjoint hplaces (hfresh b' hb')).symm
  have hnew : b ∉ w.buffers := fun hb => hne b hb rfl
  have hkept : ∀ b' ∈ w.buffers, ∀ x, b'.Kept t (used b') x → m' x = w.m x := fun b' hb' =>
    hgrown.frame_kept hcompact haccepted (h.places hcompact hb') (hfresh b' hb')
  have haccepted' : ∀ b' ∈ b :: w.buffers, Accepted t b'.base b'.size :=
    List.forall_mem_cons.mpr ⟨haccepted, h.accepted⟩
  have hdisjoint' : (b :: w.buffers).Pairwise fun b b' => Span.Disjoint b.span b'.span :=
    List.pairwise_cons.mpr ⟨hfresh, h.disjoint⟩
  have hsum := (sum_count_lt (fun b' hb' => hcompact.places (haccepted' b' hb')) hdisjoint').1
  rw [List.map_cons, List.sum_cons] at hsum
  have htotal := h.total
  have hfree := h.free
  have hcount : (blockCount t b.size).toNat = b.count t := rfl
  refine ⟨haccepted', hdisjoint', ?_, ?_, ?_, ?_, ?_, ?_, h.apart⟩
  · rw [List.forall_mem_cons]
    refine ⟨?_, fun b' hb' => ?_⟩
    · rw [Function.update_self]
      exact hgrown.region
    · rw [Function.update_of_ne (hne b' hb')]
      exact (h.regions b' hb').congr (h.places hcompact hb') (hkept b' hb')
  · refine linked_cons.mpr ⟨rfl, hplaces.base_ne, ?_⟩
    rw [show nextRegion m' b.base = w.s.regions from hgrown.next]
    exact h.linked_congr fun b' hb' => (h.places hcompact hb').nextRegion_congr (hkept b' hb')
  · rw [List.map_cons, List.sum_cons, SlabAlloc.withRegion, BitVec.toNat_add]
    omega
  · rw [List.map_cons, List.sum_cons, SlabAlloc.withRegion, BitVec.toNat_add]
    dsimp only
    omega
  · rw [List.map_cons, List.sum_cons, Function.update_self, map_update_of_not_mem hnew, Nat.zero_add]
    exact h.length
  · intro o ho
    obtain ⟨b', hb', k, hk, rfl⟩ := h.objects o ho
    refine ⟨b', List.mem_cons_of_mem _ hb', k, ?_, rfl⟩
    rwa [Function.update_of_ne (hne b' hb')]

end Inv

section Run

variable {t : BlockType} {w w' : World} {used : Buffer → Nat}

theorem Compact.grow_spec (hcompact : Compact t) {b : Buffer} (haccepted : Accepted t b.base b.size)
    (s : SlabAlloc) (m : Mem) :
    ∃ m', grow t s m b.base b.size = .ok (s.withRegion t b.base b.size, m') ∧
      Grown t s m b.base b.size m' := by
  obtain ⟨k, hlayout⟩ := hcompact.layout
  have hplaces := hcompact.places haccepted
  have hfull := hplaces.full
  have hobject := hplaces.object
  have hcount : b.count t = (blockCount t b.size).toNat := rfl
  obtain ⟨i, hi⟩ := haccepted.eight_dvd
  obtain ⟨j, hj⟩ := hlayout.eight_dvd_size.mul_right (blockCount t b.size).toNat
  apply Slab.grow_spec hlayout haccepted
  rw [hcompact.offset]
  rw [hcount] at hfull
  omega

theorem inv_constructed (h : Constructed w) : Inv t w fun _ => 0 := by
  obtain ⟨m, rfl⟩ := h
  exact ⟨nofun, .nil, nofun, linked_nil.mpr rfl, rfl, rfl, rfl, nofun, .nil⟩

theorem inv_step (hcompact : Compact t) (hzero : t.zeroOut = true) {c : Call}
    (h : Inv t w used) (hstep : Step t w c w') : ∃ used', Inv t w' used' := by
  cases hstep with
  | grow hbuffer hfresh hcall =>
    obtain ⟨m', hgrow, hgrown⟩ := hcompact.grow_spec hbuffer w.s w.m
    obtain ⟨rfl, rfl⟩ := ok_pair_inj (hcall.symm.trans hgrow)
    exact ⟨_, h.grow hcompact hbuffer hfresh hgrown⟩
  | alloc hcall =>
    rcases h.alloc_eq hcompact hzero with ⟨_, hnull⟩ | ⟨hfree, b, hb, hused, hsome⟩
    · obtain ⟨rfl, rfl, rfl⟩ := ok_triple_inj (hcall.symm.trans hnull)
      rw [if_pos rfl]
      exact ⟨used, h⟩
    · obtain ⟨rfl, rfl, rfl⟩ := ok_triple_inj (hcall.symm.trans hsome)
      rw [if_neg ((h.places hcompact hb).blockAt_ne_zero hused.le)]
      exact ⟨_, h.alloc hcompact hfree hb hused⟩
  | write hown =>
    refine ⟨used, h.write hcompact fun b hb x hkept => ?_⟩
    by_contra hchanged
    exact h.client_not_kept hcompact (hown x hchanged) hb hkept

theorem Run.inv (hcompact : Compact t) (hzero : t.zeroOut = true) (h : Run t w) :
    ∃ used, Inv t w used := by
  refine Runs.RunWhere.induction (Q := fun w => ∃ used, Inv t w used) ?_ ?_ h
  · exact fun w hw => ⟨_, inv_constructed hw⟩
  · rintro w c w' - ⟨used, hinv⟩ - hstep
    exact inv_step hcompact hzero hinv hstep

theorem Inv.exact (hcompact : Compact t) (hzero : t.zeroOut = true) (h : Inv t w used) :
    Exact t w := by
  have hcarved := h.carved_eq hcompact
  have hcount := h.free
  refine ⟨by rw [hcarved, hcount], fun o ho => ?_, h.apart, ?_, fun b haccepted => ?_⟩
  · obtain ⟨b, hb, k, hk, rfl⟩ := h.objects o ho
    have hplaces := h.places hcompact hb
    have hlt := hk.trans_le (h.regions b hb).used_le
    have haddress := hplaces.address k hlt.le
    have hle := block_le hlt
    have hfull := hplaces.full
    have hheader : sizeofRegion.toNat = 32 := rfl
    exact ⟨b, hb, by omega, by omega⟩
  · rcases h.alloc_eq hcompact hzero with ⟨hnone, hnull⟩ | ⟨hfree, b, hb, hused, hsome⟩
    · refine ⟨_, _, _, hnull, iff_of_true rfl ?_, fun hne => absurd rfl hne⟩
      rw [hnone, show (0 : U64).toNat = 0 from rfl] at hcount
      omega
    · have hne := (h.places hcompact hb).blockAt_ne_zero hused.le
      refine ⟨_, _, _, hsome, iff_of_false hne ?_, fun _ x hx => dequeue_zero hx⟩
      intro hnone
      exact hfree (BitVec.eq_of_toNat_eq (by rw [show (0 : U64).toNat = 0 from rfl]; omega))
  · obtain ⟨m', hgrow, -⟩ := hcompact.grow_spec haccepted w.s w.m
    exact ⟨_, m', hgrow⟩

/-- In every state of every run the count of free blocks is exact, the objects handed out
lie apart in the buffers, and the next call hands out a zeroed block, or null when all
blocks are taken. -/
theorem slab_exact (T : ElementType) (halign : T.align = 8) (h : Run (T.slabBlock true) w) :
    Exact (T.slabBlock true) w := by
  have hcompact := T.compact true halign
  obtain ⟨used, hinv⟩ := h.inv hcompact rfl
  exact hinv.exact hcompact rfl

/-- `BLOCK_BUF`. -/
def blockBuf : Buffer := ⟨0x80200000, 0x620⟩

/-- Another buffer of two blocks. -/
def smallBuf : Buffer := ⟨0x80300000, 0x50⟩

theorem accepted_smallBuf :
    Accepted (memoryBlockType.slabBlock true) smallBuf.base smallBuf.size :=
  ⟨by decide, by decide, by decide, by decide⟩

/-- A buffer apart from the others can always be added. -/
theorem Run.grow (T : ElementType) (halign : T.align = 8) (h : Run (T.slabBlock true) w) {b : Buffer}
    (haccepted : Accepted (T.slabBlock true) b.base b.size)
    (hfresh : ∀ b' ∈ w.buffers, Span.Disjoint b.span b'.span) :
    ∃ w', Run (T.slabBlock true) w' ∧ w'.buffers = b :: w.buffers ∧ w'.objects = w.objects := by
  have hcompact := T.compact true halign
  obtain ⟨used, hinv⟩ := h.inv hcompact rfl
  obtain ⟨s', m', hgrow⟩ := (hinv.exact hcompact rfl).grows b haccepted
  exact ⟨_, h.next trivial (.grow haccepted hfresh hgrow), rfl, rfl⟩

/-- `BLOCK_BUF` is added, a block handed out of it and written to, and a second buffer
added. -/
theorem slab_exact_twoBuffers : ∃ w : World, Run (memoryBlockType.slabBlock true) w ∧
    w.buffers = [smallBuf, blockBuf] ∧ w.objects.length = 1 ∧ w.s.free.toNat = 65 ∧
    Exact (memoryBlockType.slabBlock true) w := by
  have hstart : Run (memoryBlockType.slabBlock true) ⟨{}, fun _ => 0, [], []⟩ :=
    .start ⟨fun _ => 0, rfl⟩
  obtain ⟨w₁, hone, hbuffers₁, hobjects₁⟩ := Run.grow (b := blockBuf) memoryBlockType rfl hstart
    accepted_blockBuf fun _ hb => absurd hb List.not_mem_nil
  obtain ⟨p, s₂, m₂, halloc, hnull, -⟩ := (slab_exact memoryBlockType rfl hone).next
  rw [hbuffers₁, hobjects₁] at hnull
  have hp : p ≠ 0 := fun hzero => absurd (hnull.mp hzero) (by decide)
  have htwo := hone.next trivial (.alloc halloc)
  rw [if_neg hp, hobjects₁, hbuffers₁] at htwo
  have hown : ChangesOnly (ClientByte (memoryBlockType.slabBlock true) ⟨s₂, m₂, [blockBuf], [p]⟩) m₂
      (store64 m₂ p 7) := by
    intro x hx
    have hin : Within x p 8 := changesOnly_store64 m₂ p 7 x hx
    exact .inl ⟨p, List.mem_cons_self, Nat.lt_of_lt_of_le hin (by decide)⟩
  have hthree := htwo.next trivial (.write hown)
  obtain ⟨w₄, hfour, hbuffers₄, hobjects₄⟩ := Run.grow (b := smallBuf)
    memoryBlockType rfl hthree accepted_smallBuf
    (by
      intro b' hb'
      obtain rfl := List.mem_singleton.mp hb'
      exact (Span.disjoint_iff (by decide) (by decide)).mpr (by decide))
  change w₄.buffers = [smallBuf, blockBuf] at hbuffers₄
  change w₄.objects = [p] at hobjects₄
  have hexact := slab_exact memoryBlockType rfl hfour
  have hcount := hexact.count
  have hcarved : carved (memoryBlockType.slabBlock true) [smallBuf, blockBuf] = 66 := by decide
  rw [hbuffers₄, hobjects₄, hcarved, List.length_singleton] at hcount
  exact ⟨w₄, hfour, hbuffers₄, by rw [hobjects₄]; rfl, Nat.succ.inj hcount, hexact⟩

end Run

end Octiron.Slab
