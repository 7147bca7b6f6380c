import Octiron.Allocators.Bump
import Octiron.Lib.Runs

/-! Runs of one bump allocator, and when its blocks stay in the regions it
obtained.  They do while every call fits: the cursor's region has room, or the
region sized from the overshoot has. -/
namespace Octiron.Bump

open Lib Lib.Word Lib.Span Exec Pmm

inductive Call where
  | alloc (size : U64)
  | allocAligned (size alignment : U64)

def Call.size : Call → U64
  | .alloc size => size
  | .allocAligned size _ => size

/-- `alloc` places its block as a request without alignment would. -/
def Call.alignment : Call → U64
  | .alloc _ => 1
  | .allocAligned _ alignment => alignment

/-- Sizes below `2 ^ 48` and power-of-two alignments up to a page. -/
structure CallOk (call : Call) : Prop where
  size_pos : 0 < call.size.toNat
  size_lt : call.size.toNat < 2 ^ 48
  alignment : ∃ k ≤ 12, call.alignment.toNat = 2 ^ k

structure World where
  st : State
  /-- The blocks handed out, newest first. -/
  blocks : List Span

/-- Page-aligned ranges of the address space, no two of them overlapping. -/
structure Fresh (obtained : List Span) : Prop where
  aligned : ∀ s ∈ obtained, 4096 ∣ s.base ∧ 4096 ∣ s.length
  pos : ∀ s ∈ obtained, 0 < s.base
  fits : ∀ s ∈ obtained, s.base + s.length < 2 ^ 64
  disjoint : obtained.Pairwise Disjoint

section Runs

variable (hhdmBase : U64) (answers : Answers)

def call (st : State) : Call → Exec (U64 × State)
  | .alloc size => alloc hhdmBase answers st size
  | .allocAligned size alignment => allocAligned hhdmBase answers st size alignment

/-- A block that is not null is recorded. -/
def record (blocks : List Span) (p size : U64) : List Span :=
  if p = 0 then blocks else ⟨p.toNat, size.toNat⟩ :: blocks

inductive Step : World → Call → World → Prop where
  | call {w : World} {c : Call} {p : U64} {st' : State} (hargs : CallOk c)
      (hcall : call hhdmBase answers w.st c = .ok (p, st')) (hfresh : Fresh st'.obtained) :
      Step w c ⟨st', record w.blocks p c.size⟩

/-- The empty allocator, over any contents of memory. -/
def Initial (w : World) : Prop := ∃ headers, w = ⟨{ headers := headers }, []⟩

def Run (w : World) : Prop := Runs.Run Initial (Step hhdmBase answers) w

/-- Where the next block would start, before alignment, and the end of that region:
on an empty allocator, those of the page it is about to obtain. -/
def cursor (st : State) : U64 × U64 :=
  if st.currentRegion = 0 then
    match answers st.allocs with
    | .failed _ _ => (0, 0)
    | .granted pa =>
      (hhdmPhysToVirt hhdmBase pa + sizeofRegion, hhdmPhysToVirt hhdmBase pa + pageSize)
  else (st.current.curr, st.current.end_)

/-- The request ends in the address space, and within the current region or else
within a region of its overshoot, rounded up to pages, and one more page. -/
def FitsAt (curr end_ size alignment : U64) : Prop :=
  let reach := (alignUp curr alignment).toNat + size.toNat
  reach < 2 ^ 64 ∧ (reach ≤ end_.toNat ∨
    (alignUp sizeofRegion alignment).toNat + size.toNat ≤
      (reach - end_.toNat + 4095) / 4096 * 4096 + 4096)

def Fits (w : World) (c : Call) : Prop :=
  match c with
  | .alloc size => w.st.currentRegion = 0 ∨
      FitsAt (cursor hhdmBase answers w.st).1 (cursor hhdmBase answers w.st).2 size 1
  | .allocAligned size alignment =>
      FitsAt (cursor hhdmBase answers w.st).1 (cursor hhdmBase answers w.st).2 size alignment

end Runs

/-- Every block lies in one obtained region, behind the header and not past the
region's end, and no two blocks overlap. -/
def Owned (w : World) : Prop :=
  (∀ b ∈ w.blocks, ∃ s ∈ w.st.obtained, s.base + sizeofRegion.toNat ≤ b.base ∧
    b.base + b.length ≤ s.base + s.length ∧
    b.base + b.length ≤ (w.st.headers (BitVec.ofNat 64 s.base)).end_.toNat) ∧
  w.blocks.Pairwise Disjoint

/-- The current region is the newest one, and the cursor is inside it. -/
structure Current (w : World) (s : Span) : Prop where
  newest : w.st.obtained.head? = some s
  region : w.st.currentRegion.toNat = s.base
  list : w.st.regionList ≠ 0
  low : s.base + 24 ≤ w.st.current.curr.toNat
  high : w.st.current.curr.toNat ≤ s.base + s.length
  below : ∀ b ∈ w.blocks, Inside b s → b.base + b.length ≤ w.st.current.curr.toNat

structure Inv (w : World) : Prop where
  fresh : Fresh w.st.obtained
  empty : w.st.currentRegion = 0 → w.st.obtained = []
  current : w.st.currentRegion ≠ 0 → ∃ s, Current w s
  ends : ∀ s ∈ w.st.obtained,
    (w.st.headers (BitVec.ofNat 64 s.base)).end_.toNat = s.base + s.length
  sizes : ∀ s ∈ w.st.obtained, 4096 ≤ s.length
  blocks : ∀ b ∈ w.blocks, 0 < b.length ∧ ∃ s ∈ w.st.obtained, s.base + 24 ≤ b.base ∧ Inside b s
  disjoint : w.blocks.Pairwise Disjoint

/-- Some block starts in a region that it overruns, or runs out of the address space. -/
def Broken (w : World) : Prop :=
  ∃ b ∈ w.blocks, 0 < b.length ∧
    (2 ^ 64 ≤ b.base + b.length ∨ ∃ s ∈ w.st.obtained, b.base ∈ s ∧ ¬ Inside b s)

theorem Inv.owned {w : World} (h : Inv w) : Owned w := by
  refine ⟨fun b hb => ?_, h.disjoint⟩
  obtain ⟨-, s, hs, hlow, hin⟩ := h.blocks b hb
  refine ⟨s, hs, hlow, hin.2, ?_⟩
  rw [h.ends s hs]
  exact hin.2

theorem Broken.not_owned {w : World} (hfresh : Fresh w.st.obtained) (h : Broken w) :
    ¬ Owned w := by
  rintro ⟨hblocks, -⟩
  obtain ⟨b, hb, hpos, hover⟩ := h
  obtain ⟨s, hs, hlow, hhigh, -⟩ := hblocks b hb
  rw [show sizeofRegion.toNat = 24 from rfl] at hlow
  have hfits := hfresh.fits s hs
  rcases hover with hwrap | ⟨t, ht, hin, hnot⟩
  · omega
  · have hbase : b.base ∈ s := ⟨by omega, by omega⟩
    obtain rfl := eq_of_pairwise_disjoint hfresh.disjoint hs ht hbase hin
    exact hnot ⟨by omega, hhigh⟩

theorem Fresh.of_suffix {obtained obtained' : List Span} (h : Fresh obtained')
    (hsuffix : obtained <:+ obtained') : Fresh obtained :=
  ⟨fun s hs => h.aligned s (hsuffix.subset hs), fun s hs => h.pos s (hsuffix.subset hs),
    fun s hs => h.fits s (hsuffix.subset hs), h.disjoint.sublist hsuffix.sublist⟩

section Opened

variable {w : World} {st' : State} {region n : U64}

/-- A state whose newest region has just been opened. -/
structure Opened (st st' : State) (region n : U64) : Prop where
  obtained : st'.obtained = ⟨region.toNat, n.toNat⟩ :: st.obtained
  isCurrent : st'.currentRegion = region
  list : st'.regionList ≠ 0
  header : st'.headers region = ⟨region + n, region + sizeofRegion, 0⟩
  ends : ∀ other, other ≠ region → (st'.headers other).end_ = (st.headers other).end_

theorem Opened.current (h : Opened w.st st' region n) :
    st'.current = ⟨region + n, region + sizeofRegion, 0⟩ := by
  rw [State.current, h.isCurrent, h.header]

theorem Inv.opened (h : Inv w) (hopen : Opened w.st st' region n) (hfresh : Fresh st'.obtained)
    (hn : 4096 ≤ n.toNat) :
    Inv ⟨st', w.blocks⟩ ∧ Current ⟨st', w.blocks⟩ ⟨region.toNat, n.toNat⟩ := by
  have hnew : (⟨region.toNat, n.toNat⟩ : Span) ∈ st'.obtained :=
    hopen.obtained ▸ List.mem_cons_self
  have hold : ∀ t ∈ w.st.obtained, t ∈ st'.obtained :=
    fun t ht => hopen.obtained ▸ List.mem_cons_of_mem _ ht
  have hpos : 0 < region.toNat := hfresh.pos _ hnew
  have hfits : region.toNat + n.toNat < 2 ^ 64 := hfresh.fits _ hnew
  have hcurr : (region + sizeofRegion).toNat = region.toNat + 24 := by
    rw [BitVec.toNat_add, show sizeofRegion.toNat = 24 from rfl]
    omega
  have hend : (region + n).toNat = region.toNat + n.toNat := by
    rw [BitVec.toNat_add]
    omega
  have hapart : ∀ t ∈ w.st.obtained, Disjoint ⟨region.toNat, n.toNat⟩ t := by
    have hpair := hfresh.disjoint
    rw [hopen.obtained] at hpair
    exact (List.pairwise_cons.mp hpair).1
  have hcurrent : Current ⟨st', w.blocks⟩ ⟨region.toNat, n.toNat⟩ := by
    refine ⟨?_, ?_, hopen.list, ?_, ?_, ?_⟩
    · rw [hopen.obtained]
      rfl
    · rw [hopen.isCurrent]
    · rw [hopen.current, hcurr]
    · rw [hopen.current, hcurr]
      dsimp only
      omega
    · intro b hb hin
      obtain ⟨hlen, t, ht, -, hint⟩ := h.blocks b hb
      have hbase : b.base ∈ b := ⟨Nat.le_refl _, by omega⟩
      exact absurd (hint.mem hbase) (hapart t ht b.base (hin.mem hbase))
  refine ⟨⟨hfresh, ?_, fun _ => ⟨_, hcurrent⟩, ?_, ?_, ?_, h.disjoint⟩, hcurrent⟩
  · intro hzero
    rw [hopen.isCurrent] at hzero
    rw [hzero] at hpos
    exact absurd hpos (by decide)
  · intro t ht
    rw [hopen.obtained] at ht
    rcases List.mem_cons.mp ht with rfl | ht
    · rw [BitVec.ofNat_toNat, BitVec.setWidth_eq, hopen.header, hend]
    · have htfits := hfresh.fits t (hold t ht)
      have htsize := h.sizes t ht
      rw [hopen.ends _ fun heq => ?_, h.ends t ht]
      have hbase : region.toNat = t.base := by
        rw [← heq, BitVec.toNat_ofNat, Nat.mod_eq_of_lt (by omega)]
      exact hapart t ht t.base ⟨hbase.le, by dsimp only; omega⟩ ⟨Nat.le_refl _, by omega⟩
  · intro t ht
    rw [hopen.obtained] at ht
    rcases List.mem_cons.mp ht with rfl | ht
    · exact hn
    · exact h.sizes t ht
  · intro b hb
    obtain ⟨hlen, t, ht, hin⟩ := h.blocks b hb
    exact ⟨hlen, t, hold t ht, hin⟩

end Opened

section Bump

variable {w : World} {s : Span} {p size : U64}

/-- Handing out a block between the cursor and the end of the current region. -/
theorem Inv.bump (h : Inv w) (hcurrent : Current w s) (hpos : 0 < size.toNat)
    (hlow : w.st.current.curr.toNat ≤ p.toNat) (hhigh : p.toNat + size.toNat ≤ s.base + s.length) :
    Inv ⟨(Bump.bump w.st p size).2, ⟨p.toNat, size.toNat⟩ :: w.blocks⟩ := by
  have hs : s ∈ w.st.obtained := List.mem_of_mem_head? hcurrent.newest
  have hfits := h.fresh.fits s hs
  have hcurrLow := hcurrent.low
  have hregion : w.st.currentRegion = BitVec.ofNat 64 s.base := by
    rw [← hcurrent.region, BitVec.ofNat_toNat, BitVec.setWidth_eq]
  have hend : (p + size).toNat = p.toNat + size.toNat := by
    rw [BitVec.toNat_add]
    omega
  have hcurr : (Bump.bump w.st p size).2.current = { w.st.current with curr := p + size } := by
    simp [Bump.bump, State.current, State.setHeader]
  have hne : w.st.currentRegion ≠ 0 := by
    intro hzero
    have hbase := h.fresh.pos s hs
    rw [← hcurrent.region, hzero] at hbase
    exact absurd hbase (by decide)
  refine ⟨h.fresh, fun hzero => absurd hzero hne, fun _ => ⟨s, hcurrent.newest, hcurrent.region,
    hcurrent.list, ?_, ?_, ?_⟩, ?_, h.sizes, ?_, List.pairwise_cons.mpr ⟨?_, h.disjoint⟩⟩
  · rw [hcurr]
    dsimp only
    omega
  · rw [hcurr]
    dsimp only
    omega
  · intro b hb hin
    rw [hcurr]
    dsimp only
    rcases List.mem_cons.mp hb with rfl | hb
    · dsimp only
      omega
    · have hbelow := hcurrent.below b hb hin
      omega
  · intro t ht
    rw [← h.ends t ht]
    change (Function.update w.st.headers _ _ _).end_.toNat = _
    by_cases hsame : BitVec.ofNat 64 t.base = w.st.currentRegion
    · rw [hsame, Function.update_self]
      rfl
    · rw [Function.update_of_ne hsame]
  · intro b hb
    rcases List.mem_cons.mp hb with rfl | hb
    · refine ⟨hpos, s, hs, ?_, ?_, hhigh⟩ <;> dsimp only <;> omega
    · exact h.blocks b hb
  · intro b hb x hx hxb
    obtain ⟨-, t, ht, -, hin⟩ := h.blocks b hb
    have hxs : x ∈ s := ⟨by have := hx.1; dsimp only at this; omega,
      by have := hx.2; dsimp only at this; omega⟩
    obtain rfl := eq_of_pairwise_disjoint h.fresh.disjoint hs ht hxs (hin.mem hxb)
    have hbelow := hcurrent.below b hb hin
    have hlowx : p.toNat ≤ x := hx.1
    have hhighx := hxb.2
    omega

end Bump

end Octiron.Bump
