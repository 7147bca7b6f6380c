import Octiron.Allocators.ArenaCalls

/-! Runs of a kernel with any number of bump allocators, whose calls come in any order among
those of other clients of the manager.  The holders of the blocks store into them. -/
namespace Octiron.Bump.Arenas

open Lib Lib.Word Lib.ByteMemory Lib.Span Lib.LinkedList Exec Pmm
open Limine (hhdmVirtToPhys)

/-- A block with what its holder believes to have in it: zeros, and then what it stored last. -/
structure Block where
  base : U64
  bytes : List U8

def Block.span (b : Block) : Span := ⟨b.base.toNat, b.bytes.length⟩

/-- The physical bytes of a block. -/
def Block.frame (hhdmBase : U64) (b : Block) : Span :=
  ⟨(hhdmVirtToPhys hhdmBase b.base).toNat, b.bytes.length⟩

/-- An allocator with the physical ranges it has obtained and with its blocks, newest first. -/
structure Heap where
  arena : Arena := {}
  ranges : List Span := []
  /-- The ranges obtained since the last `grow`, its own included. -/
  linked : List Span := []
  blocks : List Block := []

structure System (ι : Type) where
  machine : Machine
  heaps : ι → Heap

inductive Event (ι : Type) where
  | manage (c : Pmm.Call)
  | store (g : Span)
  | grow (i : ι)
  | request (i : ι) (c : Call)
  | write (i : ι) (k : Nat) (bytes : List U8)
  | destroy (i : ι)

/-- The ranges granted between two states. -/
def newRanges (w w' : Machine) : List Span :=
  w'.world.grants.take (w'.world.grants.length - w.world.grants.length)

def Heap.grown (h : Heap) (err : Error) (a' : Arena) (new : List Span) : Heap :=
  { h with
    arena := a'
    ranges := new ++ h.ranges
    linked := if err.isErr then h.linked else new }

/-- A block that is not null is recorded. -/
def Heap.served (h : Heap) (p size : U64) (a' : Arena) (new : List Span) : Heap where
  arena := a'
  ranges := new ++ h.ranges
  linked := new ++ h.linked
  blocks := if p = 0 then h.blocks else ⟨p, List.replicate size.toNat 0⟩ :: h.blocks

def Heap.written (h : Heap) (k : Nat) (b : Block) (bytes : List U8) : Heap :=
  { h with blocks := h.blocks.set k ⟨b.base, bytes⟩ }

/-- The memory offered ends in the direct map. -/
def Below (top : Nat) : Pmm.Call → Prop
  | .addRegion base size => base.toNat + size.toNat ≤ top
  | .allocAligned _ _ _ => True

section Runs

variable {ι : Type} [DecidableEq ι] (hhdmBase blockBuf : U64) (top : Nat)

/-- One event that returns: a call of another client of the manager, a store into a range
granted to one, a call of an allocator, what the holder of the `k`-th newest block of one
leaves in it, or the end of an allocator, whose place another one takes. -/
inductive Step : System ι → Event ι → System ι → Prop where
  | manage {sys : System ι} {c : Pmm.Call} {err : Error} {ret : Option U64} {st' : Pmm.State}
      (hoffers : c.Offers blockBuf sys.machine.world.offered) (hbelow : Below top c)
      (hcall : perform sys.machine.world.st c = .ok (err, ret, st')) :
      Step sys (.manage c)
        { sys with machine.world := sys.machine.world.after st' err ret c }
  | store {sys : System ι} {g : Span} {m' : Mem} (hg : g ∈ sys.machine.world.grants)
      (hother : ∀ i, g ∉ (sys.heaps i).ranges)
      (hframe : ∀ x : U64, x.toNat ∉ g → m' x = sys.machine.mem x) :
      Step sys (.store g) { sys with machine := sys.machine.withMem m' }
  | grow {sys : System ι} {i : ι} {err : Error} {a' : Arena} {w' : Machine}
      (hcall : grow hhdmBase (sys.heaps i).arena sys.machine = .ok (err, a', w')) :
      Step sys (.grow i) ⟨w', Function.update sys.heaps i
        ((sys.heaps i).grown err a' (newRanges sys.machine w'))⟩
  | request {sys : System ι} {i : ι} {c : Call} {p : U64} {a' : Arena} {w' : Machine}
      (hargs : RequestOk hhdmBase top c)
      (hcall : call hhdmBase (sys.heaps i).arena sys.machine c = .ok (p, a', w')) :
      Step sys (.request i c) ⟨w', Function.update sys.heaps i
        ((sys.heaps i).served p c.size a' (newRanges sys.machine w'))⟩
  | write {sys : System ι} {i : ι} {k : Nat} {b : Block} {bytes : List U8} {m' : Mem}
      (hk : (sys.heaps i).blocks[k]? = some b) (hlength : bytes.length = b.bytes.length)
      (hholds : Holds m' (hhdmVirtToPhys hhdmBase b.base) bytes)
      (hframe : ∀ x : U64, x.toNat ∉ b.frame hhdmBase → m' x = sys.machine.mem x) :
      Step sys (.write i k bytes) ⟨sys.machine.withMem m',
        Function.update sys.heaps i ((sys.heaps i).written k b bytes)⟩
  | destroy {sys : System ι} {i : ι} {fuel : Nat} {freed : List U64} {a' : Arena}
      (hcall : destroy hhdmBase (sys.heaps i).arena sys.machine fuel = some (freed, a')) :
      Step sys (.destroy i) { sys with heaps := Function.update sys.heaps i { arena := a' } }

/-- The manager after `initialize`, and allocators that have just been constructed. -/
def Initial (sys : System ι) : Prop :=
  Pmm.Initial blockBuf sys.machine.world ∧ sys.machine.printed = [] ∧ sys.heaps = fun _ => {}

/-- A request for a block fits; the rest of an event is free. -/
def FitsEvent (sys : System ι) : Event ι → Prop
  | .request i c => Fits hhdmBase (sys.heaps i).arena sys.machine.mem c
  | _ => True

def Run (sys : System ι) : Prop :=
  Runs.RunWhere (Initial blockBuf) (Step hhdmBase blockBuf top) (FitsEvent hhdmBase) sys

/-- Whoever allocates, allocates at page alignment. -/
def PageEvent : Event ι → Prop
  | .manage c => c.AtPage
  | _ => True

def PageRun (sys : System ι) : Prop :=
  Runs.RunWhere (Initial blockBuf) (Step hhdmBase blockBuf top)
    (fun sys event => FitsEvent hhdmBase sys event ∧ PageEvent event) sys

end Runs

/-- An allocator in order whose blocks hold what their holders believe. -/
structure Heap.Holds (hhdmBase blockBuf : U64) (top : Nat) (w : Pmm.World) (h : Heap) : Prop where
  ready : ∃ lost st, Ready hhdmBase blockBuf top w h.arena h.ranges (h.blocks.map Block.span) lost
    (h.linked.reverse.map (regionOf hhdmBase)) st
  contents : ∀ b ∈ h.blocks, contentOf w.st.mem (b.frame hhdmBase) = b.bytes

structure SystemInv {ι : Type} (hhdmBase blockBuf : U64) (top : Nat) (sys : System ι) : Prop where
  placed : Placed blockBuf top sys.machine.world
  holds : ∀ i, (sys.heaps i).Holds hhdmBase blockBuf top sys.machine.world
  apart : ∀ i j, i ≠ j → ∀ g ∈ (sys.heaps i).ranges, g ∉ (sys.heaps j).ranges

section Heaps

variable {hhdmBase blockBuf : U64} {top : Nat} {w w' : Pmm.World} {a : Arena} {h : Heap} {b b' : Block}
  {ranges blocks new : List Span} {lost chain : List U64} {st : State} {g : Span}

/-- A block lies in one of the ranges, behind the header. -/
theorem Ready.exists_range (h : Ready hhdmBase blockBuf top w a ranges blocks lost chain st)
    (hb : b.span ∈ blocks) :
    ∃ g ∈ ranges, b.base.toNat = hhdmBase.toNat + (b.frame hhdmBase).base ∧
      Inside (b.frame hhdmBase) g ∧ g.base + 24 ≤ (b.frame hhdmBase).base := by
  obtain ⟨-, s, hs, hlow, hin, hhigh⟩ := h.inv.blocks _ hb
  rw [h.obtained] at hs
  obtain ⟨g, hg, rfl⟩ := List.mem_map.mp hs
  dsimp only [Block.span, lift] at hlow hin hhigh
  have hphys : (hhdmVirtToPhys hhdmBase b.base).toNat = b.base.toNat - hhdmBase.toNat := by
    rw [hhdmVirtToPhys, BitVec.toNat_sub_of_le (by rw [BitVec.le_def]; omega)]
  refine ⟨g, hg, ?_, ⟨?_, ?_⟩, ?_⟩ <;> dsimp only [Block.frame] <;> rw [hphys] <;> omega

/-- A range that is left alone keeps what it holds. -/
theorem Ready.keep (h : Ready hhdmBase blockBuf top w a ranges blocks lost chain st)
    (hwindow : Window hhdmBase top) (hplaced : Placed blockBuf top w')
    (hgrants : ∀ g ∈ ranges, g ∈ w'.grants)
    (hheader : ∀ g ∈ ranges, ∀ x : U64, x.toNat ∈ header g → w'.st.mem x = w.st.mem x)
    (hblank : a.currentRegion ≠ 0 → ∀ x : U64, st.current.curr.toNat ≤ hhdmBase.toNat + x.toNat →
      hhdmBase.toNat + x.toNat < st.current.end_.toNat → w'.st.mem x = w.st.mem x) :
    Ready hhdmBase blockBuf top w' a ranges blocks lost chain st :=
  { placed := hplaced
    list := h.list
    current := h.current
    obtained := h.obtained
    headers := fun g hg => (h.headers g hg).trans
      (headerAt_congr (h.room hwindow hg).1 (hheader g hg)).symm
    granted := hgrants
    long := h.long
    fresh := h.fresh
    inv := h.inv
    account := h.account
    blank := fun hne x hlow hhigh =>
      (hblank hne x hlow hhigh).trans (h.blank hne x hlow hhigh) }

/-- What is left of the current region lies in one of the ranges. -/
theorem Ready.blank_range (h : Ready hhdmBase blockBuf top w a ranges blocks lost chain st)
    (hwindow : Window hhdmBase top) (hne : a.currentRegion ≠ 0) :
    ∃ g ∈ ranges, Current ⟨st, blocks⟩ (lift hhdmBase g) ∧ ∀ x : U64,
      st.current.curr.toNat ≤ hhdmBase.toNat + x.toNat →
      hhdmBase.toNat + x.toNat < st.current.end_.toNat → x.toNat ∈ g := by
  obtain ⟨s, hcurrent⟩ := h.inv.current fun hzero => hne (h.current.symm.trans hzero)
  obtain ⟨g, hg, rfl, -, -⟩ := h.exists_current hwindow hcurrent
  have hend := h.end_toNat hcurrent
  have hlow := hcurrent.low
  refine ⟨g, hg, hcurrent, fun x hx hx' => ?_⟩
  dsimp only [lift] at hend hlow
  rw [mem_def]
  omega

theorem Heap.Holds.keep (hh : h.Holds hhdmBase blockBuf top w) (hwindow : Window hhdmBase top)
    (hplaced : Placed blockBuf top w') (hgrants : ∀ g ∈ h.ranges, g ∈ w'.grants)
    (hsame : ∀ g ∈ h.ranges, ∀ x : U64, x.toNat ∈ g → w'.st.mem x = w.st.mem x) :
    h.Holds hhdmBase blockBuf top w' := by
  obtain ⟨lost, st, hready⟩ := hh.ready
  refine ⟨⟨lost, st, hready.keep hwindow hplaced hgrants ?_ ?_⟩, fun b hb => ?_⟩
  · exact fun g hg x hx => hsame g hg x (header_inside (hready.long g hg) hx)
  · intro hne x hlow hhigh
    obtain ⟨g, hg, -, hin⟩ := hready.blank_range hwindow hne
    exact hsame g hg x (hin x hlow hhigh)
  · obtain ⟨g, hg, -, hin, -⟩ := hready.exists_range (List.mem_map_of_mem hb)
    have hhigh := (hready.placed.grant (hready.granted g hg)).2
    have htop := hwindow.high
    have hend := hin.2
    rw [← hh.contents b hb]
    exact contentOf_congr (by omega) fun x hx => hsame g hg x (hin.mem hx)

theorem Grows.fresh (h : Grows blockBuf w ranges w' new) (hmanaged : Managed blockBuf w') {g' : Span}
    (hg : g ∈ new) (hg' : g' ∈ w.grants) : Disjoint g g' := by
  have hpair := hmanaged.disjoint
  rw [h.grants] at hpair
  exact (List.pairwise_append.mp hpair).2.2 g hg g' hg'

/-- A call leaves the ranges of others alone. -/
theorem Grows.keeps (h : Grows blockBuf w ranges w' new) (hmanaged : Managed blockBuf w)
    (hmanaged' : Managed blockBuf w') (hgranted : ∀ g ∈ ranges, g ∈ w.grants)
    (hlong : ∀ g ∈ ranges, 4096 ≤ g.length) (hg : g ∈ w.grants) (hnot : g ∉ ranges) :
    g ∈ w'.grants ∧ ∀ x : U64, x.toNat ∈ g → w'.st.mem x = w.st.mem x := by
  refine ⟨h.grants ▸ List.mem_append_right _ hg, fun x hx => ?_⟩
  refine h.frame x (fun g' hg' hin => ?_) (fun g' hg' hin => ?_) (hmanaged.apart_buf hg hx)
  · exact h.fresh hmanaged' hg' hg x.toNat hin hx
  · exact hmanaged.apart (hgranted g' hg') hg (fun heq => hnot (heq ▸ hg')) x.toNat
      (header_inside (hlong g' hg') hin) hx

/-- No header is in a block. -/
theorem Ready.header_apart (h : Ready hhdmBase blockBuf top w a ranges blocks lost chain st)
    (hb : b.span ∈ blocks) {x : U64} (hx : x.toNat ∈ b.frame hhdmBase) :
    ∀ g ∈ ranges, x.toNat ∉ header g := by
  obtain ⟨g, hg, -, hin, hlow⟩ := h.exists_range hb
  intro g' hg' hheader
  by_cases heq : g' = g
  · rw [heq, header, mem_def] at hheader
    rw [mem_def] at hx
    dsimp only at hheader
    omega
  · exact h.placed.managed.apart (h.granted g' hg') (h.granted g hg) heq x.toNat
      (header_inside (h.long g' hg') hheader) (hin.mem hx)

/-- A call leaves the blocks of its own allocator alone. -/
theorem Grows.keeps_block (h : Grows blockBuf w ranges w' new)
    (hready : Ready hhdmBase blockBuf top w a ranges blocks lost chain st)
    (hmanaged' : Managed blockBuf w') (hb : b.span ∈ blocks) {x : U64}
    (hx : x.toNat ∈ b.frame hhdmBase) : w'.st.mem x = w.st.mem x := by
  obtain ⟨g, hg, -, hin, -⟩ := hready.exists_range hb
  have hgrant := hready.granted g hg
  refine h.frame x (fun g' hg' hxg => ?_) (hready.header_apart hb hx)
    (hready.placed.managed.apart_buf hgrant (hin.mem hx))
  exact h.fresh hmanaged' hg' hgrant x.toNat hxg (hin.mem hx)

/-- Two blocks share no byte. -/
theorem Ready.frames_disjoint (h : Ready hhdmBase blockBuf top w a ranges blocks lost chain st)
    {k l : Nat} (hk : blocks[k]? = some b.span) (hl : blocks[l]? = some b'.span) (hne : k ≠ l) :
    Disjoint (b.frame hhdmBase) (b'.frame hhdmBase) := by
  obtain ⟨-, -, hbase, -⟩ := h.exists_range (List.mem_of_getElem? hk)
  obtain ⟨-, -, hbase', -⟩ := h.exists_range (List.mem_of_getElem? hl)
  have hdisjoint := disjoint_of_getElem? h.inv.disjoint hk hl hne
  intro x hx hx'
  dsimp only [Block.frame] at hbase hbase'
  rw [mem_def] at hx hx'
  dsimp only [Block.frame] at hx hx'
  refine hdisjoint (hhdmBase.toNat + x) ?_ ?_ <;> rw [Block.span, mem_def] <;> dsimp only <;> omega

theorem contentOf_frame (h : Ready hhdmBase blockBuf top w a ranges blocks lost chain st)
    (hwindow : Window hhdmBase top) (hb : b.span ∈ blocks) {m m' : Mem}
    (hsame : ∀ x : U64, x.toNat ∈ b.frame hhdmBase → m' x = m x) :
    contentOf m' (b.frame hhdmBase) = contentOf m (b.frame hhdmBase) := by
  obtain ⟨g, hg, -, hin, -⟩ := h.exists_range hb
  have hhigh := (h.placed.grant (h.granted g hg)).2
  have htop := hwindow.high
  have hend := hin.2
  exact contentOf_congr (by omega) hsame

/-- The list in memory is the chain. -/
theorem Ready.linked (h : Ready hhdmBase blockBuf top w a ranges blocks lost chain st)
    (hwindow : Window hhdmBase top) :
    Linked (fun region => (headerAt hhdmBase w.st.mem region).next) 0 a.regionList chain := by
  rw [← h.list]
  refine h.account.linked.congr fun region hregion => ?_
  obtain ⟨s, hs, hbase⟩ := (h.account.mem_iff region).mp (List.mem_append_right lost hregion)
  rw [h.obtained] at hs
  obtain ⟨g, hg, rfl⟩ := List.mem_map.mp hs
  obtain rfl : regionOf hhdmBase g = region := by
    apply BitVec.eq_of_toNat_eq
    rw [regionOf_toNat hwindow (h.room hwindow hg).2]
    exact hbase
  rw [State.next, h.headers g hg]

/-- An allocator that has just been constructed. -/
theorem Heap.holds_new (h : Placed blockBuf top w) :
    ({} : Heap).Holds hhdmBase blockBuf top w := by
  have hnone : ∀ {P : Span → Prop}, ∀ g ∈ ([] : List Span), P g :=
    fun g hg => absurd hg List.not_mem_nil
  let st : State := { headers := fun _ => ⟨0, 0, 0⟩ }
  have hinv : Inv ⟨st, []⟩ := Bump.Initial.inv ⟨_, rfl⟩
  exact ⟨⟨[], st,
    { placed := h
      list := rfl
      current := rfl
      obtained := rfl
      headers := hnone
      granted := hnone
      long := hnone
      fresh := ⟨hnone, hnone, hnone, .nil⟩
      inv := hinv
      account := Constructed.account ⟨_, rfl⟩
      blank := fun hne => absurd rfl hne }⟩, fun b hb => absurd hb List.not_mem_nil⟩

end Heaps

section System

variable {ι : Type} {hhdmBase blockBuf : U64} {top : Nat} {sys sys' : System ι}
  {w' : Machine} {new : List Span} {h' : Heap}

theorem SystemInv.manage (h : SystemInv hhdmBase blockBuf top sys) (hwindow : Window hhdmBase top)
    {c : Pmm.Call} {err : Error} {ret : Option U64} {st' : Pmm.State}
    (hoffers : c.Offers blockBuf sys.machine.world.offered) (hbelow : Below top c)
    (hcall : perform sys.machine.world.st c = .ok (err, ret, st')) :
    SystemInv hhdmBase blockBuf top
      { sys with machine.world := sys.machine.world.after st' err ret c } := by
  obtain ⟨hmanaged, hgrants, hsame⟩ := h.placed.managed.call hoffers hcall
  have hmem : (sys.machine.world.after st' err ret c).st.mem = st'.mem := by cases c <;> rfl
  have hplaced : Placed blockBuf top (sys.machine.world.after st' err ret c) := by
    cases c with
    | addRegion base size =>
      exact ⟨hmanaged, List.forall_mem_cons.mpr ⟨hoffers.base_pos, h.placed.pos⟩,
        List.forall_mem_cons.mpr ⟨hbelow, h.placed.high⟩⟩
    | allocAligned size alignment ret₀ => exact ⟨hmanaged, h.placed.pos, h.placed.high⟩
  refine ⟨hplaced, fun i => ?_, h.apart⟩
  obtain ⟨_, _, hready⟩ := (h.holds i).ready
  refine (h.holds i).keep hwindow hplaced (fun g hg => hgrants g (hready.granted g hg)) ?_
  intro g hg x hx
  rw [hmem]
  exact hsame g (hready.granted g hg) x hx

theorem SystemInv.store (h : SystemInv hhdmBase blockBuf top sys) (hwindow : Window hhdmBase top)
    {g : Span} {m' : Mem} (hg : g ∈ sys.machine.world.grants) (hother : ∀ i, g ∉ (sys.heaps i).ranges)
    (hframe : ∀ x : U64, x.toNat ∉ g → m' x = sys.machine.mem x) :
    SystemInv hhdmBase blockBuf top { sys with machine := sys.machine.withMem m' } := by
  have hplaced := h.placed.withMem hg hframe
  refine ⟨hplaced, fun i => ?_, h.apart⟩
  obtain ⟨_, _, hready⟩ := (h.holds i).ready
  refine (h.holds i).keep hwindow hplaced hready.granted fun g' hg' x hx => hframe x fun hin => ?_
  exact h.placed.managed.apart hg (hready.granted g' hg') (fun heq => hother i (heq ▸ hg')) x.toNat
    hin hx

theorem newRanges_eq {w : Machine} (new : List Span) (h : w'.world.grants = new ++ w.world.grants) :
    newRanges w w' = new := by
  rw [newRanges, h, List.length_append, Nat.add_sub_cancel, List.take_left']
  rfl

theorem Initial.inv (h : Initial blockBuf sys) : SystemInv hhdmBase blockBuf top sys := by
  obtain ⟨⟨hfit, hoffered, hgrants, mem, hinit⟩, -, hheaps⟩ := h
  have hplaced : Placed blockBuf top sys.machine.world :=
    ⟨⟨Pmm.Run.inv (.start ⟨hfit, hoffered, hgrants, mem, hinit⟩), hgrants ▸ .nil⟩,
      by simp [hoffered], by simp [hoffered]⟩
  refine ⟨hplaced, fun i => ?_, fun i j _ g hg => ?_⟩
  · rw [hheaps]
    exact Heap.holds_new hplaced
  · rw [hheaps] at hg
    exact absurd hg List.not_mem_nil

variable [DecidableEq ι]

/-- What concerns one allocator leaves the others as they were. -/
theorem SystemInv.update (h : SystemInv hhdmBase blockBuf top sys) (hwindow : Window hhdmBase top)
    {i : ι} (hh' : h'.Holds hhdmBase blockBuf top w'.world)
    (hkeep : ∀ g ∈ sys.machine.world.grants, g ∉ (sys.heaps i).ranges → g ∈ w'.world.grants ∧
      ∀ x : U64, x.toNat ∈ g → w'.world.st.mem x = sys.machine.world.st.mem x)
    (hnew : ∀ g ∈ h'.ranges, g ∈ (sys.heaps i).ranges ∨
      ∀ g' ∈ sys.machine.world.grants, Disjoint g g') :
    SystemInv hhdmBase blockBuf top ⟨w', Function.update sys.heaps i h'⟩ := by
  obtain ⟨lost', st', hready'⟩ := hh'.ready
  have hgranted : ∀ j, ∀ g ∈ (sys.heaps j).ranges, g ∈ sys.machine.world.grants := by
    intro j
    obtain ⟨_, _, hj⟩ := (h.holds j).ready
    exact hj.granted
  have hapart : ∀ j, j ≠ i → ∀ g ∈ h'.ranges, g ∉ (sys.heaps j).ranges := by
    intro j hne g hg hin
    rcases hnew g hg with hold | hfresh
    · exact h.apart i j (Ne.symm hne) g hold hin
    · have hlong := hready'.long g hg
      exact hfresh g (hgranted j g hin) g.base ⟨Nat.le_refl _, by omega⟩ ⟨Nat.le_refl _, by omega⟩
  refine ⟨hready'.placed, fun j => ?_, fun j k hne g => ?_⟩
  · dsimp only
    by_cases heq : j = i
    · subst heq
      rw [Function.update_self]
      exact hh'
    · rw [Function.update_of_ne heq]
      have hkeep' := fun g hg => hkeep g (hgranted j g hg) (h.apart j i heq g hg)
      exact (h.holds j).keep hwindow hready'.placed (fun g hg => (hkeep' g hg).1)
        fun g hg => (hkeep' g hg).2
  · dsimp only
    by_cases hj : j = i
    · subst hj
      rw [Function.update_self, Function.update_of_ne (Ne.symm hne)]
      exact hapart k (Ne.symm hne) g
    · rw [Function.update_of_ne hj]
      by_cases hk : k = i
      · subst hk
        rw [Function.update_self]
        exact fun hg hin => hapart j hj g hin hg
      · rw [Function.update_of_ne hk]
        exact h.apart j k hne g

/-- A call of one allocator, after which its blocks are as they were but for a new one. -/
theorem SystemInv.called (h : SystemInv hhdmBase blockBuf top sys) (hwindow : Window hhdmBase top)
    {i : ι} {lost chain : List U64} {st : State}
    (hgrows : Grows blockBuf sys.machine.world (sys.heaps i).ranges w'.world new)
    (hranges : h'.ranges = new ++ (sys.heaps i).ranges)
    (hready : Ready hhdmBase blockBuf top w'.world h'.arena (new ++ (sys.heaps i).ranges)
      (h'.blocks.map Block.span) lost chain st)
    (hchain : chain = h'.linked.reverse.map (regionOf hhdmBase))
    (hblocks : ∀ b ∈ h'.blocks, b ∈ (sys.heaps i).blocks ∨
      contentOf w'.world.st.mem (b.frame hhdmBase) = b.bytes) :
    SystemInv hhdmBase blockBuf top ⟨w', Function.update sys.heaps i h'⟩ := by
  obtain ⟨lost₀, st₀, hready₀⟩ := (h.holds i).ready
  have hmanaged' := hready.placed.managed
  refine h.update hwindow ⟨⟨lost, st, ?_⟩, fun b hb => ?_⟩ (fun g hg hnot => ?_) fun g hg => ?_
  · rw [hranges, ← hchain]
    exact hready
  · rcases hblocks b hb with hold | hnew
    · have hspan := List.mem_map_of_mem (f := Block.span) hold
      rw [← (h.holds i).contents b hold]
      exact contentOf_frame hready₀ hwindow hspan fun x hx =>
        hgrows.keeps_block hready₀ hmanaged' hspan hx
    · exact hnew
  · exact hgrows.keeps h.placed.managed hmanaged' hready₀.granted hready₀.long hg hnot
  · rw [hranges] at hg
    exact (List.mem_append.mp hg).symm.imp_right fun hg g' hg' => hgrows.fresh hmanaged' hg hg'

theorem SystemInv.grow (h : SystemInv hhdmBase blockBuf top sys) (hwindow : Window hhdmBase top)
    {i : ι} {err : Error} {a' : Arena}
    (hcall : Arenas.grow hhdmBase (sys.heaps i).arena sys.machine = .ok (err, a', w')) :
    SystemInv hhdmBase blockBuf top ⟨w', Function.update sys.heaps i
      ((sys.heaps i).grown err a' (newRanges sys.machine w'))⟩ := by
  obtain ⟨lost, st, hready⟩ := (h.holds i).ready
  obtain ⟨herr, rfl, rfl⟩ | ⟨g, st', rfl, hgrows, hready', -⟩ :=
    hready.grow_cases hwindow hcall
  · rw [newRanges_eq [] rfl]
    refine h.called hwindow (.refl blockBuf _ _) rfl hready ?_ fun b hb => .inl hb
    rw [Heap.grown, if_pos herr]
  · rw [newRanges_eq [g] hgrows.grants]
    refine h.called hwindow hgrows rfl hready' ?_ fun b hb => .inl hb
    rw [Heap.grown, if_neg (by decide)]
    rfl

theorem SystemInv.request (h : SystemInv hhdmBase blockBuf top sys) (hwindow : Window hhdmBase top)
    {i : ι} {c : Call} {p : U64} {a' : Arena} (hargs : RequestOk hhdmBase top c)
    (hfits : Fits hhdmBase (sys.heaps i).arena sys.machine.mem c)
    (hcall : call hhdmBase (sys.heaps i).arena sys.machine c = .ok (p, a', w'))
    (hprinted : w'.printed = []) :
    SystemInv hhdmBase blockBuf top ⟨w', Function.update sys.heaps i
      ((sys.heaps i).served p c.size a' (newRanges sys.machine w'))⟩ := by
  obtain ⟨lost, st, hready⟩ := (h.holds i).ready
  obtain ⟨new, st', hgrows, hready', hzero⟩ :=
    hready.call hwindow hargs hfits hcall hprinted
  rw [newRanges_eq new hgrows.grants]
  have hspans : record ((sys.heaps i).blocks.map Block.span) p c.size =
      ((sys.heaps i).served p c.size a' new).blocks.map Block.span := by
    by_cases hp : p = 0
    · rw [record, Heap.served, if_pos hp, if_pos hp]
    · rw [record, Heap.served, if_neg hp, if_neg hp, List.map_cons, Block.span, List.length_replicate]
  rw [hspans] at hready'
  refine h.called hwindow hgrows rfl hready' ?_ fun b hb => ?_
  · rw [Heap.served, List.reverse_append, List.map_append]
  · by_cases hp : p = 0
    · rw [Heap.served, if_pos hp] at hb
      exact .inl hb
    have hb' := hb
    rw [Heap.served, if_neg hp] at hb'
    rcases List.mem_cons.mp hb' with rfl | hold
    · refine .inr ?_
      obtain ⟨g, hg, hbase, hin, -⟩ := hready'.exists_range (List.mem_map_of_mem hb)
      have hhigh := (hready'.placed.grant (hready'.granted g hg)).2
      have htop := hwindow.high
      have hend := hin.2
      refine (contentOf_of_zero (by omega) fun x hx => hzero hp x ?_).trans ?_
      · rw [mem_def] at hx ⊢
        dsimp only [Block.frame] at hx hbase ⊢
        rw [List.length_replicate] at hx
        omega
      · rw [zerosOf, Block.frame, List.length_replicate]
    · exact .inl hold

/-- The holder of a block writes to nothing else. -/
theorem SystemInv.write (h : SystemInv hhdmBase blockBuf top sys) (hwindow : Window hhdmBase top)
    {i : ι} {k : Nat} {b : Block} {bytes : List U8} {m' : Mem}
    (hk : (sys.heaps i).blocks[k]? = some b) (hlength : bytes.length = b.bytes.length)
    (hholds : ByteMemory.Holds m' (hhdmVirtToPhys hhdmBase b.base) bytes)
    (hframe : ∀ x : U64, x.toNat ∉ b.frame hhdmBase → m' x = sys.machine.mem x) :
    SystemInv hhdmBase blockBuf top ⟨sys.machine.withMem m',
      Function.update sys.heaps i ((sys.heaps i).written k b bytes)⟩ := by
  obtain ⟨lost, st, hready⟩ := (h.holds i).ready
  have hb := List.mem_map_of_mem (f := Block.span) (List.mem_of_getElem? hk)
  obtain ⟨g, hg, hbase, hin, hlow⟩ := hready.exists_range hb
  have hgrant := hready.granted g hg
  have hplaced : Placed blockBuf top (sys.machine.world.withMem m') :=
    h.placed.withMem hgrant fun x hx => hframe x fun hxb => hx (hin.mem hxb)
  have hk' : ((sys.heaps i).blocks.map Block.span)[k]? = some b.span := by
    rw [List.getElem?_map, hk]
    rfl
  have hspan : (⟨b.base, bytes⟩ : Block).span = b.span := by rw [Block.span, Block.span, hlength]
  have hspans : ((sys.heaps i).written k b bytes).blocks.map Block.span =
      (sys.heaps i).blocks.map Block.span := by
    obtain ⟨hlt, hget⟩ := List.getElem?_eq_some_iff.mp hk'
    rw [Heap.written, List.map_set, hspan, ← hget]
    exact List.set_getElem_self hlt
  refine h.update hwindow ⟨⟨lost, st, ?_⟩, fun b' hb' => ?_⟩ (fun g' hg' hnot => ?_)
    fun g' hg' => .inl hg'
  · rw [hspans]
    refine hready.keep hwindow hplaced hready.granted ?_ ?_
    · exact fun g' hg' x hx => hframe x fun hxb => hready.header_apart hb hxb g' hg' hx
    · intro hne x hxlow hxhigh
      refine hframe x fun hxb => ?_
      obtain ⟨g', hg', hcurrent, hrest⟩ := hready.blank_range hwindow hne
      have hsame : g = g' := by
        by_contra hother
        exact h.placed.managed.apart hgrant (hready.granted g' hg') hother x.toNat (hin.mem hxb)
          (hrest x hxlow hxhigh)
      subst hsame
      have hinside : Inside b.span (lift hhdmBase g) := by
        obtain ⟨hin, hin'⟩ := hin
        refine ⟨?_, ?_⟩ <;> dsimp only [Block.span, lift, Block.frame] at hin hin' hbase ⊢ <;> omega
      have hbelow := hcurrent.below b.span hb hinside
      rw [mem_def] at hxb
      dsimp only [Block.span, Block.frame] at hbelow hxb hbase
      omega
  · obtain ⟨l, hl⟩ := List.mem_iff_getElem?.mp hb'
    rw [Heap.written, List.getElem?_set] at hl
    split at hl
    · split at hl
      · obtain rfl := Option.some.inj hl
        rw [contentOf, Block.frame, BitVec.ofNat_toNat, BitVec.setWidth_eq]
        exact bytesFrom_of_holds hholds
      · cases hl
    · rename_i hne
      have hb'old := List.mem_of_getElem? hl
      have hl' : ((sys.heaps i).blocks.map Block.span)[l]? = some b'.span := by
        rw [List.getElem?_map, hl]
        rfl
      rw [← (h.holds i).contents b' hb'old]
      exact contentOf_frame hready hwindow (List.mem_map_of_mem hb'old) fun x hx => hframe x fun hxb =>
        hready.frames_disjoint hk' hl' hne x.toNat hxb hx
  · refine ⟨hg', fun x hx => hframe x fun hxb => ?_⟩
    exact h.placed.managed.apart hgrant hg' (fun heq => hnot (heq ▸ hg)) x.toNat (hin.mem hxb) hx

theorem SystemInv.destroy (h : SystemInv hhdmBase blockBuf top sys) (hwindow : Window hhdmBase top)
    {i : ι} {fuel : Nat} {freed : List U64} {a' : Arena}
    (hcall : Arenas.destroy hhdmBase (sys.heaps i).arena sys.machine fuel = some (freed, a')) :
    SystemInv hhdmBase blockBuf top
      { sys with heaps := Function.update sys.heaps i { arena := a' } } := by
  obtain ⟨regions, -, hpair⟩ := Option.map_eq_some_iff.mp hcall
  obtain ⟨-, rfl⟩ := Prod.mk.inj hpair
  exact h.update hwindow (Heap.holds_new h.placed) (fun g hg _ => ⟨hg, fun _ _ => rfl⟩)
    fun g hg => absurd hg List.not_mem_nil

theorem SystemInv.step (h : SystemInv hhdmBase blockBuf top sys) (hwindow : Window hhdmBase top)
    {event : Event ι} (hfits : FitsEvent hhdmBase sys event)
    (hstep : Step hhdmBase blockBuf top sys event sys') (hprinted : sys'.machine.printed = []) :
    SystemInv hhdmBase blockBuf top sys' := by
  cases hstep with
  | manage hoffers hbelow hcall => exact h.manage hwindow hoffers hbelow hcall
  | store hg hother hframe => exact h.store hwindow hg hother hframe
  | grow hcall => exact h.grow hwindow hcall
  | request hargs hcall => exact h.request hwindow hargs hfits hcall hprinted
  | write hk hlength hholds hframe => exact h.write hwindow hk hlength hholds hframe
  | destroy hcall => exact h.destroy hwindow hcall

/-- A printed error stays printed. -/
theorem Step.printed {event : Event ι} (h : Step hhdmBase blockBuf top sys event sys') :
    sys.machine.printed <+: sys'.machine.printed := by
  cases h with
  | manage _ _ _ => exact List.prefix_refl _
  | store _ _ _ => exact List.prefix_refl _
  | grow hcall => exact grow_printed hcall ▸ List.prefix_refl _
  | request _ hcall => exact call_printed hcall
  | write _ _ _ _ => exact List.prefix_refl _
  | destroy _ => exact List.prefix_refl _

theorem PageRun.run (h : PageRun hhdmBase blockBuf top sys) : Run hhdmBase blockBuf top sys :=
  Runs.RunWhere.imp (fun _ _ hevent => hevent.1) h

theorem Run.inv (h : Run hhdmBase blockBuf top sys) (hwindow : Window hhdmBase top)
    (hprinted : sys.machine.printed = []) : SystemInv hhdmBase blockBuf top sys := by
  refine Runs.RunWhere.induction (Q := fun sys : System ι => sys.machine.printed = [] →
    SystemInv hhdmBase blockBuf top sys) (fun _ hinit _ => hinit.inv) ?_ h hprinted
  intro sys event sys' _ ih hfits hstep hprinted
  have hbefore : sys.machine.printed = [] := List.prefix_nil.mp (hprinted ▸ hstep.printed)
  exact (ih hbefore).step hwindow hfits hstep hprinted

end System

section Results

/-- The first block of an allocator, behind the header of its page. -/
theorem allocAligned_first {hhdmBase page size alignment : U64} {w : Machine} {world : Pmm.World}
    (halloc : w.world.alloc pageSize (some 0) = .ok (.ofCode .success, some page, world))
    (hpage : page.toNat + 24 ≤ 2 ^ 64) (hne : hhdmPhysToVirt hhdmBase page ≠ 0)
    (hargs : ¬ (size = 0 ∨ alignment = 0)) {p : U64}
    (hp : alignUp (hhdmPhysToVirt hhdmBase page + sizeofRegion) alignment = p)
    (hroom : ¬ hhdmPhysToVirt hhdmBase page + pageSize < p + size) :
    ∃ m', allocAligned hhdmBase {} w size alignment =
        .ok (p, ⟨hhdmPhysToVirt hhdmBase page, hhdmPhysToVirt hhdmBase page⟩,
          ⟨world.withMem m', w.printed⟩) ∧
      ∀ x : U64, x.toNat ∉ header ⟨page.toNat, 4096⟩ → m' x = world.st.mem x := by
  rw [← regionOf_page hhdmBase page 4096] at *
  set region := regionOf hhdmBase ⟨page.toNat, 4096⟩ with hregion
  have hheader := @headerAt_openRegion hhdmBase world.st.mem ⟨page.toNat, 4096⟩ hpage pageSize
  have hgrow : grow hhdmBase {} w = .ok (.ofCode .success, ⟨region, region⟩,
      ⟨world.withMem (openRegion hhdmBase world.st.mem region pageSize), w.printed⟩) := by
    rw [grow, Machine.alloc, halloc, hregion, regionOf_page]
    rfl
  have hregionOk : ensureRegion hhdmBase {} w = .ok (⟨region, region⟩,
      ⟨world.withMem (openRegion hhdmBase world.st.mem region pageSize), w.printed⟩) := by
    rw [ensureRegion, if_pos (.inl rfl), hgrow]
    rfl
  refine ⟨setField hhdmBase (openRegion hhdmBase world.st.mem region pageSize) region 8 (p + size),
    ?_, fun x hx => ?_⟩
  · rw [allocAligned, if_neg hargs, hregionOk, ok_bind]
    dsimp only
    rw [deref_of_ne hne, ok_bind, ensureRoom, Machine.mem, Pmm.World.withMem]
    dsimp only
    rw [hheader]
    dsimp only
    rw [hp, if_neg hroom, ok_bind, deref_of_ne hne, ok_bind]
    dsimp only
    rw [Machine.mem, hheader, hp]
    rfl
  · rw [setField_frame hpage (by decide) hx, openRegion_frame hpage hx]

/-- Two allocators share a manager of seven pages, and each has handed out a block. -/
theorem exists_run_twoHeaps : ∃ sys : System Bool,
    PageRun 0xffffffc000000000 0xffffffff80100000 0x8000 sys ∧ sys.machine.printed = [] ∧
    (sys.heaps true).arena.currentRegion = 0xffffffc000001000 ∧
    (sys.heaps true).blocks = [⟨0xffffffc000001018, List.replicate 16 0⟩] ∧
    (sys.heaps false).blocks = [⟨0xffffffc000002018, List.replicate 16 0⟩] ∧
    (sys.heaps false).linked = [⟨0x2000, 4096⟩] := by
  obtain ⟨st₀, st₁, _, hinitial, husable, hregion, h₁⟩ := exists_sevenPages
  obtain ⟨st₂, hfirst, h₂⟩ := h₁.alloc pageSize 0
  have hargs : RequestOk 0xffffffc000000000 0x8000 (.allocAligned 16 8) :=
    ⟨⟨by decide, by decide, 3, by decide, rfl⟩, by decide⟩
  have hfits : FitsAt sizeofRegion pageSize 16 8 := ⟨by decide, .inl (by decide)⟩
  have hstart : PageRun 0xffffffc000000000 0xffffffff80100000 0x8000
      (⟨⟨⟨st₀, [], []⟩, []⟩, fun _ => {}⟩ : System Bool) :=
    .start ⟨hinitial, rfl, rfl⟩
  have hentered := Runs.RunWhere.next hstart
    (show FitsEvent 0xffffffc000000000 _ (.manage (.addRegion 0x1000 0x7000)) ∧ _ from
      ⟨trivial, trivial⟩)
    (.manage (c := .addRegion 0x1000 0x7000) husable (show 0x1000 + 0x7000 ≤ 0x8000 by decide) hregion)
  obtain ⟨m₂, hcall₂, hframe₂⟩ := @allocAligned_first 0xffffffc000000000 0x1000 16 8
    ⟨⟨st₁, [⟨0x1000, 0x7000⟩], []⟩, []⟩ _ (by rw [World.alloc, hfirst]; rfl) (by decide) (by decide)
    (by decide) 0xffffffc000001018 (by decide) (by decide)
  have hone := Runs.RunWhere.next hentered
    (show FitsEvent 0xffffffc000000000 _ (.request true (.allocAligned 16 8)) ∧ _ from
      ⟨hfits, trivial⟩)
    (.request (i := true) (c := .allocAligned 16 8) hargs hcall₂)
  have hbuf : ∀ x, Within x 0xffffffff80100000 bufBytes → m₂ x = st₂.mem x := by
    refine fun x hx => hframe₂ x fun hin => ?_
    rw [within_iff (by decide)] at hx
    have hlow := hx.1
    obtain ⟨-, hhigh⟩ := hin
    have hbase : (0xffffffff80100000 : U64).toNat = 0xffffffff80100000 := rfl
    have hpage : (0x1000 : U64).toNat = 0x1000 := rfl
    dsimp only [header] at hhigh
    omega
  obtain ⟨st₃, hsecond, -⟩ := (h₂.rebase hbuf).alloc pageSize 0
  obtain ⟨m₃, hcall₃, -⟩ := @allocAligned_first 0xffffffc000000000 0x2000 16 8
    ⟨⟨{ st₂ with mem := m₂ }, [⟨0x1000, 0x7000⟩], [⟨0x1000, 4096⟩]⟩, []⟩ _
    (by rw [World.alloc, hsecond]; rfl) (by decide) (by decide) (by decide) 0xffffffc000002018
    (by decide) (by decide)
  have htwo := Runs.RunWhere.next hone
    (show FitsEvent 0xffffffc000000000 _ (.request false (.allocAligned 16 8)) ∧ _ from
      ⟨hfits, trivial⟩)
    (.request (i := false) (c := .allocAligned 16 8) hargs hcall₃)
  exact ⟨_, htwo, rfl, rfl, rfl, rfl, rfl⟩

variable {ι : Type} [DecidableEq ι] {hhdmBase blockBuf : U64} {top : Nat} {sys : System ι}
  {i : ι} {k : Nat} {b : Block}

/-- Over any interleaving of the calls of the allocators, of those of the manager's other
clients and of what they all store, as long as no error has been printed, a block holds what
its holder has put there, and zeros before.  It shares no byte with another block of any
allocator, nor with a range that its own allocator has not obtained. -/
theorem blocks_private (hwindow : Window hhdmBase top) (hrun : Run hhdmBase blockBuf top sys)
    (hprinted : sys.machine.printed = []) (hk : (sys.heaps i).blocks[k]? = some b) :
    contentOf sys.machine.mem (b.frame hhdmBase) = b.bytes ∧
      (∀ j l b', (sys.heaps j).blocks[l]? = some b' → (i, k) ≠ (j, l) →
        Disjoint (b.frame hhdmBase) (b'.frame hhdmBase)) ∧
      ∀ g ∈ sys.machine.world.grants, g ∉ (sys.heaps i).ranges →
        Disjoint (b.frame hhdmBase) g := by
  have hinv := hrun.inv hwindow hprinted
  have hb := List.mem_of_getElem? hk
  obtain ⟨lost, st, hready⟩ := (hinv.holds i).ready
  obtain ⟨g, hg, -, hin, -⟩ := hready.exists_range (List.mem_map_of_mem hb)
  have hgrant := hready.granted g hg
  refine ⟨(hinv.holds i).contents b hb, fun j l b' hl hne => ?_, fun g' hg' hnot => ?_⟩
  · by_cases hij : j = i
    · subst hij
      refine hready.frames_disjoint ?_ ?_ fun hkl : k = l => hne (by rw [hkl])
      · rw [List.getElem?_map, hk]
        rfl
      · rw [List.getElem?_map, hl]
        rfl
    · obtain ⟨_, _, hready'⟩ := (hinv.holds j).ready
      obtain ⟨g', hg', -, hin', -⟩ :=
        hready'.exists_range (List.mem_map_of_mem (List.mem_of_getElem? hl))
      have hapart : g ≠ g' := fun heq => hinv.apart i j (Ne.symm hij) g hg (heq ▸ hg')
      exact (hinv.placed.managed.apart hgrant (hready'.granted g' hg') hapart).mono hin hin'
  · have hapart : g ≠ g' := fun heq => hnot (heq ▸ hg)
    exact fun x hx => hinv.placed.managed.apart hgrant hg' hapart x (hin.mem hx)

/-- The first of two blocks shows its holder's sevens and the second one zeros. -/
theorem blocks_private_sevens : ∃ sys : System Bool,
    Run 0xffffffc000000000 0xffffffff80100000 0x8000 sys ∧
    contentOf sys.machine.mem ⟨0x1018, 16⟩ = List.replicate 16 7 ∧
    contentOf sys.machine.mem ⟨0x2018, 16⟩ = List.replicate 16 0 ∧
    Span.Disjoint ⟨0x1018, 16⟩ ⟨0x2018, 16⟩ := by
  obtain ⟨sys, hrun, hprinted, -, hfirst, hsecond, -⟩ := exists_run_twoHeaps
  have hframe : ∀ x : U64, x.toNat ∉ (⟨0x1018, 16⟩ : Span) →
      setRange sys.machine.mem 0x1018 16 7 x = sys.machine.mem x :=
    fun x hx => setRange_apply_of_not_within (mt (within_iff (by decide)).mp hx)
  have hlast := Runs.RunWhere.next hrun.run
    (show FitsEvent 0xffffffc000000000 sys (.write true 0 (List.replicate 16 7)) from trivial)
    (.write (b := ⟨0xffffffc000001018, List.replicate 16 0⟩) (by rw [hfirst]; rfl) rfl
      (holds_setRange sys.machine.mem 0x1018 (by decide) 7) hframe)
  obtain ⟨hsevens, hapart, -⟩ := blocks_private ⟨by decide, by decide⟩ hlast hprinted
    (i := true) (k := 0) (b := ⟨0xffffffc000001018, List.replicate 16 7⟩) (by
      dsimp only
      rw [Function.update_self, Heap.written, hfirst]
      rfl)
  have hother : (Function.update sys.heaps true ((sys.heaps true).written 0
      ⟨0xffffffc000001018, List.replicate 16 0⟩ (List.replicate 16 7)) false).blocks[0]? =
        some ⟨0xffffffc000002018, List.replicate 16 0⟩ := by
    rw [Function.update_of_ne (by decide), hsecond]
    rfl
  obtain ⟨hzeros, -⟩ := blocks_private ⟨by decide, by decide⟩ hlast hprinted hother
  exact ⟨_, hlast, hsevens, hzeros, hapart false 0 _ hother (by decide)⟩

/-- The destructor passes on the ranges obtained since the last `grow`, oldest first, with the
one `grow` began with, and no others. -/
theorem destroy_frees (hwindow : Window hhdmBase top) (hrun : Run hhdmBase blockBuf top sys)
    (hprinted : sys.machine.printed = []) (i : ι) {fuel : Nat}
    (hfuel : (sys.heaps i).linked.length < fuel) :
    destroy hhdmBase (sys.heaps i).arena sys.machine fuel =
      some ((sys.heaps i).linked.reverse.map fun g => BitVec.ofNat 64 g.base, {}) := by
  obtain ⟨lost, st, hready⟩ := ((hrun.inv hwindow hprinted).holds i).ready
  have hlinked := hready.linked hwindow
  have hlength : ((sys.heaps i).linked.reverse.map (regionOf hhdmBase)).length < fuel := by
    rw [List.length_map, List.length_reverse]
    exact hfuel
  rw [destroy, Machine.mem, walk_eq_some.mpr ⟨hlinked, hlength⟩, Option.map_some, List.map_map]
  congr 3
  funext g
  exact hhdmVirtToPhys_regionOf g

/-- The second allocator passes on its page. -/
theorem destroy_frees_twoHeaps : ∃ sys : System Bool,
    Run 0xffffffc000000000 0xffffffff80100000 0x8000 sys ∧
    destroy 0xffffffc000000000 (sys.heaps false).arena sys.machine 2 = some ([0x2000], {}) := by
  obtain ⟨sys, hrun, hprinted, -, -, -, hlinked⟩ := exists_run_twoHeaps
  refine ⟨sys, hrun.run, ?_⟩
  rw [destroy_frees ⟨by decide, by decide⟩ hrun.run hprinted false (by rw [hlinked]; decide), hlinked]
  rfl

end Results

end Octiron.Bump.Arenas
