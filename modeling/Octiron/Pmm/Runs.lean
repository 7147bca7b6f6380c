import Octiron.Pmm.Descriptors
import Octiron.Lib.Span
import Octiron.Lib.Runs

/-! Runs of the physical memory manager: `initialize(FIRST_FIT)` and then any
calls of `add_region` and `alloc_aligned` that return, with the history of the
regions offered and of the ranges granted. -/
namespace Octiron.Pmm

open Lib Lib.Word Lib.ByteMemory Lib.Span Exec

def pageBytes : Nat := 4096

/-- The blocks linked in a null-terminated free list, in list order. -/
inductive Linked (m : Mem) : U64 → List U64 → Prop where
  | nil : Linked m 0 []
  | cons {block : U64} {rest : List U64} (hne : block ≠ 0)
      (hrest : Linked m (blockNext m block) rest) : Linked m block (block :: rest)

/-- The range a descriptor stands for. -/
def blockSpan (m : Mem) (block : U64) : Span :=
  ⟨(blockBase m block).toNat, (blockLength m block).toNat⟩

def regionSpan (region : MemoryRegion) : Span := ⟨region.base.toNat, region.length.toNat⟩

def bufSpan (blockBuf : U64) : Span := ⟨blockBuf.toNat, bufBytes⟩

structure World where
  st : State
  /-- The regions offered to `add_region`, newest first. -/
  offered : List Span
  /-- The ranges granted by `alloc_aligned`, page-rounded, newest first. -/
  grants : List Span

/-- What Limine promises of a usable entry, and of it against the earlier ones.
The kernel image lies above every physical address; were `BLOCK_BUF` below, no
usable entry would cover it. -/
structure Usable (blockBuf : U64) (offered : List Span) (s : Span) : Prop where
  base_pos : 0 < s.base
  base_aligned : pageBytes ∣ s.base
  length_pos : 0 < s.length
  length_aligned : pageBytes ∣ s.length
  high : s.base + s.length ≤ 2 ^ 56
  buf : blockBuf.toNat < 2 ^ 56 → Disjoint s (bufSpan blockBuf)
  fresh : ∀ t ∈ offered, Disjoint s t

theorem Usable.disjoint_buf {blockBuf : U64} {offered : List Span} {s : Span}
    (h : Usable blockBuf offered s) : Disjoint s (bufSpan blockBuf) := by
  by_cases hlow : blockBuf.toNat < 2 ^ 56
  · exact h.buf hlow
  · intro x hx hbuf
    have hhigh := h.high
    rw [mem_def] at hx
    have hbase : blockBuf.toNat ≤ x := hbuf.1
    omega

/-- The history after a call that ended with `err` and stored `ret`. -/
def recordGrant (grants : List Span) (err : Error) (ret : Option U64) (size : U64) : List Span :=
  match ret with
  | some r => if err.isOk then ⟨r.toNat, (alignUp size pageSize).toNat⟩ :: grants else grants
  | none => grants

inductive Call where
  | addRegion (base size : U64)
  | allocAligned (size alignment : U64) (ret : Option U64)

/-- One call that returns. -/
inductive Step (blockBuf : U64) : World → Call → World → Prop where
  | addRegion {w : World} {base size : U64} {err : Error} {st' : State}
      (husable : Usable blockBuf w.offered ⟨base.toNat, size.toNat⟩)
      (hcall : addRegion w.st base size = .ok (err, st')) :
      Step blockBuf w (.addRegion base size)
        ⟨st', ⟨base.toNat, size.toNat⟩ :: w.offered, w.grants⟩
  | allocAligned {w : World} {size alignment : U64} {ret ret' : Option U64} {err : Error}
      {st' : State} (hcall : allocAligned w.st size alignment ret = .ok (err, ret', st')) :
      Step blockBuf w (.allocAligned size alignment ret)
        ⟨st', w.offered, recordGrant w.grants err ret' size⟩

/-- The state right after `initialize`, over any contents of memory. -/
def Initial (blockBuf : U64) (w : World) : Prop :=
  blockBuf.toNat + bufBytes ≤ 2 ^ 64 ∧ w.offered = [] ∧ w.grants = [] ∧
    ∃ mem, pmmInitialize { mem := mem } blockBuf .firstFit = .ok w.st

def Run (blockBuf : U64) (w : World) : Prop := Runs.Run (Initial blockBuf) (Step blockBuf) w

/-- Runs all of whose calls meet a condition on the state they are made in. -/
abbrev RunWhere (blockBuf : U64) (P : World → Call → Prop) (w : World) : Prop :=
  Runs.RunWhere (Initial blockBuf) (Step blockBuf) P w

/-- `initialize` and one accepted `add_region`, over zeroed memory. -/
def bootWith (blockBuf base size : U64) : Exec State := do
  let st ← pmmInitialize { mem := fun _ => 0 } blockBuf .firstFit
  let (_, st) ← addRegion st base size
  return st

theorem runWhere_bootWith {blockBuf base size : U64} {P : World → Call → Prop} {st : State}
    (hobject : blockBuf.toNat + bufBytes ≤ 2 ^ 64)
    (husable : Usable blockBuf [] ⟨base.toNat, size.toNat⟩)
    (hP : ∀ w, P w (.addRegion base size)) (h : bootWith blockBuf base size = .ok st) :
    RunWhere blockBuf P ⟨st, [⟨base.toNat, size.toNat⟩], []⟩ := by
  obtain ⟨st₀, hinit, h⟩ := bind_eq_ok.mp h
  obtain ⟨⟨err, st₁⟩, hadd, h⟩ := bind_eq_ok.mp h
  rw [← pure_eq_ok.mp h]
  have hstart : Initial blockBuf ⟨st₀, [], []⟩ := ⟨hobject, rfl, rfl, _, hinit⟩
  exact (Runs.RunWhere.start hstart).next (hP _) (.addRegion husable hadd)

/-- Three pages just above the first one, with `BLOCK_BUF` in the kernel image. -/
theorem usable_threePages : Usable 0xffffffff80100000 [] ⟨0x1000, 0x3000⟩ :=
  ⟨by decide, by decide, by decide, by decide, by decide, fun h => absurd h (by decide), by simp⟩

end Octiron.Pmm
