import Octiron.Exec
import Octiron.Memory
import Octiron.Types.Error

/-! `allocators/slab.h`: a slab allocator that threads its free blocks through
the memory it hands out.  The region header is four words: `m_total`, `m_free`,
`m_blocks` and `m_next`. -/
namespace Octiron.Slab

open Lib.Word Lib.ByteMemory Exec

/-- `s_BLOCK_SZ`, `s_BLOCK_ALIGN` and `ZeroOut` of an instance `slab_alloc<T>`. -/
structure BlockType where
  size : U64
  align : U64
  zeroOut : Bool := true

structure SlabAlloc where
  regions : U64 := 0
  total : U64 := 0
  free : U64 := 0

/-- `sizeof(slab_region)`. -/
def sizeofRegion : U64 := 32

/-- `alignof(slab_region)`. -/
def regionAlign : U64 := 8

def regionSize (t : BlockType) (n : U64) : U64 := alignUp sizeofRegion t.align + n * t.size

/-- The linking loop of `grow`, with the final null link after its last turn. -/
def linkBlocks (t : BlockType) (m : Mem) (block : U64) : Nat → Exec Mem
  | 0 => do
    deref block
    return store64 m block 0
  | i + 1 => do
    deref block
    linkBlocks t (store64 m block (block + t.size)) (block + t.size) i

def grow (t : BlockType) (s : SlabAlloc) (m : Mem) (buffer bufferSize : U64) :
    Exec (SlabAlloc × Mem) := do
  kassert (buffer != 0)
  kassert (buffer % regionAlign == 0)
  kassert (decide (regionSize t 1 ≤ bufferSize))
  let ptr := buffer + alignUp sizeofRegion t.align
  let total := (bufferSize - sizeofRegion) / t.size
  let m := store64 (store64 (store64 m buffer total) (buffer + 8) total) (buffer + 16) ptr
  let m ← linkBlocks t m ptr total.toNat
  return (⟨buffer, s.total + total, s.free + total⟩, store64 m (buffer + 24) s.regions)

/-- The walk to the first region with a free block.  Every region holds at least
one block, so `m_total` bounds its length. -/
def findRegion (m : Mem) (region : U64) : Nat → Exec U64
  | 0 => .error .endless
  | fuel + 1 =>
    if region ≠ 0 ∧ load64 m (region + 8) = 0 then findRegion m (load64 m (region + 24)) fuel
    else .ok region

def alloc (t : BlockType) (s : SlabAlloc) (m : Mem) : Exec (U64 × SlabAlloc × Mem) :=
  if s.free = 0 then .ok (0, s, m)
  else do
    let region ← findRegion m s.regions (s.total.toNat + 1)
    if region = 0 then .ok (0, s, m)
    else do
      let b := load64 m (region + 16)
      deref b
      let m := store64 m (region + 16) (load64 m b)
      let m := store64 m (region + 8) (load64 m (region + 8) - 1)
      let m := if t.zeroOut then Memory.fill m b 0 t.size.toNat else m
      return (b, { s with free := s.free - 1 }, m)

/-- Returning an object is not implemented. -/
def free (_obj : U64) : Error := .ofCode .notImplemented

end Octiron.Slab
