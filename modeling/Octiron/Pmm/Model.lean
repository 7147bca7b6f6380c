import Octiron.Allocators.Slab

/-! `pmm.cpp`: the physical memory manager.  Block descriptors live in memory,
carved from `BLOCK_BUF` by the slab allocator; the region table and the counters
are kernel globals. -/
namespace Octiron.Pmm

open Lib.ByteMemory Exec

inductive Policy where
  | firstFit
  | bestFit
  | worstFit
  | nextFit
  deriving DecidableEq, Repr

/-- `slab_alloc<memory_block>`: three words, eight-byte aligned. -/
def memoryBlock : Slab.BlockType := { size := 24, align := 8 }

def initialMemBlockCount : U64 := 64

def blockBufSize : U64 := Slab.regionSize memoryBlock initialMemBlockCount

section Block

variable (m : Mem) (block : U64)

def blockBase : U64 := load64 m block
def blockLength : U64 := load64 m (block + 8)
def blockNext : U64 := load64 m (block + 16)

def setBlockBase (v : U64) : Mem := store64 m block v
def setBlockLength (v : U64) : Mem := store64 m (block + 8) v
def setBlockNext (v : U64) : Mem := store64 m (block + 16) v

end Block

structure MemoryRegion where
  base : U64
  length : U64
  freeBytes : U64
  freeBlocks : U64
  deriving DecidableEq

def regionCountMax : Nat := 16

/-- The globals of the manager and the memory.  `regions` holds the first
`region_count` entries of the table. -/
structure State where
  pol : Policy := .firstFit
  totalBytes : U64 := 0
  freeBytes : U64 := 0
  regions : List MemoryRegion := []
  blockAllocator : Slab.SlabAlloc := {}
  mem : Mem

def pmmInitialize (st : State) (blockBuf : U64) (p : Policy) : Exec State := do
  let (slab, mem) ← Slab.grow memoryBlock st.blockAllocator st.mem blockBuf blockBufSize
  return { st with pol := p, blockAllocator := slab, mem := mem }

/-- The overlap test of `add_region` against one managed region. -/
def managesBase (region : MemoryRegion) (alignedBase : U64) : Bool :=
  region.base ≤ alignedBase && alignedBase ≤ region.base + region.length

/-- Record a region that passed every test.  Two descriptors are taken and both
assertions test the first. -/
def insertRegion (st : State) (alignedBase alignedSize : U64) : Exec (Error × State) := do
  let (freeBlock, slab, mem) ← Slab.alloc memoryBlock st.blockAllocator st.mem
  kassert (freeBlock != 0)
  let (block, slab, mem) ← Slab.alloc memoryBlock slab mem
  kassert (freeBlock != 0)
  deref block
  let mem := setBlockNext (setBlockLength (setBlockBase mem block alignedBase) block
    alignedSize) block 0
  return (.ofCode .success, { st with
    regions := st.regions ++ [⟨alignedBase, alignedSize, alignedSize, block⟩]
    totalBytes := st.totalBytes + alignedSize
    freeBytes := st.freeBytes + alignedSize
    blockAllocator := slab
    mem := mem })

def addRegion (st : State) (regionBase regionSize : U64) : Exec (Error × State) :=
  let alignedBase := alignUp regionBase pageSize
  let alignedSize := alignDown (regionSize - (alignedBase - regionBase)) pageSize
  if regionBase = 0 then .ok (.ofCode .nullArgument, st)
  else if st.regions.length ≥ regionCountMax then .ok (.ofCode .pmmRegionListFull, st)
  else if ¬ alignedBase + alignedSize ≤ regionBase + regionSize ∨ ¬ alignedSize ≥ pageSize then
    .ok (.ofCode .pmmRegionTooSmall, st)
  else if st.regions.any (managesBase · alignedBase) then .ok (.ofCode .pmmRegionManaged, st)
  else insertRegion st alignedBase alignedSize

/-- What the split leaves behind: the region's list head, the slab and memory. -/
structure SplitResult where
  freeBlocks : U64
  slab : Slab.SlabAlloc
  mem : Mem

/-- The five-way split of a block around `[alignedBase, alignedBase + size)`.
When both sides remain, the descriptor of the tail is filled in but no list is
made to point at it. -/
def splitBlock (st : State) (freeBlocks prev curr currBase currLen alignedBase size : U64) :
    Exec SplitResult := do
  let existsPreceding := currBase ≠ alignedBase
  let existsPostceding := currBase + currLen > alignedBase + size
  deref curr
  if existsPreceding ∧ existsPostceding then
    let mem := setBlockLength st.mem curr (alignedBase - currBase)
    let (extra, slab, mem) ← Slab.alloc memoryBlock st.blockAllocator mem
    kassert (extra != 0)
    let mem := setBlockBase mem extra (alignedBase + size)
    let mem := setBlockLength mem extra (currBase + currLen - (alignedBase + size))
    return ⟨freeBlocks, slab, setBlockNext mem extra (blockNext mem curr)⟩
  else if existsPreceding then
    return ⟨freeBlocks, st.blockAllocator, setBlockLength st.mem curr (alignedBase - currBase)⟩
  else if existsPostceding then
    let mem := setBlockBase st.mem curr (alignedBase + size)
    return ⟨freeBlocks, st.blockAllocator,
      setBlockLength mem curr (currBase + currLen - (alignedBase + size))⟩
  else if prev = 0 then
    return ⟨blockNext st.mem curr, st.blockAllocator, st.mem⟩
  else
    let mem := setBlockNext st.mem prev (blockNext st.mem curr)
    kassert (Slab.free curr).isOk
    return ⟨freeBlocks, st.blockAllocator, mem⟩

/-- The body of the `while` over a region's list, entered at its head.  Nothing
skips the split after stepping over a block that is too small, and every path
through the split returns or stops, so the body runs once. -/
def allocFromRegion (st : State) (i : Nat) (region : MemoryRegion) (size alignment : U64) :
    Exec (Error × Option U64 × State) := do
  let head := region.freeBlocks
  let currBase := blockBase st.mem head
  let currLen := blockLength st.mem head
  let alignedBase := alignUp currBase alignment
  let tooSmall := currBase + currLen < alignedBase + size
  let prev := if tooSmall then head else 0
  let curr := if tooSmall then blockNext st.mem head else head
  let split ← splitBlock st head prev curr currBase currLen alignedBase size
  derefBytes alignedBase size
  return (.ofCode .success, some alignedBase, { st with
    regions := st.regions.set i { region with
      freeBytes := region.freeBytes - size
      freeBlocks := split.freeBlocks }
    freeBytes := st.freeBytes - size
    blockAllocator := split.slab
    mem := Memory.fill split.mem alignedBase 0 size.toNat })

/-- The loop over the region table, from entry `i` on. -/
def searchRegions (st : State) (size alignment : U64) :
    Nat → List MemoryRegion → Exec (Error × Option U64 × State)
  | _, [] => .ok (.ofCode .pmmOutOfMem, some 0, st)
  | i, region :: rest =>
    if region.freeBytes < size then searchRegions st size alignment (i + 1) rest
    else if region.freeBlocks = 0 then searchRegions st size alignment (i + 1) rest
    else allocFromRegion st i region size alignment

def badAlignment (alignment : U64) : Bool :=
  alignment < pageSize || alignment &&& (alignment - 1) != 0

/-- `ret` is the word the out-pointer designates, `none` for a null pointer; the
word it holds on return comes back beside the error. -/
def allocAligned (st : State) (size alignment : U64) (ret : Option U64) :
    Exec (Error × Option U64 × State) :=
  let size := alignUp size pageSize
  if ret.isNone then .ok (.ofCode .nullArgument, none, st)
  else if badAlignment alignment then .ok (.ofCode .pmmBadAlign, some 0, st)
  else if st.freeBytes < size then .ok (.ofCode .pmmOutOfMem, some 0, st)
  else if st.blockAllocator.free < 16 then .error .todo
  else if st.pol ≠ .firstFit then .error .todo
  else searchRegions st size alignment 0 st.regions

def alloc (st : State) (size : U64) (ret : Option U64) : Exec (Error × Option U64 × State) :=
  allocAligned st size pageSize ret

def totalMemory (st : State) : U64 := st.totalBytes

def freeMemory (st : State) : U64 := st.freeBytes

end Octiron.Pmm
