import Octiron.Memory
import Octiron.Pmm.Client

/-! `riscv/sv39.cpp`: three-level page tables.  A table is 512 entries of eight
bytes, accessed at its physical address. -/
namespace Octiron.Riscv.Sv39

open Lib.Word Lib.ByteMemory

def tefValid : U64 := 0b00000001
def tefRead : U64 := 0b00000010
def tefWrite : U64 := 0b00000100
def tefExecute : U64 := 0b00001000
def tefUser : U64 := 0b00010000
def tefGlobal : U64 := 0b00100000
def tefAccessed : U64 := 0b01000000
def tefDirty : U64 := 0b10000000

/-- The bits of `TableEntryFlags`. -/
def tefMask : U64 := tefValid ||| tefRead ||| tefWrite ||| tefExecute ||| tefUser ||| tefGlobal |||
  tefAccessed ||| tefDirty

section TableEntry

variable (entry : U64)

def tableEntry (pageAddress flags : U64) : U64 := (pageAddress >>> 2) ||| flags

def getAddress : U64 := (entry >>> 10) <<< 12
def getMegapageAddr : U64 := (entry >>> 10) <<< 21
def getGigapageAddr : U64 := (entry >>> 10) <<< 30

def isValid : Bool := 0 != entry &&& tefValid
def isReadable : Bool := 0 != entry &&& tefRead
def isWritable : Bool := 0 != entry &&& tefWrite
def isExecutable : Bool := 0 != entry &&& tefExecute
def isLeaf : Bool := isReadable entry || isWritable entry || isExecutable entry

end TableEntry

/-- `alignof(page_table)`, that of its entries. -/
def alignofPageTable : U64 := 8

/-- The address of `(*table)[index]`. -/
def entryAddr (table index : U64) : U64 := table + 8 * index

/-- `vpn[level]`. -/
def vpn (va : U64) (level : Nat) : U64 := (va >>> (12 + 9 * level)) &&& 0x1FF

/-- Memory, and the calls of `pmm::alloc` so far: how many, and the pages granted,
newest first. -/
structure State where
  mem : Mem
  allocs : Nat
  pages : List U64

/-- The state after a granted page, which comes zeroed. -/
def State.grant (st : State) (page : U64) : State where
  mem := Memory.fill st.mem page 0 pageSize.toNat
  allocs := st.allocs + 1
  pages := page :: st.pages

/-- The block `map_small_page` runs at levels 2 and 1: an invalid entry gets a new
table below it.  `rest` is the part of the function behind the block. -/
def ensureTable (answers : Pmm.Answers) (st : State) (err : Error) (entry : U64)
    (rest : Error → State → Error × State) : Error × State :=
  if isValid (load64 st.mem entry) then rest err st
  else match answers st.allocs with
    | .failed err _ => (err.push .pagingAllocFailed, { st with allocs := st.allocs + 1 })
    | .granted page =>
      let st := st.grant page
      rest (.ofCode .success) { st with mem := store64 st.mem entry (tableEntry page tefValid) }

def mapSmallPage (answers : Pmm.Answers) (st : State) (root va pa flags : U64) : Error × State :=
  if !isAligned va alignofPageTable || !isAligned pa alignofPageTable then
    (.ofCode .pagingUnalignedAddr, st)
  else
    let l2Entry := entryAddr root (vpn va 2)
    ensureTable answers st (.ofCode .success) l2Entry fun err st =>
      let l1Entry := entryAddr (getAddress (load64 st.mem l2Entry)) (vpn va 1)
      ensureTable answers st err l1Entry fun err st =>
        let l0Entry := entryAddr (getAddress (load64 st.mem l1Entry)) (vpn va 0)
        if isValid (load64 st.mem l0Entry) then (.ofCode .pagingMapExists, st)
        else (err, { st with mem := store64 st.mem l0Entry (tableEntry pa (flags ||| tefValid)) })

/-- The physical address a leaf found at a level stands for.  At level 1 the code
combines with `||`, so its result is a truth value. -/
def leafAddress (pte va : U64) (level : Nat) : U64 :=
  match level with
  | 2 => getGigapageAddr pte ||| (vpn va 1 <<< 21) ||| (vpn va 0 <<< 12)
  | 1 => if getMegapageAddr pte ≠ 0 ∨ vpn va 0 <<< 12 ≠ 0 then 1 else 0
  | _ => getAddress pte

/-- The loop from `level` down to 0; `none` is the end of the function, marked
unreachable. -/
def walkDown (m : Mem) (va table : U64) (level : Nat) : Option U64 :=
  let pte := load64 m (entryAddr table (vpn va level))
  let pageOffset := va &&& pageSize
  if !isValid pte then some (-1)
  else if isLeaf pte then some (leafAddress pte va level ||| pageOffset)
  else match level with
    | 0 => none
    | level + 1 => walkDown m va (getAddress pte) level

def virtToPhys (m : Mem) (root va : U64) : Option U64 := walkDown m va root 2

end Octiron.Riscv.Sv39
