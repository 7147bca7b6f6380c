import Octiron.Allocators.BumpMemory
import Octiron.DeviceTree.Rewrite

/-! `recursive_property_rewrite` in memory.  The records of the tree, the blob, the headers
of the bump allocator and the arrays all lie in one memory, and every load finds what was
stored there last. -/
namespace Octiron.DeviceTree

open Lib.ByteMemory Exec Pmm

def PropertyType.val (type : PropertyType) : U32 := BitVec.ofNat 32 type.ctorIdx

namespace InMemory

/-- The memory that the pass stores in, and its allocator. -/
abbrev Heap := Bump.InMemory.Heap

def load32 (m : Mem) (a : U64) : U32 := BitVec.ofNat 32 (load m a 4)

def store32 (m : Mem) (a : U64) (v : U32) : Mem := store m a 4 v.toNat

def viewAt (m : Mem) (a : U64) : StrView := ⟨load64 m a, load64 m (a + 8)⟩

def storeView (m : Mem) (a : U64) (view : StrView) : Mem :=
  store64 (store64 m a view.data) (a + 8) view.size

section Records

variable (m : Mem)

/-! The fields of a `dt::node`, behind its name. -/

def cellsAt (node : U64) : Cells := ⟨load32 m (node + 16), load32 m (node + 20)⟩

def propertiesAt (node : U64) : U64 := load64 m (node + 24)

def parentAt (node : U64) : U64 := load64 m (node + 32)

def childrenAt (node : U64) : U64 := load64 m (node + 40)

def nextSiblingAt (node : U64) : U64 := load64 m (node + 48)

def setAddressCells (node : U64) (cells : U32) : Mem := store32 m (node + 16) cells

def setSizeCells (node : U64) (cells : U32) : Mem := store32 m (node + 20) cells

/-! Those of a `dt::property`, whose union is six words long. -/

def nextPropertyAt (prop : U64) : U64 := load64 m (prop + 16)

def typeAt (prop : U64) : U32 := load32 m (prop + 24)

def dataAt (prop : U64) : Data :=
  ⟨load64 m (prop + 32), load64 m (prop + 40), load64 m (prop + 48), load64 m (prop + 56),
    load64 m (prop + 64), load64 m (prop + 72)⟩

def storeData (prop : U64) (data : Data) : Mem :=
  let m := store64 m (prop + 32) data.word0
  let m := store64 m (prop + 40) data.word1
  let m := store64 m (prop + 48) data.word2
  let m := store64 m (prop + 56) data.word3
  let m := store64 m (prop + 64) data.word4
  store64 m (prop + 72) data.word5

end Records

/-- The type, and the words of the union; those that a decoder does not assign are stored
as they are. -/
def setProperty (m : Mem) (prop : U64) (type : PropertyType) (data : Data) : Mem :=
  storeData (store32 m (prop + 24) type.val) prop data

/-- The type is stored before the value is looked at. -/
def retype (m : Mem) (prop : U64) (type : PropertyType) (decode : Mem → Data → Data) : Mem :=
  let m := store32 m (prop + 24) type.val
  storeData m prop (decode m (dataAt m prop))

def decodeInteger (m : Mem) (data : Data) : Data :=
  data.setLow32 (readBigEndian32 m data.raw.data)

/-- `node->parent->...`. -/
def parentCells (m : Mem) (node : U64) : Exec Cells := do
  deref (parentAt m node)
  return cellsAt m (parentAt m node)

section Elements

variable (m : Mem) (array i ptr : U64) (cells : U32)

/-- `((u32*)address_array)[i] = ...` of `reg`, and its wider siblings. -/
def storeRegAddress : Exec Mem :=
  if cells = 0 then .ok m
  else if cells = 1 then do
    deref array
    return store m (array + 4 * i) 4 (readBigEndian32 m ptr).toNat
  else if cells = 2 then do
    deref array
    return store m (array + 8 * i) 8 (readBigEndian64 m ptr).toNat
  else if cells = 3 then do
    deref array
    return store m (array + 16 * i) 16 (readBigEndian128 m ptr).toNat
  else .error .unreachable

def storeSize : Exec Mem :=
  if cells = 0 then .ok m
  else if cells = 1 then do
    deref array
    return store m (array + 4 * i) 4 (readBigEndian32 m ptr).toNat
  else if cells = 2 then do
    deref array
    return store m (array + 8 * i) 8 (readBigEndian64 m ptr).toNat
  else .error .unreachable

/-- The two address arrays of `range`: sixteen bytes are cut to eight. -/
def storeRangeAddress : Exec Mem :=
  if cells = 1 then do
    deref array
    return store m (array + 4 * i) 4 (readBigEndian32 m ptr).toNat
  else if cells = 2 then do
    deref array
    return store m (array + 8 * i) 8 (readBigEndian64 m ptr).toNat
  else if cells = 3 then do
    deref array
    return store m (array + 8 * i) 8 ((readBigEndian128 m ptr).setWidth 64).toNat
  else .error .unreachable

end Elements

/-- A decoding loop: row `i` of the value is at offset `j`. -/
def storeRows (row : U64 → U64 → Mem → Exec Mem) (width : U64) : Nat → U64 → U64 → Mem → Exec Mem
  | 0, _, _, m => .ok m
  | n + 1, i, j, m => do
    let m ← row i j m
    storeRows row width n (i + 1) (j + width) m

/-- The cell counts are read again for each element. -/
def storeRegRow (node data addressSize addressArray sizeArray i j : U64) (m : Mem) : Exec Mem := do
  let parent ← parentCells m node
  let m ← storeRegAddress m addressArray i (data + j) parent.address
  let j := j + addressSize
  let parent ← parentCells m node
  storeSize m sizeArray i (data + j) parent.size

def storeRangeRow (node data childAddressSize parentAddressSize cbusAddressArray pbusAddressArray
    sizeArray i j : U64) (m : Mem) : Exec Mem := do
  let m ← storeRangeAddress m cbusAddressArray i (data + j) (cellsAt m node).address
  let j := j + childAddressSize
  let parent ← parentCells m node
  let m ← storeRangeAddress m pbusAddressArray i (data + j) parent.address
  let j := j + parentAddressSize
  storeSize m sizeArray i (data + j) (cellsAt m node).size

/-- The splitting loop, at byte `i` of the value and record `j` of the array.  The pointer
to the array is read from the property each time, and the length from the record. -/
def storeStrings (prop : U64) (raw : ByteView) : Nat → U64 → Nat → Mem → Exec Mem
  | 0, _, _, _ => .error .endless
  | turns + 1, i, j, m =>
    if i < raw.size then do
      let string ← StrView.fromNullTerm m (raw.data + i)
      let array := (dataAt m prop).word0
      deref array
      let m := storeView m (array + BitVec.ofNat 64 (16 * j)) string
      let stored := viewAt m ((dataAt m prop).word0 + BitVec.ofNat 64 (16 * j))
      storeStrings prop raw turns (i + (stored.size + 1)) (j + 1) m
    else .ok m

section Decoders

variable (hhdmBase : U64) (answers : Answers)

def rewriteCompatible (prop : U64) (h : Heap) : Exec Heap := do
  let rawView := (dataAt h.mem prop).raw
  let numStrings := countStrings h.mem rawView
  let (array, h) ← Bump.InMemory.allocAligned hhdmBase answers h
    (8 * BitVec.ofNat 64 (numStrings + 1)) 8
  let m := store64 h.mem (prop + 32) array
  kassert (array != 0)
  let m ← storeStrings prop rawView (rawView.size.toNat + 1) 0 0 m
  let m := storeView m ((dataAt m prop).word0 + BitVec.ofNat 64 (16 * numStrings)) ⟨0, 0⟩
  return { h with mem := store32 m (prop + 24) PropertyType.compatible.val }

def propertyRewriteRanges (node prop : U64) (h : Heap) : Exec Heap :=
  let data := dataAt h.mem prop
  let raw := data.raw
  if raw.size = 0 then
    let data := { data with word0 := 0, word1 := 0, word2 := 0, word3 := 0 }
    .ok { h with mem := setProperty h.mem prop .ranges data }
  else do
    let own := cellsAt h.mem node
    let parent ← parentCells h.mem node
    let childAddressSize := cellBytes own.address
    let parentAddressSize := cellBytes parent.address
    let sizeSize := cellBytes own.size
    let width := (childAddressSize + parentAddressSize + sizeSize).setWidth 64
    let nTrips ← divide raw.size width
    kassert (nTrips > 0)
    kassert (raw.size % width == 0)
    kassert (own.address ≤ 3)
    kassert (own.size ≤ 2)
    let (cbusAddressArray, h) ← Bump.InMemory.allocAligned hhdmBase answers h
      (childAddressSize.setWidth 64 * nTrips) (childAddressSize.setWidth 64)
    let (pbusAddressArray, h) ← Bump.InMemory.allocAligned hhdmBase answers h
      (childAddressSize.setWidth 64 * nTrips) (childAddressSize.setWidth 64)
    let (sizeArray, h) ← Bump.InMemory.allocAligned hhdmBase answers h
      (sizeSize.setWidth 64 * nTrips) (sizeSize.setWidth 64)
    let m ← storeRows (storeRangeRow node raw.data (childAddressSize.setWidth 64)
      (parentAddressSize.setWidth 64) cbusAddressArray pbusAddressArray sizeArray)
      width nTrips.toNat 0 0 h.mem
    let data := { dataAt m prop with
      word0 := nTrips
      word1 := cbusAddressArray
      word2 := pbusAddressArray
      word3 := sizeArray }
    return { h with mem := setProperty m prop .ranges data }

def propertyRewriteReg (node prop : U64) (h : Heap) : Exec Heap := do
  let bv := (dataAt h.mem prop).raw
  let parent ← parentCells h.mem node
  let addressSize := cellBytes parent.address
  let sizeSize := cellBytes parent.size
  let width := (addressSize + sizeSize).setWidth 64
  let nPairs ← divide bv.size width
  kassert (nPairs > 0)
  kassert (bv.size % width == 0)
  kassert (parent.address ≤ 3)
  kassert (parent.size ≤ 2)
  let (addressArray, h) ← Bump.InMemory.allocAligned hhdmBase answers h
    (addressSize.setWidth 64 * nPairs) (addressSize.setWidth 64)
  let (sizeArray, h) ← Bump.InMemory.allocAligned hhdmBase answers h
    (sizeSize.setWidth 64 * nPairs) (sizeSize.setWidth 64)
  kassert (if addressSize = 0 then addressArray == 0 else addressArray != 0)
  kassert (if sizeSize = 0 then sizeArray == 0 else sizeArray != 0)
  let m ← storeRows (storeRegRow node bv.data (addressSize.setWidth 64) addressArray sizeArray)
    width nPairs.toNat 0 0 h.mem
  let data := { dataAt m prop with word0 := nPairs, word1 := addressArray, word2 := sizeArray }
  return { h with mem := setProperty m prop .reg data }

/-- One turn of the first lap; an error is returned at once. -/
def rewriteFirst (node prop : U64) (h : Heap) : Exec (Error × Heap) :=
  let retyped (type : PropertyType) (decode : Mem → Data → Data) : Exec (Error × Heap) :=
    .ok (.empty, { h with mem := retype h.mem prop type decode })
  match keywordOf h.mem (viewAt h.mem prop) with
  | some .compatible => do
    let h ← rewriteCompatible hhdmBase answers prop h
    return (.empty, h)
  | some .model => retyped .model fun _ data => data
  | some .phandle => retyped .phandle decodeInteger
  | some .status => retyped .status rewriteStatus
  | some .addressCells =>
    let m := retype h.mem prop .addressCells decodeInteger
    let cells := (dataAt m prop).low32
    if cells > 3 then .ok (.ofCode .dtAddressCellsTooLarge, { h with mem := m })
    else .ok (.empty, { h with mem := setAddressCells m node cells })
  | some .sizeCells =>
    let m := retype h.mem prop .sizeCells decodeInteger
    let cells := (dataAt m prop).low32
    if cells > 2 then .ok (.ofCode .dtSizeCellsTooLarge, { h with mem := m })
    else .ok (.empty, { h with mem := setSizeCells m node cells })
  | some .dmaCoherent => retyped .dmaCoherence fun _ data => data.setFlag true
  | some .dmaNoncoherent => retyped .dmaCoherence fun _ data => data.setFlag false
  | some .deviceType => retyped .deviceType fun _ data => data
  | some .virtualReg => retyped .virtualReg decodeInteger
  | some .interruptParent => retyped .interruptParent decodeInteger
  | some .interruptCells => retyped .interruptCells decodeInteger
  | some .interruptController => retyped .interruptController fun _ data => data
  | _ => .ok (.empty, h)

/-- One turn of the second lap. -/
def rewriteSecond (node prop : U64) (h : Heap) : Exec Heap :=
  match keywordOf h.mem (viewAt h.mem prop) with
  | some .reg => propertyRewriteReg hhdmBase answers node prop h
  | some .ranges | some .busRanges => propertyRewriteRanges hhdmBase answers node prop h
  | _ => .ok h

/-- The loops go on for at most so many turns. -/
def firstLoop (node : U64) : Nat → U64 → Heap → Exec (Error × Heap)
  | 0, _, _ => .error .endless
  | turns + 1, prop, h =>
    if prop = 0 then .ok (.empty, h)
    else do
      let (err, h) ← rewriteFirst hhdmBase answers node prop h
      if err.isErr then return (err, h)
      firstLoop node turns (nextPropertyAt h.mem prop) h

def secondLoop (node : U64) : Nat → U64 → Heap → Exec Heap
  | 0, _, _ => .error .endless
  | turns + 1, prop, h =>
    if prop = 0 then .ok h
    else do
      let h ← rewriteSecond hhdmBase answers node prop h
      secondLoop node turns (nextPropertyAt h.mem prop) h

/-- The loop over the children, with `err` as the last of them has left it. -/
def childLoop (visit : U64 → Heap → Exec (Error × Heap)) :
    Nat → U64 → Error → Heap → Exec (Error × Heap)
  | 0, _, _, _ => .error .endless
  | turns + 1, child, err, h =>
    if child = 0 then .ok (err, h)
    else do
      let (err, h) ← visit child h
      if err.isErr then return (err, h)
      childLoop visit turns (nextSiblingAt h.mem child) err h

/-- The recursion goes so deep at most. -/
def recursivePropertyRewrite (turns : Nat) : Nat → U64 → Heap → Exec (Error × Heap)
  | 0, _, _ => .error .endless
  | depth + 1, node, h => do
    let (err, h) ← firstLoop hhdmBase answers node turns (propertiesAt h.mem node) h
    if err.isErr then return (err, h)
    let h ← secondLoop hhdmBase answers node turns (propertiesAt h.mem node) h
    childLoop (recursivePropertyRewrite turns depth) turns (childrenAt h.mem node) .empty h

end Decoders

end InMemory

end Octiron.DeviceTree
