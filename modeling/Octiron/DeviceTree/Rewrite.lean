import Octiron.Allocators.Bump
import Octiron.DeviceTree.Model

/-! `recursive_property_rewrite` on the tree that the token loop leaves: a node has its
list of properties, its children and its next sibling, and its parent is the node that
lists it.  What the decoders put in arrays is kept as lists of values, wherever the
bump allocator places the arrays. -/
namespace Octiron.DeviceTree

open Lib.ByteMemory Exec Pmm

structure Cells where
  address : U32
  size : U32
  deriving DecidableEq

/-- A property as the pass sees it; its place in the list is its `next_property`. -/
structure Entry where
  name : StrView
  type : PropertyType
  data : Data
  /-- What `compatible_array` holds. -/
  strings : List StrView := []
  /-- What the arrays of `reg` hold, `none` where no array is written. -/
  pairs : List (Option U128 × Option U64) := []
  /-- What the arrays of `range` hold. -/
  triples : List (U64 × U64 × Option U64) := []

/-- A property that has not been rewritten. -/
def Entry.ofRaw (name : StrView) (raw : ByteView) : Entry :=
  { name := name, type := .raw, data := .ofRaw raw }

/-- A list of siblings, each with its children. -/
inductive Nodes where
  | none
  | node (cells : Cells) (properties : List Entry) (children nextSibling : Nodes)

/-- The property names that the pass tells apart. -/
inductive Keyword where
  | compatible
  | model
  | phandle
  | status
  | addressCells
  | sizeCells
  | dmaCoherent
  | dmaNoncoherent
  | deviceType
  | virtualReg
  | interruptParent
  | interruptCells
  | interrupts
  | interruptMap
  | interruptMapMask
  | interruptController
  | regmap
  | value
  | reg
  | ranges
  | busRanges
  deriving DecidableEq, Repr

def literal (text : String) : List U8 := text.toList.map fun c => BitVec.ofNat 8 c.toNat

def Keyword.text : Keyword → String
  | compatible => "compatible"
  | model => "model"
  | phandle => "phandle"
  | status => "status"
  | addressCells => "#address-cells"
  | sizeCells => "#size-cells"
  | dmaCoherent => "dma-coherent"
  | dmaNoncoherent => "dma-noncoherent"
  | deviceType => "device_type"
  | virtualReg => "virtual-reg"
  | interruptParent => "interrupt-parent"
  | interruptCells => "#interrupt-cells"
  | interrupts => "interrupts"
  | interruptMap => "interrupt-map"
  | interruptMapMask => "interrupt-map-mask"
  | interruptController => "interrupt-controller"
  | regmap => "regmap"
  | value => "value"
  | reg => "reg"
  | ranges => "ranges"
  | busRanges => "bus-ranges"

/-- In the order of the comparisons. -/
def keywords : List Keyword :=
  [.compatible, .model, .phandle, .status, .addressCells, .sizeCells, .dmaCoherent,
    .dmaNoncoherent, .deviceType, .virtualReg, .interruptParent, .interruptCells, .interrupts,
    .interruptMap, .interruptMapMask, .interruptController, .regmap, .value, .reg, .ranges,
    .busRanges]

namespace Data

/-- The `u32` members, and the status value, are the low half of the first word. -/
def low32 (data : Data) : U32 := data.word0.setWidth 32

def setLow32 (data : Data) (v : U32) : Data :=
  { data with word0 := (data.word0 &&& 0xFFFFFFFF00000000) ||| v.setWidth 64 }

/-- `dma_coherence` is the first byte. -/
def flag (data : Data) : Bool := data.word0.setWidth 8 != (0 : U8)

def setFlag (data : Data) (b : Bool) : Data :=
  { data with word0 := (data.word0 &&& 0xFFFFFFFFFFFFFF00) ||| (if b then 1 else 0) }

def reason (data : Data) : StrView := ⟨data.word1, data.word2⟩

end Data

/-- `dt::property::device_status`. -/
inductive DeviceStatus where
  | okay
  | disabled
  | reserved
  | fail
  | failWithReason
  deriving DecidableEq, Repr

def DeviceStatus.val (status : DeviceStatus) : U32 := BitVec.ofNat 32 status.ctorIdx

def Data.setStatus (data : Data) (value : DeviceStatus) (reason : StrView) : Data :=
  { data.setLow32 value.val with word1 := reason.data, word2 := reason.size }

section Decoders

variable (m : Mem)

def keywordOf (name : StrView) : Option Keyword :=
  keywords.find? fun keyword => name.compare m (literal keyword.text) == 0

/-- The splitting loop, at byte `i` of the value and record `j` of the array; it never
ends once it comes back to the same byte. -/
def splitStrings (raw : ByteView) : Nat → U64 → Nat → (Nat → StrView) → Exec (Nat → StrView)
  | 0, _, _, _ => .error .endless
  | turns + 1, i, j, array =>
    if i < raw.size then do
      let string ← StrView.fromNullTerm m (raw.data + i)
      splitStrings raw turns (i + (string.size + 1)) (j + 1) (Function.update array j string)
    else .ok array

/-- The counting loop. -/
def countStrings (raw : ByteView) : Nat := (bytesFrom m raw.data raw.size.toNat).count 0

/-- When nothing matches, the union keeps the bytes of `raw`. -/
def rewriteStatus (data : Data) : Data :=
  let statusString := StrView.ofByteView data.raw
  if statusString.compare m (literal "okay") = 0 then data.setStatus .okay ⟨0, 0⟩
  else if statusString.compare m (literal "disabled") = 0 then data.setStatus .disabled ⟨0, 0⟩
  else if statusString.compare m (literal "reserved") = 0 then data.setStatus .reserved ⟨0, 0⟩
  else if statusString.compare m (literal "fail") = 0 then data.setStatus .fail ⟨0, 0⟩
  else if (statusString.advance 5).compare m (literal "fail-") = 0 then
    data.setStatus .failWithReason (statusString.advance 5)
  else data

/-- An element of `reg.address_array`, if one is stored. -/
def regAddress (array ptr : U64) (cells : U32) : Exec (Option U128) :=
  if cells = 0 then .ok none
  else if cells = 1 then do
    deref array
    return some ((readBigEndian32 m ptr).setWidth 128)
  else if cells = 2 then do
    deref array
    return some ((readBigEndian64 m ptr).setWidth 128)
  else if cells = 3 then do
    deref array
    return some (readBigEndian128 m ptr)
  else .error .unreachable

/-- An element of either `size_array`, if one is stored. -/
def sizeElement (array ptr : U64) (cells : U32) : Exec (Option U64) :=
  if cells = 0 then .ok none
  else if cells = 1 then do
    deref array
    return some ((readBigEndian32 m ptr).setWidth 64)
  else if cells = 2 then do
    deref array
    return some (readBigEndian64 m ptr)
  else .error .unreachable

/-- An element of the two address arrays of `range`: three cells are cut to a `u64`. -/
def rangeAddress (array ptr : U64) (cells : U32) : Exec U64 :=
  if cells = 1 then do
    deref array
    return (readBigEndian32 m ptr).setWidth 64
  else if cells = 2 then do
    deref array
    return readBigEndian64 m ptr
  else if cells = 3 then do
    deref array
    return (readBigEndian128 m ptr).setWidth 64
  else .error .unreachable

/-- `sizeof(u32) * cells`, a `u32`. -/
def cellBytes (cells : U32) : U32 := 4 * cells

/-- A decoding loop: one row after the other, each `width` bytes further on. -/
def readRows {ρ : Type} (row : U64 → Exec ρ) (width : U64) : Nat → U64 → Exec (List ρ)
  | 0, _ => .ok []
  | n + 1, j => do
    let first ← row j
    let rest ← readRows row width n (j + width)
    return first :: rest

def regRow (data : U64) (cells : Cells) (addressArray sizeArray j : U64) :
    Exec (Option U128 × Option U64) := do
  let address ← regAddress m addressArray (data + j) cells.address
  let j := j + (cellBytes cells.address).setWidth 64
  let size ← sizeElement m sizeArray (data + j) cells.size
  return (address, size)

def rangeRow (data : U64) (cells : Cells) (parentAddressCells : U32)
    (cbusAddressArray pbusAddressArray sizeArray j : U64) : Exec (U64 × U64 × Option U64) := do
  let cbusAddress ← rangeAddress m cbusAddressArray (data + j) cells.address
  let j := j + (cellBytes cells.address).setWidth 64
  let pbusAddress ← rangeAddress m pbusAddressArray (data + j) parentAddressCells
  let j := j + (cellBytes parentAddressCells).setWidth 64
  let size ← sizeElement m sizeArray (data + j) cells.size
  return (cbusAddress, pbusAddress, size)

/-- `node->parent`, the null pointer at the root. -/
def derefParent : Option Cells → Exec Cells
  | none => .error .nullDeref
  | some cells => .ok cells

variable (hhdmBase : U64) (answers : Answers)

def rewriteCompatible (bump : Bump.State) (prop : Entry) : Exec (Entry × Bump.State) := do
  let rawView := prop.data.raw
  let numStrings := countStrings m rawView
  let (array, bump) ← Bump.allocAligned hhdmBase answers bump
    (8 * BitVec.ofNat 64 (numStrings + 1)) 8
  kassert (array != 0)
  let strings ← splitStrings m rawView (rawView.size.toNat + 1) 0 0 fun _ => ⟨0, 0⟩
  let strings := Function.update strings numStrings ⟨0, 0⟩
  return ({ prop with
    type := .compatible
    data := { prop.data with word0 := array }
    strings := (List.range (numStrings + 1)).map strings }, bump)

def propertyRewriteRanges (parent : Option Cells) (cells : Cells) (bump : Bump.State)
    (prop : Entry) : Exec (Entry × Bump.State) :=
  let raw := prop.data.raw
  if raw.size = 0 then
    .ok ({ prop with
      type := .ranges
      data := { prop.data with word0 := 0, word1 := 0, word2 := 0, word3 := 0 } }, bump)
  else do
    let parent ← derefParent parent
    let childAddressSize := cellBytes cells.address
    let parentAddressSize := cellBytes parent.address
    let sizeSize := cellBytes cells.size
    let width := (childAddressSize + parentAddressSize + sizeSize).setWidth 64
    let nTrips ← divide raw.size width
    kassert (nTrips > 0)
    kassert (raw.size % width == 0)
    kassert (cells.address ≤ 3)
    kassert (cells.size ≤ 2)
    let (cbusAddressArray, bump) ← Bump.allocAligned hhdmBase answers bump
      (childAddressSize.setWidth 64 * nTrips) (childAddressSize.setWidth 64)
    let (pbusAddressArray, bump) ← Bump.allocAligned hhdmBase answers bump
      (childAddressSize.setWidth 64 * nTrips) (childAddressSize.setWidth 64)
    let (sizeArray, bump) ← Bump.allocAligned hhdmBase answers bump
      (sizeSize.setWidth 64 * nTrips) (sizeSize.setWidth 64)
    let triples ← readRows (rangeRow m raw.data cells parent.address cbusAddressArray
      pbusAddressArray sizeArray) width nTrips.toNat 0
    return ({ prop with
      type := .ranges
      data := { prop.data with
        word0 := nTrips
        word1 := cbusAddressArray
        word2 := pbusAddressArray
        word3 := sizeArray }
      triples := triples }, bump)

def propertyRewriteReg (parent : Option Cells) (bump : Bump.State) (prop : Entry) :
    Exec (Entry × Bump.State) := do
  let bv := prop.data.raw
  let parent ← derefParent parent
  let addressSize := cellBytes parent.address
  let sizeSize := cellBytes parent.size
  let width := (addressSize + sizeSize).setWidth 64
  let nPairs ← divide bv.size width
  kassert (nPairs > 0)
  kassert (bv.size % width == 0)
  kassert (parent.address ≤ 3)
  kassert (parent.size ≤ 2)
  let (addressArray, bump) ← Bump.allocAligned hhdmBase answers bump
    (addressSize.setWidth 64 * nPairs) (addressSize.setWidth 64)
  let (sizeArray, bump) ← Bump.allocAligned hhdmBase answers bump
    (sizeSize.setWidth 64 * nPairs) (sizeSize.setWidth 64)
  kassert (if addressSize = 0 then addressArray == 0 else addressArray != 0)
  kassert (if sizeSize = 0 then sizeArray == 0 else sizeArray != 0)
  let pairs ← readRows (regRow m bv.data parent addressArray sizeArray) width nPairs.toNat 0
  return ({ prop with
    type := .reg
    data := { prop.data with word0 := nPairs, word1 := addressArray, word2 := sizeArray }
    pairs := pairs }, bump)

/-- One turn of the first lap; an error is returned at once. -/
def rewriteFirst (cells : Cells) (bump : Bump.State) (prop : Entry) :
    Exec (Error × Entry × Cells × Bump.State) :=
  let integer := readBigEndian32 m prop.data.raw.data
  let retyped (type : PropertyType) (data : Data) : Exec (Error × Entry × Cells × Bump.State) :=
    .ok (.empty, { prop with type := type, data := data }, cells, bump)
  match keywordOf m prop.name with
  | some .compatible => do
    let (prop, bump) ← rewriteCompatible m hhdmBase answers bump prop
    return (.empty, prop, cells, bump)
  | some .model => retyped .model prop.data
  | some .phandle => retyped .phandle (prop.data.setLow32 integer)
  | some .status => retyped .status (rewriteStatus m prop.data)
  | some .addressCells =>
    let rewritten := { prop with type := .addressCells, data := prop.data.setLow32 integer }
    if integer > 3 then .ok (.ofCode .dtAddressCellsTooLarge, rewritten, cells, bump)
    else .ok (.empty, rewritten, { cells with address := integer }, bump)
  | some .sizeCells =>
    let rewritten := { prop with type := .sizeCells, data := prop.data.setLow32 integer }
    if integer > 2 then .ok (.ofCode .dtSizeCellsTooLarge, rewritten, cells, bump)
    else .ok (.empty, rewritten, { cells with size := integer }, bump)
  | some .dmaCoherent => retyped .dmaCoherence (prop.data.setFlag true)
  | some .dmaNoncoherent => retyped .dmaCoherence (prop.data.setFlag false)
  | some .deviceType => retyped .deviceType prop.data
  | some .virtualReg => retyped .virtualReg (prop.data.setLow32 integer)
  | some .interruptParent => retyped .interruptParent (prop.data.setLow32 integer)
  | some .interruptCells => retyped .interruptCells (prop.data.setLow32 integer)
  | some .interruptController => retyped .interruptController prop.data
  | _ => retyped prop.type prop.data

def firstLap : List Entry → Cells → Bump.State → Exec (Error × List Entry × Cells × Bump.State)
  | [], cells, bump => .ok (.empty, [], cells, bump)
  | prop :: rest, cells, bump => do
    let (err, prop, cells, bump) ← rewriteFirst m hhdmBase answers cells bump prop
    if err.isErr then return (err, prop :: rest, cells, bump)
    let (err, rest, cells, bump) ← firstLap rest cells bump
    return (err, prop :: rest, cells, bump)

/-- One turn of the second lap. -/
def rewriteSecond (parent : Option Cells) (cells : Cells) (bump : Bump.State) (prop : Entry) :
    Exec (Entry × Bump.State) :=
  match keywordOf m prop.name with
  | some .reg => propertyRewriteReg m hhdmBase answers parent bump prop
  | some .ranges | some .busRanges => propertyRewriteRanges m hhdmBase answers parent cells bump prop
  | _ => .ok (prop, bump)

def secondLap (parent : Option Cells) (cells : Cells) :
    List Entry → Bump.State → Exec (List Entry × Bump.State)
  | [], bump => .ok ([], bump)
  | prop :: rest, bump => do
    let (prop, bump) ← rewriteSecond m hhdmBase answers parent cells bump prop
    let (rest, bump) ← secondLap parent cells rest bump
    return (prop :: rest, bump)

/-- The pass over a list of siblings: each with both laps and then its children. -/
def rewriteNodes (parent : Option Cells) : Nodes → Bump.State → Exec (Error × Nodes × Bump.State)
  | .none, bump => .ok (.empty, .none, bump)
  | .node cells properties children nextSibling, bump => do
    let (err, properties, cells, bump) ← firstLap m hhdmBase answers properties cells bump
    if err.isErr then return (err, .node cells properties children nextSibling, bump)
    let (properties, bump) ← secondLap m hhdmBase answers parent cells properties bump
    let (err, children, bump) ← rewriteNodes (some cells) children bump
    if err.isErr then return (err, .node cells properties children nextSibling, bump)
    let (err, nextSibling, bump) ← rewriteNodes parent nextSibling bump
    return (err, .node cells properties children nextSibling, bump)

/-- The pass over the whole tree, from the root's two cell counts on. -/
def recursivePropertyRewrite (properties : List Entry) (children : Nodes) (bump : Bump.State) :
    Exec (Error × Nodes × Bump.State) :=
  rewriteNodes m hhdmBase answers none (.node ⟨2, 1⟩ properties children .none) bump

end Decoders

end Octiron.DeviceTree
