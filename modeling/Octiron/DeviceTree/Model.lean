import Octiron.Types.BigEndian
import Octiron.Types.Error
import Octiron.Types.Stack
import Octiron.Types.Views

/-! `devices/device_tree.cpp` up to `dtb_property_rewrite_pass`: the token loop that
builds the tree.  Nodes and properties are records of two growable stacks, linked by
raw pointers; the blob is only read, and all of it is mapped. -/
namespace Octiron.DeviceTree

open Lib.ByteMemory Exec

/-- `dt::property::type`. -/
inductive PropertyType where
  | raw
  | compatible
  | model
  | phandle
  | status
  | addressCells
  | sizeCells
  | reg
  | virtualReg
  | dmaCoherence
  | deviceType
  | ranges
  | interruptParent
  | interruptController
  | interruptCells
  | interruptMap
  deriving DecidableEq, Repr

/-- The union of a property: as long as its longest member, six words. -/
structure Data where
  word0 : U64 := 0
  word1 : U64 := 0
  word2 : U64 := 0
  word3 : U64 := 0
  word4 : U64 := 0
  word5 : U64 := 0
  deriving DecidableEq

def Data.raw (data : Data) : ByteView := ⟨data.word0, data.word1⟩

/-- The union once `raw` is stored in a zeroed record. -/
def Data.ofRaw (raw : ByteView) : Data := { word0 := raw.data, word1 := raw.size }

structure Property where
  name : StrView
  nextProperty : Ptr
  type : PropertyType
  data : Data

structure Node where
  name : StrView
  addressCells : U32
  sizeCells : U32
  properties : Ptr
  parent : Ptr
  children : Ptr
  nextSibling : Ptr

def sizeofNode : Nat := 56

def sizeofProperty : Nat := 80

/-- Records of a zeroed buffer. -/
def Property.zero : Property := ⟨⟨0, 0⟩, none, .raw, {}⟩
def Node.zero : Node := ⟨⟨0, 0⟩, 0, 0, none, none, none, none⟩

def structureBeginNode : U32 := 0x01
def structureEndNode : U32 := 0x02
def structureProp : U32 := 0x03
def structureNop : U32 := 0x04
def structureEnd : U32 := 0x09

/-- The two stacks, and the locals `current` and `depth` of the loop. -/
structure Parser where
  nodes : Stack Node := { record := fun _ => .zero }
  properties : Stack Property := { record := fun _ => .zero }
  current : Ptr := none
  depth : U64 := 0

namespace Parser

/-- What `parse_node` does with the name: a new node, first among the children of
the current one unless there is none. -/
def openNode (p : Parser) (name : StrView) : Parser :=
  let (newNode, nodes) := p.nodes.emplaceBack sizeofNode
    ⟨name, 0, 0, none, p.current, none, none⟩
  match p.current with
  | none => { p with nodes := nodes, current := some newNode }
  | some cur =>
    let nodes := nodes.modify newNode fun node =>
      { node with nextSibling := (nodes.record cur).children }
    let nodes := nodes.modify cur fun node => { node with children := some newNode }
    { p with nodes := nodes, current := some newNode }

/-- What `pre_parse_property` does with the name and the value. -/
def addProperty (p : Parser) (name : StrView) (value : ByteView) : Exec Parser :=
  match p.current with
  | none => .error .nullDeref
  | some cur =>
    let (newProperty, properties) := p.properties.emplaceBack sizeofProperty
      ⟨name, (p.nodes.record cur).properties, .raw, .ofRaw value⟩
    .ok { p with
      properties := properties
      nodes := p.nodes.modify cur fun node => { node with properties := some newProperty } }

def closeNode (p : Parser) : Exec Parser :=
  match p.current with
  | none => .error .nullDeref
  | some cur => .ok { p with current := (p.nodes.record cur).parent, depth := p.depth - 1 }

end Parser

section Blob

variable (m : Mem) (structures strings : U64)

/-- The new offset comes back beside the parser. -/
def parseNode (p : Parser) (offset : U64) : Exec (U64 × Parser) := do
  let name ← StrView.fromNullTerm m (structures + offset)
  return (offset + alignUp (name.size + 1) 4, p.openNode name)

def preParseProperty (p : Parser) (offset : U64) : Exec (U64 × Parser) := do
  let propertyLength := (readBigEndian32 m (structures + offset)).setWidth 64
  let offset := offset + 4
  let nameOffset := (readBigEndian32 m (structures + offset)).setWidth 64
  let offset := offset + 4
  let propertyName ← StrView.fromNullTerm m (strings + nameOffset)
  let propertyValue := ⟨structures + offset, propertyLength⟩
  let p ← p.addProperty propertyName propertyValue
  return (offset + alignUp propertyLength 4, p)

/-- The token loop, for at most so many turns. -/
def tokenLoop : Nat → U64 → Parser → Exec (U64 × Parser)
  | 0, _, _ => .error .endless
  | turns + 1, offset, p => do
    kassert (offset % 4 == 0)
    let token := readBigEndian32 m (structures + offset)
    let offset := offset + 4
    if token = structureBeginNode then
      let (offset, p) ← parseNode m structures p offset
      tokenLoop turns offset { p with depth := p.depth + 1 }
    else if token = structureEndNode then
      let p ← p.closeNode
      tokenLoop turns offset p
    else if token = structureProp then
      let (offset, p) ← preParseProperty m structures strings p offset
      tokenLoop turns offset p
    else if token = structureNop then tokenLoop turns offset p
    else if token = structureEnd then
      if p.current.isSome then .error .panic else .ok (offset, p)
    else .error .panic

/-- The loop and the test that follows it.  `SUCCESS` stands for going on with the
rewrite pass. -/
def parseStructures (turns : Nat) (p : Parser) : Exec (Error × Parser) := do
  let (_, p) ← tokenLoop m structures strings turns 0 p
  if p.nodes.size = 0 then return (.ofCode .dtNoNodes, p)
  else return (.ofCode .success, p)

end Blob

end Octiron.DeviceTree
