import Octiron.DeviceTree.CellCounts
import Octiron.DeviceTree.Parse
import Octiron.Fmt.Console
import Octiron.Lib.Listing

/-! `print_device_tree`.  It goes over the linked records once more, with a memory that may
have changed since, and its text is the listing of the tree that the records are. -/
namespace Octiron.DeviceTree

open Lib.ByteMemory Lib.Listing Exec Fmt

section Model

variable (m : Mem)

/-- `compatible_array[i]`. -/
def strViewAt (array i : U64) : StrView :=
  ⟨load64 m (array + 16 * i), load64 m (array + 16 * i + 8)⟩

def printStrings (array : U64) : Nat → U64 → Console → Exec Console
  | 0, _, _ => .error .endless
  | turns + 1, i, c => do
    deref array
    let string := strViewAt m array i
    if string.size = 0 then return c
    let c ← fmtPrint m (if i = 0 then [] else [.string ", "]) c
    let c ← fmtPrint m [.view string] c
    printStrings array turns (i + 1) c

/-- The inner `switch`; a value that is none of the five prints nothing. -/
def printStatus (data : Data) (c : Console) : Exec Console :=
  if data.low32 = DeviceStatus.okay.val then fmtPrintln m [.string "OKAY"] c
  else if data.low32 = DeviceStatus.disabled.val then fmtPrintln m [.string "DISABLED"] c
  else if data.low32 = DeviceStatus.reserved.val then fmtPrintln m [.string "RESERVED"] c
  else if data.low32 = DeviceStatus.fail.val then fmtPrintln m [.string "FAIL"] c
  else if data.low32 = DeviceStatus.failWithReason.val then
    fmtPrintln m [.string "FAIL: ", .view data.reason] c
  else .ok c

/-- The `switch` over the type, on the union of the property. -/
def printData (turns : Nat) (type : PropertyType) (data : Data) (c : Console) : Exec Console :=
  match type with
  | .raw => fmtPrintln m [.string "RAW (length: ", .u64 data.raw.size, .string ")"] c
  | .compatible => do
    let c ← fmtPrint m [.string "["] c
    let c ← printStrings m data.word0 turns 0 c
    fmtPrintln m [.string "]"] c
  | .model => fmtPrintln m [.view ⟨data.word0, data.word1⟩] c
  | .phandle => fmtPrintln m [.hex32 data.low32] c
  | .status => printStatus m data c
  | .addressCells => fmtPrintln m [.u32 data.low32] c
  | .sizeCells => fmtPrintln m [.u32 data.low32] c
  | .dmaCoherence => fmtPrintln m [.string (if data.flag then "true" else "false")] c
  | .deviceType => fmtPrintln m [.view ⟨data.word0, data.word1⟩] c
  | .reg => fmtPrintln m [.string "REG (", .u64 data.word0, .string " pairs)"] c
  | .ranges => fmtPrintln m [.string "RANGES (", .u64 data.word0, .string " trips)"] c
  | .virtualReg => fmtPrintln m [.hex32 data.low32] c
  | .interruptParent => fmtPrintln m [.hex32 data.low32] c
  | .interruptController => fmtPrintln m [.string "true"] c
  | .interruptCells => fmtPrintln m [.u32 data.low32] c
  | .interruptMap =>
    fmtPrintln m [.string "INTERRUPT_MAP (", .u64 data.word0, .string " entries)"] c

def printIndent : Nat → Console → Exec Console
  | 0, c => .ok c
  | depth + 1, c => do
    let c ← fmtPrint m [.string "  "] c
    printIndent depth c

variable (r : Records)

/-- One turn of the loop over the properties. -/
def printProperty (turns depth : Nat) (prop : Slot) (c : Console) : Exec Console := do
  let c ← printIndent m (depth + 1) c
  let record := r.properties.record prop
  let c ← fmtPrint m [.string "Property: ", .view record.name, .string " = "] c
  printData m turns record.type record.data c

def printProperties (turns depth : Nat) : Nat → Ptr → Console → Exec Console
  | 0, _, _ => .error .endless
  | _ + 1, none, c => .ok c
  | left + 1, some prop, c => do
    let c ← printProperty m r turns depth prop c
    printProperties turns depth left (r.properties.record prop).nextProperty c

def printChildren (visit : Slot → Console → Exec Console) : Nat → Ptr → Console → Exec Console
  | 0, _, _ => .error .endless
  | _ + 1, none, c => .ok c
  | left + 1, some child, c => do
    let c ← visit child c
    printChildren visit left (r.nodes.record child).nextSibling c

/-- The recursion goes so many levels deep at most. -/
def printNodeRecursive (turns : Nat) : Nat → Nat → Ptr → Console → Exec Console
  | 0, _, _, _ => .error .endless
  | _ + 1, _, none, c => .ok c
  | levels + 1, depth, some node, c => do
    let c ← printIndent m depth c
    let c ← fmtPrintln m [.string "Node: ", .view (r.nodes.record node).name, .string " \x7b"] c
    let c ← printProperties m r turns depth turns (r.nodes.record node).properties c
    printChildren r (fun child => printNodeRecursive turns levels (depth + 1) (some child)) turns
      (r.nodes.record node).children c

def printDeviceTree (turns : Nat) (g : Globals) (c : Console) : Exec Console :=
  if g.initialized then do
    let c ← fmtPrintln m [.string "Printing the device tree:"] c
    printNodeRecursive m g.records turns turns 0 g.root c
  else fmtPrintln m [.string "Device tree not initialized."] c

end Model

section Text

variable (m : Mem) (turns : Nat)

/-- The records from the `i`-th on that come before an empty one. -/
def stringsFrom (array : U64) : Nat → U64 → List StrView
  | 0, _ => []
  | left + 1, i =>
    if (strViewAt m array i).size = 0 then []
    else strViewAt m array i :: stringsFrom array left (i + 1)

def commaText (i : U64) : List Char := textOf m (if i = 0 then [] else [.string ", "])

/-- The strings with their commas, the first of them being the `i`-th record. -/
def stringsText : U64 → List StrView → List Char
  | _, [] => []
  | i, string :: rest => commaText m i ++ (textOf m [.view string] ++ stringsText (i + 1) rest)

def statusText (data : Data) : Option (List Char) :=
  if data.low32 = DeviceStatus.okay.val then some (textOf m [.string "OKAY"])
  else if data.low32 = DeviceStatus.disabled.val then some (textOf m [.string "DISABLED"])
  else if data.low32 = DeviceStatus.reserved.val then some (textOf m [.string "RESERVED"])
  else if data.low32 = DeviceStatus.fail.val then some (textOf m [.string "FAIL"])
  else if data.low32 = DeviceStatus.failWithReason.val then
    some (textOf m [.string "FAIL: ", .view data.reason])
  else none

/-- What a line shows of a property, if anything. -/
def dataText (type : PropertyType) (data : Data) : Option (List Char) :=
  match type with
  | .raw => some (textOf m [.string "RAW (length: ", .u64 data.raw.size, .string ")"])
  | .compatible =>
    some (textOf m [.string "["] ++ (stringsText m 0 (stringsFrom m data.word0 turns 0) ++
      textOf m [.string "]"]))
  | .model => some (textOf m [.view ⟨data.word0, data.word1⟩])
  | .phandle => some (textOf m [.hex32 data.low32])
  | .status => statusText m data
  | .addressCells => some (textOf m [.u32 data.low32])
  | .sizeCells => some (textOf m [.u32 data.low32])
  | .dmaCoherence => some (textOf m [.string (if data.flag then "true" else "false")])
  | .deviceType => some (textOf m [.view ⟨data.word0, data.word1⟩])
  | .reg => some (textOf m [.string "REG (", .u64 data.word0, .string " pairs)"])
  | .ranges => some (textOf m [.string "RANGES (", .u64 data.word0, .string " trips)"])
  | .virtualReg => some (textOf m [.hex32 data.low32])
  | .interruptParent => some (textOf m [.hex32 data.low32])
  | .interruptController => some (textOf m [.string "true"])
  | .interruptCells => some (textOf m [.u32 data.low32])
  | .interruptMap => some (textOf m [.string "INTERRUPT_MAP (", .u64 data.word0, .string " entries)"])

/-- A line that nothing ends goes on with the next one. -/
def lineText : Option (List Char) → List Char
  | none => []
  | some text => text ++ ['\n']

namespace Entry

/-- The array of a `compatible` comes to an empty record. -/
def Ends (entry : Entry) : Prop :=
  entry.type = .compatible →
    entry.data.word0 ≠ 0 ∧ (stringsFrom m entry.data.word0 turns 0).length < turns

def header (entry : Entry) : List Char :=
  textOf m [.string "Property: ", .view entry.name, .string " = "]

def text (depth : Nat) (entry : Entry) : List Char :=
  indent (depth + 1) ++ (entry.header m ++ lineText (dataText m turns entry.type entry.data))

end Entry

def nodeLabel (name : StrView) : List Char :=
  textOf m [.string "Node: ", .view name, .string " \x7b"]

namespace Forest

def text (depth : Nat) : Forest → List Char
  | none => []
  | node name _ properties children nextSibling =>
    indent depth ++ (nodeLabel m name ++ ['\n'] ++
      (properties.flatMap (Entry.text m turns depth) ++ children.text (depth + 1))) ++
      nextSibling.text depth

/-- Every `compatible` in the forest ends. -/
def Ends (forest : Forest) : Prop :=
  forest.nodes.All fun _ properties => ∀ entry ∈ properties, entry.Ends m turns

end Forest

end Text

section Prints

variable {m : Mem} {turns left : Nat} {array i : U64} {data : Data} {r : Records}

theorem printIndent_prints (m : Mem) (depth : Nat) : Prints (printIndent m depth) (indent depth) := by
  induction depth with
  | zero => exact prints_ok
  | succ depth ih => exact (fmtPrint_prints m [.string "  "] (by simp)).bind ih

theorem printStrings_prints (harray : array ≠ 0)
    (hends : (stringsFrom m array left i).length < left) :
    Prints (printStrings m array left i) (stringsText m i (stringsFrom m array left i)) := by
  induction left generalizing i with
  | zero => exact absurd hends (Nat.not_lt_zero _)
  | succ left ih =>
    intro c
    rw [stringsFrom] at hends ⊢
    rw [printStrings, deref_of_ne harray, ok_bind]
    dsimp only
    split
    · exact prints_ok c
    · next hsize =>
      rw [if_neg hsize, List.length_cons] at hends
      have hcomma : ∀ arg ∈ (if i = 0 then [] else [Arg.string ", "]), arg.Printable := by
        split <;> simp
      exact ((fmtPrint_prints m _ hcomma).bind ((fmtPrint_prints m [.view _] (by simp)).bind
        (ih (by omega)))) c

theorem printStatus_prints : Prints (printStatus m data) (lineText (statusText m data)) := by
  intro c
  rw [printStatus, statusText]
  split
  · exact fmtPrintln_prints m _ (by simp) c
  split
  · exact fmtPrintln_prints m _ (by simp) c
  split
  · exact fmtPrintln_prints m _ (by simp) c
  split
  · exact fmtPrintln_prints m _ (by simp) c
  split
  · exact fmtPrintln_prints m _ (by simp) c
  · exact prints_ok c

theorem printData_prints {type : PropertyType}
    (hends : type = .compatible →
      data.word0 ≠ 0 ∧ (stringsFrom m data.word0 turns 0).length < turns) :
    Prints (printData m turns type data) (lineText (dataText m turns type data)) := by
  cases type with
  | compatible =>
    obtain ⟨harray, hlength⟩ := hends rfl
    have hall := (fmtPrint_prints m [.string "["] (by simp)).bind
      ((printStrings_prints harray hlength).bind (fmtPrintln_prints m [.string "]"] (by simp)))
    rw [dataText, lineText, List.append_assoc, List.append_assoc]
    exact hall
  | status => exact printStatus_prints
  | _ => exact fmtPrintln_prints m _ (by simp [Arg.u32, Arg.u64, Arg.hex32])

variable {depth : Nat}

theorem printProperty_prints {prop : Slot} (hends : (r.entry prop).Ends m turns) :
    Prints (printProperty m r turns depth prop) ((r.entry prop).text m turns depth) :=
  (printIndent_prints m (depth + 1)).bind
    ((fmtPrint_prints m [.string _, .view _, .string _] (by simp)).bind (printData_prints hends))

theorem printProperties_prints {head : Ptr} {own : List Slot} {entries : List Entry}
    (h : r.PropertyList head own entries) (hends : ∀ entry ∈ entries, entry.Ends m turns)
    (hleft : entries.length < left) :
    Prints (printProperties m r turns depth left head)
      (entries.flatMap (Entry.text m turns depth)) := by
  induction own generalizing head entries left with
  | nil =>
    obtain ⟨rfl, rfl⟩ := h
    obtain ⟨left, rfl⟩ := Nat.exists_eq_add_one_of_ne_zero (Nat.ne_zero_of_lt hleft)
    exact prints_ok
  | cons slot own ih =>
    obtain ⟨rest, rfl, rfl, hrest⟩ := h
    obtain ⟨left, rfl⟩ := Nat.exists_eq_add_one_of_ne_zero (Nat.ne_zero_of_lt hleft)
    exact (printProperty_prints (hends _ List.mem_cons_self)).bind
      (ih hrest (fun entry hmem => hends entry (List.mem_cons_of_mem _ hmem))
        (Nat.lt_of_succ_lt_succ hleft))

/-- One node with all below it, when the loop over the children prints what it should. -/
theorem printNodeRecursive_prints (depth : Nat) {slot : Slot} {own : List Slot} {name : StrView}
    {entries : List Entry} {text : List Char} {levels : Nat}
    (hname : (r.nodes.record slot).name = name)
    (hprops : r.PropertyList (r.nodes.record slot).properties own entries)
    (hends : ∀ entry ∈ entries, entry.Ends m turns) (hturns : entries.length < turns)
    (hchildren : Prints (printChildren r
        (fun child => printNodeRecursive m r turns levels (depth + 1) (some child)) turns
        (r.nodes.record slot).children) text) :
    Prints (printNodeRecursive m r turns (levels + 1) depth (some slot))
      (indent depth ++ (nodeLabel m name ++ ['\n'] ++
        (entries.flatMap (Entry.text m turns depth) ++ text))) := by
  subst hname
  exact (printIndent_prints m depth).bind
    ((fmtPrintln_prints m [.string _, .view _, .string _] (by simp)).bind
      ((printProperties_prints hprops hends hturns).bind hchildren))

/-- The loop over the nodes of a list. -/
theorem printChildren_prints (depth : Nat) {forest : Forest} {parent head : Ptr}
    {slots propertySlots : List Slot} {levels : Nat}
    (h : r.ForestList parent forest head slots propertySlots)
    (hends : forest.Ends m turns) (hturns : forest.nodes.weight ≤ turns)
    (hlevels : forest.nodes.weight ≤ levels) (hleft : forest.nodes.weight ≤ left) :
    Prints (printChildren r (fun child => printNodeRecursive m r turns levels depth (some child))
      left head) (forest.text m turns depth) := by
  induction forest generalizing parent head slots propertySlots depth levels left with
  | none =>
    obtain ⟨rfl, rfl, rfl⟩ := h
    obtain ⟨left, rfl⟩ := Nat.exists_eq_add_one_of_ne_zero (Nat.ne_zero_of_lt hleft)
    exact prints_ok
  | node name cells properties children next ihChildren ihNext =>
    obtain ⟨slot, inner, others, own, innerProperties, otherProperties, rfl, rfl, rfl, hname, -, -,
      hprops, hchildren, hnext⟩ := h
    obtain ⟨hhere, hbelow, hbehind⟩ := hends
    rw [Forest.nodes, Nodes.weight] at hturns hlevels hleft
    obtain ⟨levels, rfl⟩ := Nat.exists_eq_add_one_of_ne_zero (n := levels) (by omega)
    obtain ⟨left, rfl⟩ := Nat.exists_eq_add_one_of_ne_zero (n := left) (by omega)
    have hweight := next.nodes.weight_pos
    have hweight' := children.nodes.weight_pos
    have hlast : children.nodes.weight ≤ levels ∧ children.nodes.weight ≤ turns := by omega
    have hrest : next.nodes.weight ≤ levels + 1 ∧ next.nodes.weight ≤ left := by omega
    have hnode := printNodeRecursive_prints depth hname hprops hhere (by omega)
      (ihChildren (depth + 1) hchildren hbelow hlast.2 hlast.1 hlast.2)
    exact hnode.bind (ihNext depth hnext hbehind (by omega) hrest.1 hrest.2)

end Prints

end Octiron.DeviceTree
