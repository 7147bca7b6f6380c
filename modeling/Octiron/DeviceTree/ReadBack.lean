import Octiron.DeviceTree.Decoding
import Octiron.DeviceTree.Listing
import Octiron.DeviceTree.ParseErrors

/-! What can be read off the listing.  Where every property ends its line, the blanks in
front of the lines give the tree back, and of a parsed blob that is the tree it encodes. -/
namespace Octiron.DeviceTree

open Lib.ByteMemory Lib.Lockstep Lib.Listing Exec Fmt

section Outlines

variable (m : Mem) (turns : Nat)

namespace Entry

/-- The line of the property, without its blanks. -/
def label (entry : Entry) : List Char :=
  entry.header m ++ (dataText m turns entry.type entry.data).getD []

/-- The property ends its line: its value prints something, and no newline before the last. -/
def EndsLine (entry : Entry) : Prop :=
  dataText m turns entry.type entry.data ≠ none ∧ '\n' ∉ entry.label m turns

end Entry

/-- A row for each property, and then the rows of the children. -/
def propertyRows (children : Outline (List Char)) : List Entry → Outline (List Char)
  | [] => children
  | entry :: rest => .item (entry.label m turns) .nil (propertyRows children rest)

namespace Forest

def outline : Forest → Outline (List Char)
  | none => .nil
  | node name _ properties children nextSibling =>
    .item (nodeLabel m name) (propertyRows m turns children.outline properties) nextSibling.outline

/-- Each node and each property is on a line of its own. -/
def LineByLine : Forest → Prop
  | none => True
  | node name _ properties children nextSibling =>
    '\n' ∉ nodeLabel m name ∧ (∀ entry ∈ properties, entry.EndsLine m turns) ∧
      children.LineByLine ∧ nextSibling.LineByLine

end Forest

end Outlines

section Labels

variable {m : Mem} {turns depth : Nat}

theorem nodeLabel_head (m : Mem) (name : StrView) : (nodeLabel m name).head? = some 'N' := rfl

theorem header_head (m : Mem) (entry : Entry) : (entry.header m).head? = some 'P' := rfl

theorem label_head (entry : Entry) : (entry.label m turns).head? = some 'P' := by
  rw [Entry.label, List.head?_append, header_head]
  rfl

theorem entry_text_eq {entry : Entry} (h : dataText m turns entry.type entry.data ≠ none) :
    entry.text m turns depth = writeRow (depth + 1, entry.label m turns) := by
  obtain ⟨text, htext⟩ := Option.ne_none_iff_exists'.mp h
  rw [Entry.text, writeRow, Entry.label, htext]
  simp only [lineText, Option.getD_some, List.append_assoc]

theorem writeRows_propertyRows {children : Outline (List Char)} {entries : List Entry}
    (h : ∀ entry ∈ entries, entry.EndsLine m turns) :
    writeRows ((propertyRows m turns children entries).rows (depth + 1)) =
      entries.flatMap (Entry.text m turns depth) ++ writeRows (children.rows (depth + 1)) := by
  induction entries with
  | nil => rfl
  | cons entry rest ih =>
    have hrest := ih fun other hmem => h other (List.mem_cons_of_mem entry hmem)
    rw [propertyRows, Outline.rows, Outline.rows, List.nil_append, writeRows, List.flatMap_cons,
      ← writeRows, hrest, List.flatMap_cons, entry_text_eq (h entry List.mem_cons_self).1,
      List.append_assoc]

/-- The text of a forest is its outline, written row by row. -/
theorem text_eq_writeRows {forest : Forest} (h : forest.LineByLine m turns) :
    forest.text m turns depth = writeRows ((forest.outline m turns).rows depth) := by
  induction forest generalizing depth with
  | none => rfl
  | node name cells properties children next ih ih' =>
    obtain ⟨-, hproperties, hchildren, hnext⟩ := h
    rw [Forest.outline, Outline.rows, writeRows, List.flatMap_cons, List.flatMap_append, ← writeRows,
      ← writeRows, writeRows_propertyRows hproperties, Forest.text, ih hchildren, ih' hnext, writeRow]
    simp only [List.append_assoc]

theorem isLabel_propertyRows {children : Outline (List Char)} {entries : List Entry}
    (h : ∀ entry ∈ entries, entry.EndsLine m turns) (hchildren : children.All IsLabel) :
    (propertyRows m turns children entries).All IsLabel := by
  induction entries with
  | nil => exact hchildren
  | cons entry rest ih =>
    refine ⟨⟨(h entry List.mem_cons_self).2, ?_⟩, trivial,
      ih fun other hmem => h other (List.mem_cons_of_mem entry hmem)⟩
    rw [label_head]
    decide

theorem isLabel_outline {forest : Forest} (h : forest.LineByLine m turns) :
    (forest.outline m turns).All IsLabel := by
  induction forest with
  | none => trivial
  | node name cells properties children next ih ih' =>
    obtain ⟨hname, hproperties, hchildren, hnext⟩ := h
    refine ⟨⟨hname, ?_⟩, isLabel_propertyRows hproperties (ih hchildren), ih' hnext⟩
    rw [nodeLabel_head]
    decide

end Labels

section Names

variable (m : Mem)

/-- The name on the line of a node. -/
def nameOf (label : List Char) : Option (List Char) :=
  if "Node: ".toList.isPrefixOf label then some ((label.drop 6).take (label.length - 8)) else none

/-- The nodes on the lines, under their names. -/
def nodeNames : Outline (List Char) → Outline (List Char)
  | .nil => .nil
  | .item label children next =>
    match nameOf label with
    | some name => .item name (nodeNames children) (nodeNames next)
    | none => nodeNames next

namespace Forest

def names : Forest → Outline (List Char)
  | none => .nil
  | node name _ _ children nextSibling =>
    .item ((name.bytes m).map charOf) children.names nextSibling.names

/-- The names of the nodes read as they did. -/
def NamesKept (m' : Mem) : Forest → Prop
  | none => True
  | node name _ _ children nextSibling =>
    name.bytes m' = name.bytes m ∧ children.NamesKept m' ∧ nextSibling.NamesKept m'

end Forest

/-- The nodes among the items, last one first, under their names. -/
def Items.names : Items → Outline (List Char)
  | .nil => .nil
  | .nop rest => rest.names
  | .prop _ _ _ rest => rest.names
  | .node name body rest => rest.names.append (.item (name.map charOf) body.names .nil)

end Names

section Names

variable {m m' : Mem} {turns : Nat} {forest forest' : Forest}

theorem nodeLabel_eq (m : Mem) (name : StrView) :
    nodeLabel m name = "Node: ".toList ++ ((name.bytes m).map charOf ++ " \x7b".toList) := by
  rw [nodeLabel, textOf, List.flatMap_cons, List.flatMap_cons, List.flatMap_singleton]
  rfl

theorem nameOf_nodeLabel (m : Mem) (name : StrView) :
    nameOf (nodeLabel m name) = some ((name.bytes m).map charOf) := by
  have hlength : (nodeLabel m name).length - 8 = ((name.bytes m).map charOf).length := by
    rw [nodeLabel_eq, List.length_append, List.length_append]
    change 6 + (_ + 2) - 8 = _
    omega
  rw [nameOf, hlength, nodeLabel_eq, if_pos (List.isPrefixOf_iff_prefix.mpr (List.prefix_append _ _))]
  change some (List.take _ (List.drop "Node: ".toList.length _)) = _
  rw [List.drop_left, List.take_left]

theorem nameOf_label (entry : Entry) : nameOf (entry.label m turns) = none := by
  rw [nameOf, if_neg]
  intro hprefix
  obtain ⟨rest, hrest⟩ := List.isPrefixOf_iff_prefix.mp hprefix
  have hhead : some 'N' = (entry.label m turns).head? := congrArg List.head? hrest
  rw [label_head] at hhead
  exact absurd hhead (by decide)

theorem nodeNames_propertyRows {children : Outline (List Char)} {entries : List Entry} :
    nodeNames (propertyRows m turns children entries) = nodeNames children := by
  induction entries with
  | nil => rfl
  | cons entry rest ih => rw [propertyRows, nodeNames, nameOf_label, ih]

theorem nodeNames_outline : nodeNames (forest.outline m turns) = forest.names m := by
  induction forest with
  | none => rfl
  | node name cells properties children next ih ih' =>
    rw [Forest.outline, nodeNames, nameOf_nodeLabel, nodeNames_propertyRows, ih, ih', Forest.names]

theorem Forest.NamesKept.names_eq (h : forest.NamesKept m m') : forest.names m' = forest.names m := by
  induction forest with
  | none => rfl
  | node name cells properties children next ih ih' =>
    obtain ⟨hname, hchildren, hnext⟩ := h
    rw [Forest.names, Forest.names, hname, ih hchildren, ih' hnext]

theorem Forest.SameNames.names_eq (h : forest.SameNames forest') : forest'.names m = forest.names m := by
  induction forest generalizing forest' with
  | none =>
    cases forest' with
    | none => rfl
    | node => exact h.elim
  | node name cells properties children next ih ih' =>
    cases forest' with
    | none => exact h.elim
    | node name' cells' properties' children' next' =>
      obtain ⟨rfl, -, hchildren, hnext⟩ := h
      rw [Forest.names, Forest.names, ih hchildren, ih' hnext]

theorem Forest.SameNames.weight_eq (h : forest.SameNames forest') :
    forest'.nodes.weight = forest.nodes.weight := by
  induction forest generalizing forest' with
  | none =>
    cases forest' with
    | none => rfl
    | node => exact h.elim
  | node name cells properties children next ih ih' =>
    cases forest' with
    | none => exact h.elim
    | node name' cells' properties' children' next' =>
      obtain ⟨-, hproperties, hchildren, hnext⟩ := h
      have hlength : properties'.length = properties.length := by
        simpa using congrArg List.length hproperties
      rw [Forest.nodes, Forest.nodes, Nodes.weight, Nodes.weight, hlength, ih hchildren, ih' hnext]

theorem names_append : (forest.append forest').names m = (forest.names m).append (forest'.names m) := by
  induction forest with
  | none => rfl
  | node name cells properties children next _ ih =>
    rw [Forest.append, Forest.names, Forest.names, Outline.append, ih]

/-- The names of a raw forest are those of the items. -/
theorem raw_names {items : Items} (h : RawForest m items forest)
    (hlen : ∀ name, .beginNode name ∈ items.tokens → name.length < 2 ^ 64) :
    forest.names m = items.names := by
  induction items generalizing forest with
  | nil =>
    obtain rfl : forest = .none := h
    rfl
  | nop rest ih => exact ih h fun name hmem => hlen name (List.mem_cons_of_mem _ hmem)
  | prop _ _ _ rest ih => exact ih h fun name hmem => hlen name (List.mem_cons_of_mem _ hmem)
  | node name body rest ihBody ihRest =>
    obtain ⟨later, nameView, properties, children, rfl, hlater, hname, -, hchildren⟩ := h
    rw [names_append, ihRest hlater, Forest.names, hname.bytes (hlen name List.mem_cons_self),
      ihBody hchildren]
    · rfl
    · exact fun other hmem => hlen other (List.mem_cons_of_mem _ (List.mem_append_left _ hmem))
    · exact fun other hmem => hlen other (List.mem_cons_of_mem _ (List.mem_append_right _
        (List.mem_cons_of_mem _ hmem)))

/-- The names of an encoded tree are not longer than the memory. -/
theorem name_lt_of_encoded {structures strings : U64} {tokens : List Token} {name : List U8}
    (h : Encoded m structures strings tokens) (hmem : .beginNode name ∈ tokens) :
    name.length < 2 ^ 64 := by
  have hle := Nat.le_trans (length_encode_le hmem) h.fits
  simp only [Token.encode, Token.body, Token.padded, List.length_append, List.length_singleton] at hle
  omega

end Names

section Printed

variable {m : Mem} {turns : Nat} {g : Globals}

/-- The records are this tree. -/
def Globals.Holds (g : Globals) (tree : Forest) : Prop :=
  ∃ slots propertySlots, g.records.ForestList none tree g.root slots propertySlots

def banner : List Char := "Printing the device tree:\n".toList

theorem printDeviceTree_prints {name : StrView} {cells : Cells} {properties : List Entry}
    {children : Forest} (hinit : g.initialized = true)
    (hholds : g.Holds (.node name cells properties children .none))
    (hends : Forest.Ends m turns (.node name cells properties children .none))
    (hturns : properties.length + children.nodes.weight < turns) :
    Prints (printDeviceTree m turns g)
      (banner ++ Forest.text m turns 0 (.node name cells properties children .none)) := by
  obtain ⟨slots, propertySlots, slot, inner, others, own, innerProperties, otherProperties, hroot, -,
    -, hname, -, -, hprops, hchildren, -⟩ := hholds
  obtain ⟨hhere, hbelow, -⟩ := hends
  obtain ⟨levels, rfl⟩ := Nat.exists_eq_add_one_of_ne_zero (Nat.ne_zero_of_lt hturns)
  have hbelow' : Prints (printChildren g.records (fun child =>
      printNodeRecursive m g.records (levels + 1) levels 1 (some child)) (levels + 1)
      (g.records.nodes.record slot).children) (children.text m (levels + 1) 1) :=
    printChildren_prints 1 hchildren hbelow (by omega) (by omega) (by omega)
  have hall := (fmtPrintln_prints m [.string "Printing the device tree:"] (by simp)).bind
    (printNodeRecursive_prints 0 hname hprops hhere (by omega) hbelow')
  intro c
  obtain ⟨c', hc', hsent⟩ := hall c
  rw [printDeviceTree, if_pos hinit, hroot]
  refine ⟨c', hc', hsent.trans ?_⟩
  rw [Forest.text, Forest.text, List.append_nil]
  rfl

/-- The text of a tree each of whose nodes and properties ends its line, read back line by
line, is the tree. -/
theorem printDeviceTree_reads_back {name : StrView} {cells : Cells} {properties : List Entry}
    {children : Forest} (hinit : g.initialized = true)
    (hholds : g.Holds (.node name cells properties children .none))
    (hends : Forest.Ends m turns (.node name cells properties children .none))
    (hlines : Forest.LineByLine m turns (.node name cells properties children .none))
    (hturns : properties.length + children.nodes.weight < turns) (c : Console) :
    ∃ c' text, printDeviceTree m turns g c = .ok c' ∧ c'.sent = c.sent ++ (banner ++ text) ∧
      read text = Forest.outline m turns (.node name cells properties children .none) := by
  obtain ⟨c', hprint, hsent⟩ := printDeviceTree_prints hinit hholds hends hturns c
  refine ⟨c', _, hprint, hsent, ?_⟩
  rw [text_eq_writeRows hlines]
  exact read_write (isLabel_outline hlines)

end Printed

section OneNode

/-- Two names, a string, and an array with one record of it. -/
def oneNodeMemory : Mem :=
  ofBytes 0x1000 (literal "axabc" ++ [0, 0, 0, 0x02, 0x10, 0, 0, 0, 0, 0, 0, 3])

/-- A node named `a` with a `compatible`. -/
def oneNode : Globals :=
  { records :=
      { nodes := { record := fun _ => ⟨⟨0x1000, 1⟩, 2, 1, some ⟨0, 0⟩, none, none, none⟩ }
        properties := { record := fun _ => ⟨⟨0x1001, 1⟩, none, .compatible, { word0 := 0x1008 }⟩ }
        bump := { headers := fun _ => ⟨0, 0, 0⟩ } }
    root := some ⟨0, 0⟩
    initialized := true }

theorem printDeviceTree_reads_back_oneNode :
    ∃ c' text, printDeviceTree oneNodeMemory 3 oneNode {} = .ok c' ∧ c'.sent = banner ++ text ∧
      read text = .item "Node: a \x7b".toList (.item "Property: x = [abc]".toList .nil .nil) .nil := by
  have hholds : oneNode.Holds (.node ⟨0x1000, 1⟩ ⟨2, 1⟩ [oneNode.records.entry ⟨0, 0⟩] .none .none) :=
    ⟨[⟨0, 0⟩], [⟨0, 0⟩], ⟨0, 0⟩, [], [], [⟨0, 0⟩], [], [], rfl, rfl, rfl, rfl, rfl, rfl,
      ⟨[], rfl, rfl, rfl, rfl⟩, ⟨rfl, rfl, rfl⟩, rfl, rfl, rfl⟩
  obtain ⟨c', text, hprint, hsent, hread⟩ := @printDeviceTree_reads_back oneNodeMemory 3 _ _ _ _ _
    rfl hholds ⟨List.forall_mem_singleton.mpr fun _ => by decide +kernel, trivial, trivial⟩
    ⟨by decide +kernel, List.forall_mem_singleton.mpr ⟨by decide +kernel, by decide +kernel⟩, trivial,
      trivial⟩ (by decide) {}
  exact ⟨c', text, hprint, hsent, hread.trans (by decide +kernel)⟩

end OneNode

section Parsed

variable {m m' : Mem} {turns : Nat} {g : Globals} {dtb hhdmBase slash : U64} {answers : Pmm.Answers} {tree : Tree}
  {bump : Bump.State} {err : Error}

/-- The properties and the nodes of the encoded tree are these, under their names. -/
def Tree.Names (m : Mem) (tree : Tree) (properties : List Entry) (children : Forest) : Prop :=
  ∃ raw rawChildren, RawProperties m tree.body raw ∧ RawForest m tree.body rawChildren ∧
    properties.map Entry.name = raw.map Entry.name ∧ rawChildren.SameNames children

/-- Once a blob is accepted the listing shows the nodes of its tree, each below its parent and
under its name, and the root as `/`; if it is refused there is no listing. -/
theorem parsed_tree_reads_back (h : Blob m dtb tree) (hcount : tree.nodeCount ≤ 73)
    (hturns : tree.tokens.length < turns)
    (hcall : parseFromBlob m dtb hhdmBase answers slash turns { records := { bump := bump } } =
      .ok (err, g)) :
    (err.isErr = true → Prints (printDeviceTree m' turns g) "Device tree not initialized.\n".toList) ∧
      (err.isErr = false → ∃ cells properties children, tree.Names m properties children ∧
        g.Holds (.node ⟨slash, 1⟩ cells properties children .none) ∧
        (m' slash = 0x2F → children.NamesKept m m' →
          Forest.Ends m' turns (.node ⟨slash, 1⟩ cells properties children .none) →
          Forest.LineByLine m' turns (.node ⟨slash, 1⟩ cells properties children .none) →
          ∃ text, Prints (printDeviceTree m' turns g) (banner ++ text) ∧
            nodeNames (read text) = .item ['/'] tree.body.names .nil)) := by
  obtain ⟨name, properties, children, -, hproperties, hchildren, hlockstep⟩ :=
    parseFromBlob_lockstep (m := m) h hcount hturns
  obtain ⟨⟨passErr, nodes', bump'⟩, hpass, hdone⟩ := hlockstep.ok_right hcall
  have herr : err = if passErr.isErr then passErr.push .dtRewriteFailed else .ofCode .success :=
    hdone.err
  have hinit : g.initialized = !passErr.isErr := hdone.initialized
  by_cases hpassErr : passErr.isErr = true
  · rw [if_pos hpassErr] at herr
    rw [hpassErr] at hinit
    have hrefused : err.isErr = true := by
      rcases rewriteNodes_code hpass hpassErr with rfl | rfl <;> subst herr <;> decide
    refine ⟨fun _ c => ?_, fun hok => absurd (hrefused.symm.trans hok) (by decide)⟩
    rw [printDeviceTree, if_neg (by rw [hinit]; decide)]
    exact fmtPrintln_prints m' [.string "Device tree not initialized."] (by simp) c
  · rw [if_neg hpassErr] at herr
    subst herr
    refine ⟨fun hbad => absurd hbad (by decide), fun _ => ?_⟩
    obtain ⟨forest, slots, propertySlots, hlist, -, -, -, hsame⟩ := hdone.tree
    rw [if_neg hpassErr] at hsame
    cases forest with
    | none => exact hsame.elim
    | node name' cells properties' children' next =>
    cases next with
    | node => exact hsame.2.2.2.elim
    | none =>
    obtain ⟨rfl, hnames, hbelow, -⟩ := hsame
    refine ⟨cells, properties', children', ⟨properties, children, hproperties, hchildren, hnames,
      hbelow⟩, ⟨slots, propertySlots, hlist⟩, ?_⟩
    intro hslash hkept hends hlines
    have hbody : tree.body.tokens.length + 2 ≤ tree.tokens.length := by
      simp only [Tree.tokens, List.length_append, List.length_cons, List.length_replicate]
      omega
    have hlength : properties'.length = properties.length := by
      simpa using congrArg List.length hnames
    have hweight := weight_le_of_raw hproperties hchildren
    rw [← hbelow.weight_eq, ← hlength] at hweight
    refine ⟨_, printDeviceTree_prints (by rw [hinit, Bool.eq_false_of_not_eq_true hpassErr]; rfl)
      ⟨slots, propertySlots, hlist⟩ hends (by omega), ?_⟩
    rw [text_eq_writeRows hlines]
    refine (congrArg nodeNames (read_write (isLabel_outline hlines))).trans ?_
    have hroot : (StrView.mk slash 1).bytes m' = [0x2F] := by
      simp [StrView.bytes, bytesFrom, hslash]
    rw [nodeNames_outline, Forest.names, hroot, hkept.names_eq, hbelow.names_eq, raw_names hchildren]
    · rfl
    · refine fun other hmem => name_lt_of_encoded h.encoded ?_
      exact List.mem_append_right _ (List.mem_cons_of_mem _ (List.mem_append_left _ hmem))

end Parsed

section Cpu

/-- A store to where none of the bytes can be. -/
theorem holds_update {m : Mem} {a p : U64} {v : U8} {bytes : List U8} (h : Holds m p bytes)
    (hmem : m a ∉ bytes) : Holds (Function.update m a v) p bytes := by
  induction bytes generalizing p with
  | nil => trivial
  | cons b rest ih =>
    obtain ⟨rfl, hrest⟩ := h
    obtain ⟨hne, hmem⟩ := not_or.mp (List.mem_cons.not.mp hmem)
    exact ⟨Function.update_of_ne (fun heq => hne (congrArg m heq).symm) v m, ih hrest hmem⟩

/-- The memory with the literal for the root's name. -/
def cpuMemory : Mem := Function.update cpuBlob 0x5000 0x2F

/-- A name of the blob in the memory to print from. -/
theorem bytes_cpuMemory {view : StrView} {bytes : List U8}
    (h : Denotes cpuBlob view.data view.size bytes) (hmem : cpuBlob 0x5000 ∉ bytes)
    (hlen : bytes.length < 2 ^ 64) : view.bytes cpuMemory = bytes :=
  Denotes.bytes ⟨h.1, holds_update h.2 hmem⟩ hlen

/-- The line of the count. -/
theorem cpuEntry_endsLine {nameView : StrView} {raw : ByteView}
    (hname : Denotes cpuBlob nameView.data nameView.size (literal "#address-cells")) :
    (cpuEntry nameView raw).EndsLine cpuMemory 6 := by
  have hlow : (cpuEntry nameView raw).data.low32 = 1 := by
    change Data.low32 (Data.setLow32 _ 1) = 1
    rw [Data.low32_setLow32]
  have htext : dataText cpuMemory 6 (cpuEntry nameView raw).type (cpuEntry nameView raw).data =
      some ['1'] := by
    change some (textOf cpuMemory [.u32 (cpuEntry nameView raw).data.low32]) = _
    rw [hlow]
    decide +kernel
  have hheader : (cpuEntry nameView raw).header cpuMemory = "Property: #address-cells = ".toList := by
    have hbytes := bytes_cpuMemory hname (by decide +kernel) (by decide)
    change _ ++ ((nameView.bytes cpuMemory).map charOf ++ (_ ++ [])) = _
    rw [hbytes]
    decide
  refine ⟨by rw [htext]; exact Option.some_ne_none _, ?_⟩
  rw [Entry.label, htext, hheader]
  decide

theorem parsed_tree_reads_back_cpu :
    ∃ g text, parseFromBlob cpuBlob 0x1000 0 (fun _ => .granted 0) 0x5000 6
        { records := { bump := { headers := fun _ => ⟨0, 0, 0⟩ } } } = .ok (.ofCode .success, g) ∧
      Prints (printDeviceTree cpuMemory 6 g) (banner ++ text) ∧
      nodeNames (read text) = .item ['/'] (.item "cpu".toList .nil .nil) .nil := by
  obtain ⟨name, properties, children, -, hproperties, hchildren, hlockstep⟩ :=
    @parseFromBlob_lockstep _ _ 0 0x5000 (fun _ => .granted 0) 6 _
      { headers := fun _ => ⟨0, 0, 0⟩ } blob_cpu (by decide) (by decide)
  obtain ⟨later, nameView, raw, rfl, hlater, hname, hvalue⟩ := hproperties
  obtain rfl : later = [] := hlater
  obtain ⟨others, leaf, own, below, rfl, hothers, hleaf, hown, hbelow⟩ := hchildren
  obtain rfl : others = .none := hothers
  obtain rfl : own = [] := hown
  obtain rfl : below = .none := hbelow
  obtain ⟨⟨err, g⟩, hcall, hdone⟩ := hlockstep.ok (cpu_rewritten hname hvalue)
  have hok : Error.empty.isErr = false := by decide
  obtain rfl : err = .ofCode .success :=
    hdone.err.trans (if_neg (ne_true_of_eq_false hok))
  obtain ⟨cells, entries, children, -, ⟨_, _, hholds⟩, hprints⟩ :=
    (@parsed_tree_reads_back _ cpuMemory _ _ _ _ _ _ _ _ _ blob_cpu (by decide) (by decide) hcall).2
      (by decide)
  -- the records are those that the pass has left
  obtain ⟨forest, _, _, hlist, -, -, hnodes, hsame⟩ := hdone.tree
  obtain rfl := hlist.unique hholds
  obtain ⟨-, rfl, hbelow, -⟩ := Nodes.node.inj hnodes
  obtain ⟨-, -, hchildren, -⟩ := hsame
  cases children with
  | none => exact hchildren.elim
  | node view cells' own below next =>
    obtain ⟨-, rfl, hnone, hnone'⟩ := Nodes.node.inj hbelow
    cases below with
    | node => cases hnone
    | none =>
      cases next with
      | node => cases hnone'
      | none =>
        obtain ⟨rfl, -⟩ := hchildren
        have hbytes : view.bytes cpuMemory = literal "cpu" :=
          bytes_cpuMemory hleaf (by decide +kernel) (by decide)
        have hlabel : '\n' ∉ nodeLabel cpuMemory view := by
          rw [nodeLabel_eq, hbytes]
          decide
        have hroot : '\n' ∉ nodeLabel cpuMemory ⟨0x5000, 1⟩ := by decide +kernel
        have hends : ∀ entry ∈ [cpuEntry nameView raw], entry.Ends cpuMemory 6 := by
          intro entry hentry
          obtain rfl := List.mem_singleton.mp hentry
          exact fun hcompatible => absurd hcompatible (by decide : PropertyType.addressCells ≠ _)
        have hlines : ∀ entry ∈ [cpuEntry nameView raw], entry.EndsLine cpuMemory 6 := by
          intro entry hentry
          obtain rfl := List.mem_singleton.mp hentry
          exact cpuEntry_endsLine hname
        obtain ⟨text, hprint, hread⟩ := hprints (by decide +kernel)
          ⟨hbytes.trans (hleaf.bytes (by decide)).symm, trivial, trivial⟩
          ⟨hends, ⟨nofun, trivial, trivial⟩, trivial⟩
          ⟨hroot, hlines, ⟨hlabel, nofun, trivial, trivial⟩, trivial⟩
        exact ⟨g, text, hcall, hprint, hread.trans (by decide)⟩

end Cpu

end Octiron.DeviceTree
