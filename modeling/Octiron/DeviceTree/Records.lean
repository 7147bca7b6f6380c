import Octiron.DeviceTree.Rewrite
import Octiron.Lib.Lockstep

/-! `recursive_property_rewrite` on the records in memory.  It goes from pointer to
pointer and changes the records it comes to, and that is the pass on the tree that the
records are. -/
namespace Octiron.DeviceTree

open Lib.ByteMemory Lib.Lockstep Exec Pmm

/-- What the decoders put behind the pointers of a property. -/
structure Arrays where
  strings : List StrView := []
  pairs : List (Option U128 × Option U64) := []
  triples : List (U64 × U64 × Option U64) := []

/-- The two stacks, the arrays and the bump allocator. -/
structure Records where
  nodes : Stack Node := { record := fun _ => .zero }
  properties : Stack Property := { record := fun _ => .zero }
  arrays : Slot → Arrays := fun _ => {}
  bump : Bump.State

namespace Records

variable (r : Records)

def cells (node : Slot) : Cells :=
  ⟨(r.nodes.record node).addressCells, (r.nodes.record node).sizeCells⟩

def entry (prop : Slot) : Entry :=
  { name := (r.properties.record prop).name
    type := (r.properties.record prop).type
    data := (r.properties.record prop).data
    strings := (r.arrays prop).strings
    pairs := (r.arrays prop).pairs
    triples := (r.arrays prop).triples }

def setCells (node : Slot) (cells : Cells) : Records :=
  { r with nodes := r.nodes.modify node fun record =>
      { record with addressCells := cells.address, sizeCells := cells.size } }

/-- The name of a property and its place in the list are not written. -/
def setEntry (prop : Slot) (entry : Entry) (bump : Bump.State) : Records :=
  { r with
    properties := r.properties.modify prop fun record =>
      { record with type := entry.type, data := entry.data }
    arrays := Function.update r.arrays prop ⟨entry.strings, entry.pairs, entry.triples⟩
    bump := bump }

end Records

section Pass

variable (m : Mem) (hhdmBase : U64) (answers : Answers)

/-- The loops go on for at most so many turns. -/
def firstLoop (node : Slot) : Nat → Ptr → Records → Exec (Error × Records)
  | 0, _, _ => .error .endless
  | _ + 1, none, r => .ok (.empty, r)
  | turns + 1, some prop, r => do
    let (err, entry, cells, bump) ←
      rewriteFirst m hhdmBase answers (r.cells node) r.bump (r.entry prop)
    let r := (r.setEntry prop entry bump).setCells node cells
    if err.isErr then return (err, r)
    firstLoop node turns (r.properties.record prop).nextProperty r

def secondLoop (node : Slot) : Nat → Ptr → Records → Exec Records
  | 0, _, _ => .error .endless
  | _ + 1, none, r => .ok r
  | turns + 1, some prop, r => do
    let parent := (r.nodes.record node).parent.map r.cells
    let (entry, bump) ←
      rewriteSecond m hhdmBase answers parent (r.cells node) r.bump (r.entry prop)
    let r := r.setEntry prop entry bump
    secondLoop node turns (r.properties.record prop).nextProperty r

/-- The loop over the children, with `err` as the last of them has left it. -/
def childLoop (visit : Slot → Records → Exec (Error × Records)) :
    Nat → Ptr → Error → Records → Exec (Error × Records)
  | 0, _, _, _ => .error .endless
  | _ + 1, none, err, r => .ok (err, r)
  | turns + 1, some child, _, r => do
    let (err, r) ← visit child r
    if err.isErr then return (err, r)
    childLoop visit turns (r.nodes.record child).nextSibling err r

/-- The recursion goes so deep at most. -/
def rewriteRecords (turns : Nat) : Nat → Slot → Records → Exec (Error × Records)
  | 0, _, _ => .error .endless
  | depth + 1, node, r => do
    let (err, r) ← firstLoop m hhdmBase answers node turns (r.nodes.record node).properties r
    if err.isErr then return (err, r)
    let r ← secondLoop m hhdmBase answers node turns (r.nodes.record node).properties r
    childLoop (rewriteRecords turns depth) turns (r.nodes.record node).children .empty r

end Pass

section Names

variable {m : Mem} {hhdmBase : U64} {answers : Answers} {parent : Option Cells} {cells cells' : Cells}
  {bump bump' : Bump.State} {prop prop' : Entry} {err : Error}

theorem rewriteFirst_name
    (h : rewriteFirst m hhdmBase answers cells bump prop = .ok (err, prop', cells', bump')) :
    prop'.name = prop.name := by
  unfold rewriteFirst at h
  generalize keywordOf m prop.name = keyword at h
  cases keyword with
  | none =>
    cases h
    rfl
  | some keyword =>
    cases keyword
    case compatible =>
      obtain ⟨⟨rewritten, bump₁⟩, hrewrite, h⟩ := bind_eq_ok.mp h
      obtain ⟨⟨array, bump₂⟩, -, hrewrite⟩ := bind_eq_ok.mp hrewrite
      obtain ⟨⟨⟩, -, hrewrite⟩ := bind_eq_ok.mp hrewrite
      obtain ⟨strings, -, hrewrite⟩ := bind_eq_ok.mp hrewrite
      cases hrewrite
      cases h
      rfl
    case addressCells | sizeCells =>
      dsimp only at h
      split at h <;>
      · cases h
        rfl
    all_goals
      cases h
      rfl

theorem propertyRewriteReg_name
    (h : propertyRewriteReg m hhdmBase answers parent bump prop = .ok (prop', bump')) :
    prop'.name = prop.name := by
  obtain ⟨cells, -, h⟩ := bind_eq_ok.mp h
  obtain ⟨nPairs, -, h⟩ := bind_eq_ok.mp h
  iterate 4 obtain ⟨⟨⟩, -, h⟩ := bind_eq_ok.mp h
  obtain ⟨⟨addressArray, bump₁⟩, -, h⟩ := bind_eq_ok.mp h
  obtain ⟨⟨sizeArray, bump₂⟩, -, h⟩ := bind_eq_ok.mp h
  iterate 2 obtain ⟨⟨⟩, -, h⟩ := bind_eq_ok.mp h
  obtain ⟨pairs, -, h⟩ := bind_eq_ok.mp h
  cases h
  rfl

theorem propertyRewriteRanges_name
    (h : propertyRewriteRanges m hhdmBase answers parent cells bump prop = .ok (prop', bump')) :
    prop'.name = prop.name := by
  unfold propertyRewriteRanges at h
  dsimp only at h
  split at h
  · cases h
    rfl
  obtain ⟨parentCells, -, h⟩ := bind_eq_ok.mp h
  obtain ⟨nTrips, -, h⟩ := bind_eq_ok.mp h
  iterate 4 obtain ⟨⟨⟩, -, h⟩ := bind_eq_ok.mp h
  obtain ⟨⟨cbusAddressArray, bump₁⟩, -, h⟩ := bind_eq_ok.mp h
  obtain ⟨⟨pbusAddressArray, bump₂⟩, -, h⟩ := bind_eq_ok.mp h
  obtain ⟨⟨sizeArray, bump₃⟩, -, h⟩ := bind_eq_ok.mp h
  obtain ⟨triples, -, h⟩ := bind_eq_ok.mp h
  cases h
  rfl

theorem rewriteSecond_name
    (h : rewriteSecond m hhdmBase answers parent cells bump prop = .ok (prop', bump')) :
    prop'.name = prop.name := by
  unfold rewriteSecond at h
  split at h
  · exact propertyRewriteReg_name h
  · exact propertyRewriteRanges_name h
  · exact propertyRewriteRanges_name h
  · cases h
    rfl

/-- Where the pass returns no error, it returns the empty one. -/
theorem rewriteNodes_ok {nodes nodes' : Nodes}
    (h : rewriteNodes m hhdmBase answers parent nodes bump = .ok (err, nodes', bump'))
    (hok : err.isErr = false) : err = .empty := by
  induction nodes generalizing parent nodes' bump bump' err with
  | none =>
    cases h
    rfl
  | node cells properties children next ihChildren ihNext =>
    obtain ⟨⟨lapErr, properties₁, own, bump₁⟩, -, h⟩ := bind_eq_ok.mp h
    dsimp only at h
    split at h
    · next herr =>
      cases h
      exact absurd herr (by rw [hok]; decide)
    obtain ⟨⟨properties₂, bump₂⟩, -, h⟩ := bind_eq_ok.mp h
    obtain ⟨⟨childErr, children', bump₃⟩, -, h⟩ := bind_eq_ok.mp h
    dsimp only at h
    split at h
    · next herr =>
      cases h
      exact absurd herr (by rw [hok]; decide)
    obtain ⟨⟨nextErr, next', bump₄⟩, hnext, h⟩ := bind_eq_ok.mp h
    cases h
    exact ihNext hnext hok

end Names

/-- Turns enough for every loop over this tree. -/
def Nodes.weight : Nodes → Nat
  | none => 1
  | node _ properties children nextSibling =>
    1 + properties.length + children.weight + nextSibling.weight

theorem Nodes.weight_pos (nodes : Nodes) : 0 < nodes.weight := by
  cases nodes <;> simp only [weight] <;> omega

namespace Records

/-- The list from `head` on consists of these entries, at these records. -/
def PropertyList (r : Records) : Ptr → List Slot → List Entry → Prop
  | head, [], entries => head = none ∧ entries = []
  | head, slot :: slots, entries => ∃ rest, entries = r.entry slot :: rest ∧ head = some slot ∧
      r.PropertyList (r.properties.record slot).nextProperty slots rest

/-- The list from `head` on consists of these nodes, each with `parent` for its parent;
`slots` are the records of all nodes, `propertySlots` those of their properties. -/
def NodeList (r : Records) : Ptr → Nodes → Ptr → List Slot → List Slot → Prop
  | _, .none, head, slots, propertySlots => head = none ∧ slots = [] ∧ propertySlots = []
  | parent, .node cells properties children nextSibling, head, slots, propertySlots =>
    ∃ slot inner others own innerProperties otherProperties,
      head = some slot ∧ slots = slot :: (inner ++ others) ∧
      propertySlots = own ++ innerProperties ++ otherProperties ∧
      r.cells slot = cells ∧ (r.nodes.record slot).parent = parent ∧
      r.PropertyList (r.nodes.record slot).properties own properties ∧
      r.NodeList (some slot) children (r.nodes.record slot).children inner innerProperties ∧
      r.NodeList parent nextSibling (r.nodes.record slot).nextSibling others otherProperties

/-- What the pass leaves as it was: every link and every name, and the records that are
not among `slots` and `propertySlots` altogether. -/
structure Kept (r r' : Records) (slots propertySlots : List Slot) : Prop where
  stack : { r'.nodes with record := r.nodes.record } = r.nodes
  propertyStack : { r'.properties with record := r.properties.record } = r.properties
  node : ∀ s, r'.nodes.record s = { r.nodes.record s with
    addressCells := (r'.cells s).address
    sizeCells := (r'.cells s).size }
  property : ∀ s, r'.properties.record s = { r.properties.record s with
    type := (r'.entry s).type
    data := (r'.entry s).data }
  cells : ∀ s, s ∉ slots → r'.cells s = r.cells s
  entry : ∀ s, s ∉ propertySlots → r'.entry s = r.entry s

section Kept

variable {r r' r'' : Records} {slots slots' propertySlots propertySlots' : List Slot}

theorem Kept.refl (r : Records) (slots propertySlots : List Slot) :
    Kept r r slots propertySlots :=
  ⟨rfl, rfl, fun _ => rfl, fun _ => rfl, fun _ _ => rfl, fun _ _ => rfl⟩

theorem Kept.mono (h : Kept r r' slots propertySlots) (hslots : slots ⊆ slots')
    (hproperties : propertySlots ⊆ propertySlots') : Kept r r' slots' propertySlots' :=
  { h with
    cells := fun s hs => h.cells s fun hin => hs (hslots hin)
    entry := fun s hs => h.entry s fun hin => hs (hproperties hin) }

theorem Kept.trans (h : Kept r r' slots propertySlots) (h' : Kept r' r'' slots propertySlots) :
    Kept r r'' slots propertySlots where
  stack := by
    rw [← h.stack, ← h'.stack]
  propertyStack := by
    rw [← h.propertyStack, ← h'.propertyStack]
  node s := by
    rw [h'.node s, h.node s]
  property s := by
    rw [h'.property s, h.property s]
  cells s hs := (h'.cells s hs).trans (h.cells s hs)
  entry s hs := (h'.entry s hs).trans (h.entry s hs)

theorem Kept.nextProperty (h : Kept r r' slots propertySlots) (s : Slot) :
    (r'.properties.record s).nextProperty = (r.properties.record s).nextProperty := by
  rw [h.property s]

theorem PropertyList.length_eq {head : Ptr} {own : List Slot} {entries : List Entry}
    (h : r.PropertyList head own entries) : entries.length = own.length := by
  induction own generalizing head entries with
  | nil =>
    obtain ⟨-, rfl⟩ := h
    rfl
  | cons slot own ih =>
    obtain ⟨rest, rfl, -, h⟩ := h
    rw [List.length_cons, List.length_cons, ih h]

theorem PropertyList.keep {head : Ptr} {own : List Slot} {entries : List Entry}
    (h : r.PropertyList head own entries) (hkept : Kept r r' slots propertySlots)
    (hapart : ∀ s ∈ own, s ∉ propertySlots) : r'.PropertyList head own entries := by
  induction own generalizing head entries with
  | nil => exact h
  | cons slot own ih =>
    obtain ⟨rest, rfl, hhead, h⟩ := h
    refine ⟨rest, ?_, hhead, ?_⟩
    · rw [hkept.entry slot (hapart slot List.mem_cons_self)]
    · rw [hkept.nextProperty slot]
      exact ih h fun s hs => hapart s (List.mem_cons_of_mem _ hs)

theorem NodeList.keep {nodes : Nodes} {parent head : Ptr} {own ownProperties : List Slot}
    (h : r.NodeList parent nodes head own ownProperties) (hkept : Kept r r' slots propertySlots)
    (hapart : ∀ s ∈ own, s ∉ slots) (hapartProperties : ∀ s ∈ ownProperties, s ∉ propertySlots) :
    r'.NodeList parent nodes head own ownProperties := by
  induction nodes generalizing parent head own ownProperties with
  | none => exact h
  | node cells properties children next ihChildren ihNext =>
    obtain ⟨slot, inner, others, props, innerProps, otherProps, rfl, rfl, rfl, hcells, hparent,
      hprops, hchildren, hnext⟩ := h
    simp only [List.mem_cons, List.mem_append] at hapart hapartProperties
    have hrecord := hkept.node slot
    refine ⟨slot, inner, others, props, innerProps, otherProps, rfl, rfl, rfl, ?_, ?_, ?_, ?_, ?_⟩
    · rw [hkept.cells slot (hapart slot (.inl rfl)), hcells]
    · rw [hrecord]
      exact hparent
    · rw [hrecord]
      exact hprops.keep hkept fun s hs => hapartProperties s (.inl (.inl hs))
    · rw [hrecord]
      exact ihChildren hchildren (fun s hs => hapart s (.inr (.inl hs)))
        fun s hs => hapartProperties s (.inl (.inr hs))
    · rw [hrecord]
      exact ihNext hnext (fun s hs => hapart s (.inr (.inr hs)))
        fun s hs => hapartProperties s (.inr hs)

end Kept

section Steps

variable {r : Records} {prop : Slot} {entry : Entry}

@[simp] theorem cells_setCells (r : Records) (node : Slot) (cells : Cells) :
    (r.setCells node cells).cells node = cells := by
  simp [setCells, Records.cells, Stack.record_modify_same]

theorem record_setCells_of_ne (r : Records) {node s : Slot} (cells : Cells) (h : s ≠ node) :
    (r.setCells node cells).nodes.record s = r.nodes.record s := by
  simp [setCells, Stack.record_modify_of_ne _ _ h]

@[simp] theorem entry_setCells (r : Records) (node : Slot) (cells : Cells) (s : Slot) :
    (r.setCells node cells).entry s = r.entry s := rfl

@[simp] theorem cells_setEntry (r : Records) (prop : Slot) (entry : Entry) (bump : Bump.State)
    (s : Slot) :
    (r.setEntry prop entry bump).cells s = r.cells s := rfl

theorem entry_setEntry (bump : Bump.State) (hname : entry.name = (r.entry prop).name) :
    (r.setEntry prop entry bump).entry prop = entry := by
  cases entry
  obtain rfl := hname
  simp [setEntry, Records.entry, Stack.record_modify_same]

theorem kept_setCells (r : Records) (node : Slot) (cells : Cells) :
    Kept r (r.setCells node cells) [node] [] where
  stack := rfl
  propertyStack := rfl
  node s := by
    by_cases hs : s = node
    · subst hs
      simp [setCells, Records.cells, Stack.record_modify_same]
    · simp [setCells, Records.cells, Stack.record_modify_of_ne _ _ hs]
  property s := rfl
  cells s hs := by
    rw [List.mem_singleton] at hs
    simp [setCells, Records.cells, Stack.record_modify_of_ne _ _ hs]
  entry s hs := rfl

theorem kept_setEntry (r : Records) (prop : Slot) (entry : Entry) (bump : Bump.State) :
    Kept r (r.setEntry prop entry bump) [] [prop] where
  stack := rfl
  propertyStack := rfl
  node s := rfl
  property s := by
    by_cases hs : s = prop
    · subst hs
      simp [setEntry, Records.entry, Stack.record_modify_same]
    · simp [setEntry, Records.entry, Stack.record_modify_of_ne _ _ hs]
  cells s hs := rfl
  entry s hs := by
    rw [List.mem_singleton] at hs
    simp [setEntry, Records.entry, Stack.record_modify_of_ne _ _ hs, Function.update_of_ne hs]

end Steps

end Records

section Lockstep

variable {m : Mem} {hhdmBase : U64} {answers : Answers} {r : Records} {slot node : Slot}
  {own slots propertySlots : List Slot} {entries : List Entry} {head parent : Ptr} {turns depth : Nat}

open Records

/-- A list whose first entry has been stored, and then the rest. -/
theorem propertyList_cons {r₁ r' : Records} {entry : Entry} {rest : List Entry}
    (hentry : r₁.entry slot = entry) (hfresh : slot ∉ own) (hkept : Kept r₁ r' slots own)
    (h : r'.PropertyList (r₁.properties.record slot).nextProperty own rest) :
    r'.PropertyList (some slot) (slot :: own) (entry :: rest) := by
  refine ⟨rest, ?_, rfl, ?_⟩
  · rw [hkept.entry slot hfresh, hentry]
  · rw [hkept.nextProperty slot]
    exact h

/-- The first loop is the first lap. -/
theorem firstLoop_lockstep (h : r.PropertyList head own entries) (hnodup : own.Nodup)
    (hturns : entries.length < turns) :
    Related (fun a b => a.1 = b.1 ∧ a.2.2.1 = b.2.cells node ∧ a.2.2.2 = b.2.bump ∧
        b.2.PropertyList head own a.2.1 ∧ Kept r b.2 [node] own)
      (firstLap m hhdmBase answers entries (r.cells node) r.bump)
      (firstLoop m hhdmBase answers node turns head r) := by
  obtain ⟨turns, rfl⟩ := Nat.exists_eq_add_one_of_ne_zero (Nat.ne_zero_of_lt hturns)
  induction own generalizing head entries turns r with
  | nil =>
    obtain ⟨rfl, rfl⟩ := h
    exact ⟨rfl, rfl, rfl, ⟨rfl, rfl⟩, .refl r [node] []⟩
  | cons slot own ih =>
    obtain ⟨rest, rfl, rfl, hrest⟩ := h
    obtain ⟨hfresh, hnodup⟩ := List.nodup_cons.mp hnodup
    refine (related_self _).bind ?_
    rintro ⟨err, entry, cells, bump⟩ _ ⟨rfl, hturn⟩
    dsimp only
    set r₁ := (r.setEntry slot entry bump).setCells node cells with hr₁
    have hentry : r₁.entry slot = entry := entry_setEntry bump (rewriteFirst_name hturn)
    have hcells : r₁.cells node = cells := cells_setCells _ node cells
    have hkept₁ : Kept r r₁ [node] [slot] :=
      ((kept_setEntry r slot entry bump).mono (List.nil_subset _) (fun _ => id)).trans
        ((kept_setCells _ node cells).mono (fun _ => id) (List.nil_subset _))
    have hrest₁ : r₁.PropertyList (r₁.properties.record slot).nextProperty own rest := by
      rw [hkept₁.nextProperty slot]
      exact hrest.keep hkept₁ fun s hs hin => hfresh (List.mem_singleton.mp hin ▸ hs)
    have hkept : Kept r r₁ [node] (slot :: own) :=
      hkept₁.mono (fun _ => id) (by simp)
    split
    · exact ⟨rfl, hcells.symm, rfl, propertyList_cons hentry hfresh (.refl r₁ [node] own) hrest₁,
        hkept⟩
    · obtain ⟨turns, rfl⟩ := Nat.exists_eq_add_one_of_ne_zero (n := turns) (by
        rw [List.length_cons] at hturns
        omega)
      have hlap := ih hrest₁ hnodup turns (by
        rw [List.length_cons] at hturns
        omega)
      rw [hcells] at hlap
      refine hlap.bind_left fun a b hab => ?_
      obtain ⟨herr, hcells', hbump', hlist, hkept'⟩ := hab
      exact ⟨_, rfl, herr, hcells', hbump', propertyList_cons hentry hfresh hkept' hlist,
        hkept.trans (hkept'.mono (fun _ => id) (List.subset_cons_self _ _))⟩

/-- The second loop is the second lap, with the counts in the parent's record. -/
theorem secondLoop_lockstep (h : r.PropertyList head own entries) (hnodup : own.Nodup)
    (hturns : entries.length < turns) :
    Related (fun a b => a.2 = b.bump ∧ b.PropertyList head own a.1 ∧ Kept r b [] own)
      (secondLap m hhdmBase answers ((r.nodes.record node).parent.map r.cells) (r.cells node)
        entries r.bump)
      (secondLoop m hhdmBase answers node turns head r) := by
  obtain ⟨turns, rfl⟩ := Nat.exists_eq_add_one_of_ne_zero (Nat.ne_zero_of_lt hturns)
  induction own generalizing head entries turns r with
  | nil =>
    obtain ⟨rfl, rfl⟩ := h
    exact ⟨rfl, ⟨rfl, rfl⟩, .refl r [] []⟩
  | cons slot own ih =>
    obtain ⟨rest, rfl, rfl, hrest⟩ := h
    obtain ⟨hfresh, hnodup⟩ := List.nodup_cons.mp hnodup
    refine (related_self _).bind ?_
    rintro ⟨entry, bump⟩ _ ⟨rfl, hturn⟩
    dsimp only
    set r₁ := r.setEntry slot entry bump with hr₁
    have hentry : r₁.entry slot = entry := entry_setEntry bump (rewriteSecond_name hturn)
    have hkept₁ : Kept r r₁ [] [slot] := kept_setEntry r slot entry bump
    have hrest₁ : r₁.PropertyList (r₁.properties.record slot).nextProperty own rest := by
      rw [hkept₁.nextProperty slot]
      exact hrest.keep hkept₁ fun s hs hin => hfresh (List.mem_singleton.mp hin ▸ hs)
    obtain ⟨turns, rfl⟩ := Nat.exists_eq_add_one_of_ne_zero (n := turns) (by
      rw [List.length_cons] at hturns
      omega)
    have hlap := ih hrest₁ hnodup turns (by
      rw [List.length_cons] at hturns
      omega)
    refine hlap.bind_left fun a b hab => ?_
    obtain ⟨hbump', hlist, hkept'⟩ := hab
    exact ⟨_, rfl, hbump', propertyList_cons hentry hfresh hkept' hlist,
      (hkept₁.mono (fun _ => id) (by simp)).trans
        (hkept'.mono (fun _ => id) (List.subset_cons_self _ _))⟩

/-- The pass over one node and all below it. -/
def rewriteNode (m : Mem) (hhdmBase : U64) (answers : Answers) (parent : Option Cells)
    (cells : Cells) (properties : List Entry) (children : Nodes) (bump : Bump.State) :
    Exec (Error × Cells × List Entry × Nodes × Bump.State) := do
  let (err, properties, cells, bump) ← firstLap m hhdmBase answers properties cells bump
  if err.isErr then return (err, cells, properties, children, bump)
  let (properties, bump) ← secondLap m hhdmBase answers parent cells properties bump
  let (err, children, bump) ← rewriteNodes m hhdmBase answers (some cells) children bump
  return (err, cells, properties, children, bump)

theorem rewriteNodes_node (parent : Option Cells) (cells : Cells) (properties : List Entry)
    (children next : Nodes) (bump : Bump.State) :
    rewriteNodes m hhdmBase answers parent (.node cells properties children next) bump =
      (do
        let (err, cells, properties, children, bump) ←
          rewriteNode m hhdmBase answers parent cells properties children bump
        if err.isErr then return (err, .node cells properties children next, bump)
        let (err, next, bump) ← rewriteNodes m hhdmBase answers parent next bump
        return (err, .node cells properties children next, bump)) := by
  rw [rewriteNodes, rewriteNode]
  cases firstLap m hhdmBase answers properties cells bump with
  | error stop => rfl
  | ok lap =>
    obtain ⟨err, properties₁, own, bump₁⟩ := lap
    simp only [ok_bind]
    split
    · next herr =>
      change _ = ite _ _ _
      rw [if_pos herr]
    cases secondLap m hhdmBase answers parent own properties₁ bump₁ with
    | error stop => rfl
    | ok lap =>
      obtain ⟨properties₂, bump₂⟩ := lap
      simp only [ok_bind]
      cases rewriteNodes m hhdmBase answers (some own) children bump₂ <;> rfl

/-- What the pass over one node leaves of it, behind the pointers. -/
structure NodeDone (r : Records) (parent : Ptr) (slot : Slot) (inner own innerProperties : List Slot)
    (a : Error × Cells × List Entry × Nodes × Bump.State) (b : Error × Records) : Prop where
  err : a.1 = b.1
  bump : a.2.2.2.2 = b.2.bump
  cells : b.2.cells slot = a.2.1
  properties : b.2.PropertyList (b.2.nodes.record slot).properties own a.2.2.1
  children : b.2.NodeList (some slot) a.2.2.2.1 (b.2.nodes.record slot).children inner
    innerProperties
  kept : Kept r b.2 (slot :: inner) (own ++ innerProperties)
  empty : a.1.isErr = false → a.1 = .empty

/-- What the pass over a list of nodes leaves of it. -/
structure NodesDone (r : Records) (parent head : Ptr) (slots propertySlots : List Slot)
    (a : Error × Nodes × Bump.State) (b : Error × Records) : Prop where
  err : a.1 = b.1
  bump : a.2.2 = b.2.bump
  list : b.2.NodeList parent a.2.1 head slots propertySlots
  kept : Kept r b.2 slots propertySlots

variable {inner innerProperties : List Slot} {children : Nodes} {bound : Nat}

/-- The call for one node, when the loop over the children does what it should. -/
theorem rewriteRecords_lockstep
    (hparent : (r.nodes.record slot).parent = parent) (hne : ∀ p, parent = some p → p ≠ slot)
    (hprops : r.PropertyList (r.nodes.record slot).properties own entries)
    (hlist : r.NodeList (some slot) children (r.nodes.record slot).children inner innerProperties)
    (hslots : (slot :: inner).Nodup) (hproperties : (own ++ innerProperties).Nodup)
    (hturns : entries.length < turns)
    (hchildren : ∀ r' : Records,
      r'.NodeList (some slot) children (r'.nodes.record slot).children inner innerProperties →
      Related (NodesDone r' (some slot) (r'.nodes.record slot).children inner innerProperties)
        (rewriteNodes m hhdmBase answers (some (r'.cells slot)) children r'.bump)
        (childLoop (rewriteRecords m hhdmBase answers turns depth) turns
          (r'.nodes.record slot).children .empty r')) :
    Related (NodeDone r parent slot inner own innerProperties)
      (rewriteNode m hhdmBase answers (parent.map r.cells) (r.cells slot) entries children r.bump)
      (rewriteRecords m hhdmBase answers turns (depth + 1) slot r) := by
  obtain ⟨hfresh, hinner⟩ := List.nodup_cons.mp hslots
  obtain ⟨hown, hinnerProperties, hapart⟩ := List.nodup_append.mp hproperties
  refine (firstLoop_lockstep hprops hown hturns).bind ?_
  rintro ⟨err, properties₁, own₁, bump₁⟩ ⟨err', r₁⟩ hfirst
  dsimp only at hfirst ⊢
  obtain ⟨rfl, rfl, rfl, hprops₁, hkept₁⟩ := hfirst
  have hlinks : (r₁.nodes.record slot).properties = (r.nodes.record slot).properties ∧
      (r₁.nodes.record slot).parent = parent ∧
      (r₁.nodes.record slot).children = (r.nodes.record slot).children := by
    rw [hkept₁.node slot]
    exact ⟨rfl, hparent, rfl⟩
  have hlist₁ : r₁.NodeList (some slot) children (r₁.nodes.record slot).children inner
      innerProperties := by
    rw [hlinks.2.2]
    exact hlist.keep hkept₁ (fun s hs hin => hfresh (List.mem_singleton.mp hin ▸ hs))
      fun s hs hin => hapart s hin s hs rfl
  rw [← hlinks.1] at hprops₁
  have hwide₁ : Kept r r₁ (slot :: inner) (own ++ innerProperties) :=
    hkept₁.mono (by simp) (List.subset_append_left _ _)
  split
  · next herr =>
    exact ⟨rfl, rfl, rfl, hprops₁, hlist₁, hwide₁, fun hok => absurd herr (by rw [hok]; decide)⟩
  have hcounts : parent.map r.cells = (r₁.nodes.record slot).parent.map r₁.cells := by
    rw [hlinks.2.1]
    cases parent with
    | none => rfl
    | some p =>
      have hsame := hkept₁.cells p (mt List.mem_singleton.mp (hne p rfl))
      exact congrArg some hsame.symm
  rw [hcounts]
  have hturns₁ : properties₁.length < turns := by
    rw [hprops₁.length_eq, ← hprops.length_eq]
    exact hturns
  refine (secondLoop_lockstep hprops₁ hown hturns₁).bind ?_
  rintro ⟨properties₂, bump₂⟩ r₂ hsecond
  dsimp only at hsecond ⊢
  obtain ⟨rfl, hprops₂, hkept₂⟩ := hsecond
  have hlist₂ : r₂.NodeList (some slot) children (r₂.nodes.record slot).children inner
      innerProperties := by
    rw [hkept₂.node slot]
    exact hlist₁.keep hkept₂ (fun _ _ => List.not_mem_nil) fun s hs hin => hapart s hin s hs rfl
  rw [← hkept₂.cells slot List.not_mem_nil]
  refine (hchildren r₂ hlist₂).left_eq.bind_left ?_
  rintro ⟨err, children', bump₃⟩ ⟨err', r₃⟩ ⟨hdone, hreturns⟩
  have hrecord := hdone.kept.node slot
  refine ⟨_, rfl, hdone.err, hdone.bump, hdone.kept.cells slot hfresh, ?_, ?_, ?_,
    rewriteNodes_ok hreturns⟩
  · rw [hrecord, hkept₂.node slot]
    exact hprops₂.keep hdone.kept fun s hs hin => hapart s hs s hin rfl
  · rw [hrecord]
    exact hdone.list
  · exact (hwide₁.trans (hkept₂.mono (List.nil_subset _) (List.subset_append_left _ _))).trans
      (hdone.kept.mono (List.subset_cons_self _ _) (List.subset_append_right _ _))

/-- A node that is done, in front of a list that has been gone through since. -/
theorem NodeDone.nodeList {others otherProperties : List Slot} {next : Nodes}
    {a : Error × Cells × List Entry × Nodes × Bump.State} {b : Error × Records} {r' : Records}
    (h : NodeDone r parent slot inner own innerProperties a b)
    (hrecord : (r.nodes.record slot).parent = parent)
    (hslots : (slot :: (inner ++ others)).Nodup)
    (hproperties : (own ++ innerProperties ++ otherProperties).Nodup)
    (hkept : Kept b.2 r' others otherProperties)
    (hnext : r'.NodeList parent next (b.2.nodes.record slot).nextSibling others otherProperties) :
    r'.NodeList parent (.node a.2.1 a.2.2.1 a.2.2.2.1 next) (some slot)
      (slot :: (inner ++ others)) (own ++ innerProperties ++ otherProperties) := by
  obtain ⟨hfresh, hslots⟩ := List.nodup_cons.mp hslots
  have hinner := (List.nodup_append.mp hslots).2.2
  have hprops := (List.nodup_append.mp hproperties).2.2
  have hlinks := hkept.node slot
  refine ⟨slot, inner, others, own, innerProperties, otherProperties, rfl, rfl, rfl, ?_, ?_, ?_, ?_,
    ?_⟩
  · rw [hkept.cells slot fun hin => hfresh (List.mem_append_right _ hin), h.cells]
  · rw [hlinks, h.kept.node slot]
    exact hrecord
  · rw [hlinks]
    exact h.properties.keep hkept fun s hs hin => hprops s (List.mem_append_left _ hs) s hin rfl
  · rw [hlinks]
    exact h.children.keep hkept (fun s hs hin => hinner s hs s hin rfl)
      fun s hs hin => hprops s (List.mem_append_right _ hs) s hin rfl
  · rw [hlinks]
    exact hnext

/-- The loop over the nodes of a list is the pass over them. -/
theorem childLoop_lockstep {nodes : Nodes} {t : Nat}
    (h : r.NodeList parent nodes head slots propertySlots) (hslots : slots.Nodup)
    (hproperties : propertySlots.Nodup) (hparent : ∀ p, parent = some p → p ∉ slots)
    (hturns : nodes.weight ≤ turns) (hdepth : nodes.weight ≤ depth) (ht : nodes.weight ≤ t) :
    Related (NodesDone r parent head slots propertySlots)
      (rewriteNodes m hhdmBase answers (parent.map r.cells) nodes r.bump)
      (childLoop (rewriteRecords m hhdmBase answers turns depth) t head .empty r) := by
  induction nodes generalizing parent head slots propertySlots r depth t with
  | none =>
    obtain ⟨rfl, rfl, rfl⟩ := h
    obtain ⟨t, rfl⟩ := Nat.exists_eq_add_one_of_ne_zero (Nat.ne_zero_of_lt ht)
    exact ⟨rfl, rfl, ⟨rfl, rfl, rfl⟩, .refl r [] []⟩
  | node cells properties children next ihChildren ihNext =>
    obtain ⟨slot, inner, others, own, innerProperties, otherProperties, rfl, rfl, rfl, rfl, hrecord,
      hprops, hchildren, hnext⟩ := h
    rw [Nodes.weight] at hturns hdepth ht
    obtain ⟨depth, rfl⟩ := Nat.exists_eq_add_one_of_ne_zero (n := depth) (by omega)
    obtain ⟨t, rfl⟩ := Nat.exists_eq_add_one_of_ne_zero (n := t) (by omega)
    have hweight := next.weight_pos
    have hweight' := children.weight_pos
    obtain ⟨hfresh, htail⟩ := List.nodup_cons.mp hslots
    obtain ⟨hinner, hothers, hapart⟩ := List.nodup_append.mp htail
    obtain ⟨hfirst, hrest, hapartProperties⟩ := List.nodup_append.mp hproperties
    rw [rewriteNodes_node, childLoop]
    refine (rewriteRecords_lockstep hrecord
      (fun p hp hslot => hparent p hp (hslot ▸ List.mem_cons_self)) hprops hchildren
      (List.nodup_cons.mpr ⟨fun hin => hfresh (List.mem_append_left _ hin), hinner⟩) hfirst
      (by omega) fun r' hlist' => ihChildren hlist' hinner (List.nodup_append.mp hfirst).2.1
        (fun p hp hin => hfresh (Option.some.inj hp ▸ List.mem_append_left _ hin))
        (by omega) (by omega) (by omega)).bind ?_
    rintro ⟨err, cells', properties', children', bump'⟩ ⟨err', r₁⟩ hdone
    obtain rfl : err = err' := hdone.err
    obtain rfl : bump' = r₁.bump := hdone.bump
    dsimp only
    have hnext₁ : r₁.NodeList parent next (r₁.nodes.record slot).nextSibling others
        otherProperties := by
      rw [hdone.kept.node slot]
      refine hnext.keep hdone.kept (fun s hs hin => ?_) fun s hs hin => ?_
      · rcases List.mem_cons.mp hin with rfl | hin
        · exact hfresh (List.mem_append_right _ hs)
        · exact hapart s hin s hs rfl
      · exact hapartProperties s hin s hs rfl
    have hwide : Kept r r₁ (slot :: (inner ++ others))
        (own ++ innerProperties ++ otherProperties) :=
      hdone.kept.mono (List.cons_subset_cons _ (List.subset_append_left _ _))
        (List.subset_append_left _ _)
    split
    · exact ⟨rfl, rfl, hdone.nodeList hrecord hslots hproperties (.refl r₁ _ _) hnext₁, hwide⟩
    · next hok =>
      obtain rfl : err = .empty := hdone.empty (Bool.eq_false_of_not_eq_true hok)
      have hcounts : parent.map r.cells = parent.map r₁.cells := by
        cases parent with
        | none => rfl
        | some p =>
          refine congrArg some (hdone.kept.cells p fun hin => hparent p rfl ?_).symm
          exact List.cons_subset_cons _ (List.subset_append_left _ _) hin
      rw [hcounts]
      refine (ihNext hnext₁ hothers hrest (fun p hp hin => hparent p hp ?_) (by omega) (by omega)
        (by omega)).bind_left ?_
      · exact List.mem_cons_of_mem _ (List.mem_append_right _ hin)
      rintro ⟨err, next', bump₂⟩ ⟨err', r₂⟩ hrests
      exact ⟨_, rfl, hrests.err, hrests.bump, hdone.nodeList hrecord hslots hproperties hrests.kept
        hrests.list, hwide.trans (hrests.kept.mono
          (fun s hs => List.mem_cons_of_mem _ (List.mem_append_right _ hs))
          (List.subset_append_right _ _))⟩

/-- The call for the root is the pass over the whole tree. -/
theorem rewriteRecords_refines {root : Slot} {properties : List Entry}
    (h : r.NodeList none (.node ⟨2, 1⟩ properties children .none) (some root) slots propertySlots)
    (hslots : slots.Nodup) (hproperties : propertySlots.Nodup)
    (hturns : properties.length + children.weight < turns)
    (hdepth : properties.length + children.weight < depth) :
    Related (NodesDone r none (some root) slots propertySlots)
      (recursivePropertyRewrite m hhdmBase answers properties children r.bump)
      (rewriteRecords m hhdmBase answers turns depth root r) := by
  obtain ⟨slot, inner, others, own, innerProperties, otherProperties, hroot, rfl, rfl, hcells, hrecord,
    hprops, hchildren, hnext⟩ := h
  obtain rfl := Option.some.inj hroot
  obtain ⟨hsibling, rfl, rfl⟩ := hnext
  obtain ⟨hfresh, hinner⟩ := List.nodup_cons.mp hslots
  rw [List.append_nil] at hfresh hinner
  have hown := hproperties
  rw [List.append_nil] at hown
  obtain ⟨depth, rfl⟩ := Nat.exists_eq_add_one_of_ne_zero (Nat.ne_zero_of_lt hdepth)
  have hweight := children.weight_pos
  rw [recursivePropertyRewrite, rewriteNodes_node, ← hcells]
  refine Related.bind_left (rewriteRecords_lockstep hrecord (fun _ hp => nomatch hp) hprops hchildren
    (List.nodup_cons.mpr ⟨hfresh, hinner⟩) hown (by omega) fun r' hlist => ?_) ?_
  · exact childLoop_lockstep hlist hinner (List.nodup_append.mp hown).2.1
      (fun p hp hin => hfresh (Option.some.inj hp ▸ hin)) (by omega) (by omega) (by omega)
  rintro ⟨err, cells, properties', children', bump⟩ ⟨err', r'⟩ hdone
  obtain rfl : err = err' := hdone.err
  have hnext : r'.NodeList none .none (r'.nodes.record root).nextSibling [] [] := by
    rw [hdone.kept.node root]
    exact ⟨hsibling, rfl, rfl⟩
  have hlist := hdone.nodeList hrecord hslots hproperties (.refl r' [] []) hnext
  have hkept : Kept r r' (root :: (inner ++ [])) (own ++ innerProperties ++ []) := by
    rw [List.append_nil, List.append_nil]
    exact hdone.kept
  by_cases herr : err.isErr = true
  · exact ⟨_, if_pos herr, rfl, hdone.bump, hlist, hkept⟩
  · obtain rfl : err = .empty := hdone.empty (Bool.eq_false_of_not_eq_true herr)
    exact ⟨_, rfl, rfl, hdone.bump, hlist, hkept⟩

end Lockstep

end Octiron.DeviceTree
