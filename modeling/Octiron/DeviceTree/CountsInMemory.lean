import Octiron.DeviceTree.CompatibleRecords
import Octiron.DeviceTree.PassInMemory

/-! The cell counts that the pass leaves in memory.  While its stores stay clear of the
records they are within bounds, or an error is returned; a list of strings that runs out of
its page can put any count into a node. -/
namespace Octiron.DeviceTree.InMemory

open Lib.Word Lib.ByteMemory Lib.Lockstep Exec Pmm

/-- An error exactly when some count is too large, and otherwise only counts within bounds. -/
def CountsFound (x : PassInput) (err : Error) (h' : Heap) : Prop :=
  (err.isErr = true ↔ x.nodes.Any fun _ properties => HasTooLarge x.heap.mem properties) ∧
    (err.isErr = false → ∀ node ∈ x.places.nodes, (cellsAt h'.mem node).Bounded)

section Tree

variable {m : Mem} {up : U64} {places : Places} {nodes : Nodes}

theorem NodesAt.all_cells {p : Cells → Prop} (h : NodesAt m up places nodes)
    (hall : nodes.All fun cells _ => p cells) : ∀ node ∈ places.nodes, p (cellsAt m node) := by
  induction places generalizing up nodes with
  | none => exact fun _ hmem => absurd hmem List.not_mem_nil
  | node place properties children nextSibling ihChildren ihNext =>
    cases nodes with
    | none => exact h.elim
    | node cells entries below beside =>
      obtain ⟨hnode, -, hbelow, hbeside⟩ := h
      obtain ⟨hhere, hallBelow, hallBeside⟩ := hall
      intro node hmem
      rcases List.mem_cons.mp hmem with rfl | hmem
      · rw [hnode.cells]
        exact hhere
      rcases List.mem_append.mp hmem with hmem | hmem
      · exact ihChildren hbelow hallBelow node hmem
      · exact ihNext hbeside hallBeside node hmem

/-- A pass whose stores stay clear finds every count that is too large, and leaves no other. -/
theorem countsFound_of_clear (x : PassInput) (hclear : x.Clear)
    (hzero : x.children.All fun cells _ => cells = ⟨0, 0⟩) {err : Error} {h' : Heap}
    (hrun : x.run = .ok (err, h')) : CountsFound x err h' := by
  obtain ⟨⟨err', nodes', bump'⟩, hideal, herr, hdone⟩ := (x.run_lockstep hclear).ok_right hrun
  obtain rfl : err' = err := herr
  obtain ⟨hiff, hbounded⟩ := recursivePropertyRewrite_isErr_iff hideal hzero
  exact ⟨hiff, fun hok => (hdone hok).nodes.all_cells (hbounded hok)⟩

end Tree

section Records

variable {keep reads : U64 → Prop} {m : Mem} {h : Heap} {bump bump' : Bump.State} {prop : U64}
  {entry entry' : Entry} {hhdmBase : U64} {answers : Answers} {k : Nat} {strings : List (List U8)}

/-- The records that a `compatible` leaves in memory: the lengths of its strings, and one
record of zeros. -/
theorem rewriteCompatible_lengths (hsim : Simulates keep reads m h bump)
    (hreads : ∀ x, reads x → keep x) (hprop : PropertyKept keep reads h.mem prop entry)
    (hreadable : Readable reads m entry.data.raw k)
    (hspared : Spared hhdmBase answers keep bump (compatibleBlocks m entry.data.raw))
    (hfree : ∀ s ∈ strings, 0 ∉ s)
    (hvalue : Denotes m entry.data.raw.data entry.data.raw.size (encodeStrings strings))
    (hlen : (encodeStrings strings).length < 2 ^ 64)
    (hideal : DeviceTree.rewriteCompatible m hhdmBase answers bump entry = .ok (entry', bump')) :
    ∃ h', rewriteCompatible hhdmBase answers prop h = .ok h' ∧
      TurnDone keep reads m h prop (entry', bump') h' ∧
      (∀ i (hi : i < strings.length), (viewAt h'.mem
        (entry'.data.word0 + BitVec.ofNat 64 (16 * i))).size.toNat = strings[i].length) ∧
      viewAt h'.mem (entry'.data.word0 + BitVec.ofNat 64 (16 * strings.length)) = ⟨0, 0⟩ := by
  obtain ⟨h', hrewrite, hturn, hheld, -⟩ :=
    (rewriteCompatible_lockstep hsim hreads hprop hreadable hspared).ok hideal
  have hstrings := (rewriteCompatible_records hfree hvalue hlen hideal).2.2
  have hlength : entry'.strings.length = strings.length + 1 := by
    have hmap := congrArg List.length hstrings
    rwa [List.length_map, List.length_append] at hmap
  have hrecord : ∀ i (hi : i < entry'.strings.length),
      viewAt h'.mem (entry'.data.word0 + BitVec.ofNat 64 (16 * i)) = entry'.strings[i] := by
    intro i hi
    have hat := List.getElem_of_eq hheld (by rwa [List.length_map, List.length_range])
    rwa [List.getElem_map, List.getElem_range] at hat
  refine ⟨h', hrewrite, hturn, fun i hi => ?_, ?_⟩
  · have hbytes := List.getElem_of_eq hstrings (i := i) (by rw [List.length_map]; omega)
    rw [List.getElem_map, List.getElem_append_left hi] at hbytes
    rw [hrecord i (by omega), ← hbytes, StrView.bytes, length_bytesFrom]
  · rw [hrecord _ (by omega)]
    obtain ⟨⟨array, bump₁⟩, -, hideal⟩ := bind_eq_ok.mp hideal
    obtain ⟨-, -, hideal⟩ := bind_eq_ok.mp hideal
    obtain ⟨array', -, hideal⟩ := bind_eq_ok.mp hideal
    obtain ⟨rfl, -⟩ := Prod.mk.inj (pure_eq_ok.mp hideal)
    rw [List.length_map, List.length_range] at hlength
    obtain hcount : countStrings m entry.data.raw = strings.length := Nat.succ.inj hlength
    rw [List.getElem_map, List.getElem_range, hcount, Function.update_self]

/-- A pass whose one turn has cleared the links of the root ends with it. -/
theorem run_of_turn {root : U64} {h₁ : Heap} {turns depth : Nat}
    (hproperties : propertiesAt h.mem root = prop) (hnull : prop ≠ 0)
    (hturn : rewriteFirst hhdmBase answers root prop h = .ok (.empty, h₁))
    (hnext : nextPropertyAt h₁.mem prop = 0) (hcleared : propertiesAt h₁.mem root = 0)
    (hchildren : childrenAt h₁.mem root = 0) :
    recursivePropertyRewrite hhdmBase answers (turns + 2) (depth + 1) root h = .ok (.empty, h₁) := by
  have hfirst : firstLoop hhdmBase answers root (turns + 2) prop h = .ok (.empty, h₁) := by
    rw [firstLoop, if_neg hnull, hturn, ok_bind]
    dsimp only
    rw [if_neg (by decide), hnext, firstLoop, if_pos rfl]
  rw [recursivePropertyRewrite, hproperties, hfirst, ok_bind]
  dsimp only
  rw [if_neg (by decide), hcleared, secondLoop, if_pos rfl, ok_bind, hchildren, childLoop, if_pos rfl]

end Records

section SmallTree

/-- `#address-cells` and `compatible` on the root, and a `reg` on its child. -/
def smallTreePlaces : Places :=
  .node 0x2000 [0x4000, 0x4100] (.node 0x3000 [0x4200] .none .none) .none

def smallTreeProperties : List Entry :=
  [Entry.ofRaw ⟨0x10000, 14⟩ ⟨0x10030, 4⟩, Entry.ofRaw ⟨0x10010, 10⟩ ⟨0x10040, 2⟩]

def smallTreeChildren : Nodes := .node ⟨0, 0⟩ [Entry.ofRaw ⟨0x10020, 3⟩ ⟨0x10050, 12⟩] .none .none

def smallTreeHeap : Heap where
  mem := ofPieces ([(0x10000, literal "#address-cells"), (0x10010, literal "compatible"),
      (0x10020, literal "reg"), (0x10030, [0, 0, 0, 2]), (0x10040, encodeStrings [literal "a"]),
      (0x10050, [0, 0, 0, 0, 0, 0, 0, 5, 0, 0, 0, 7])] ++
    treePieces 0 smallTreePlaces (.node ⟨2, 1⟩ smallTreeProperties smallTreeChildren .none))

theorem smallTree_checks : PassChecks smallTreeHeap smallTreePlaces
    (.node ⟨2, 1⟩ smallTreeProperties smallTreeChildren .none) (0x10000, 0x80) where
  tree := by decide +kernel
  distinct := by decide +kernel
  apart := by decide +kernel
  header := by decide +kernel
  readable := ⟨by decide +kernel, ⟨by decide +kernel, trivial, trivial⟩, trivial⟩

def smallTree : PassInput := smallTree_checks.input 0xffffffc000000000 Bump.spacedPages

theorem smallTree_clear : smallTree.Clear := smallTree.clear_of_checks (by decide +kernel)

theorem smallTree_completes : ∃ nodes' bump', DeviceTree.recursivePropertyRewrite smallTree.heap.mem
    smallTree.hhdmBase smallTree.answers smallTree.properties smallTree.children smallTree.bump =
      .ok (.empty, nodes', bump') := by
  have hok : (match DeviceTree.recursivePropertyRewrite smallTree.heap.mem smallTree.hhdmBase
      smallTree.answers smallTree.properties smallTree.children smallTree.bump with
    | .ok (err, _) => decide (err = .empty)
    | .error _ => false) = true := by decide +kernel
  split at hok
  · next err result hresult =>
    obtain rfl := of_decide_eq_true hok
    exact ⟨_, _, hresult⟩
  · cases hok

theorem countsFound_of_clear_smallTree :
    ∃ h', smallTree.run = .ok (.empty, h') ∧ CountsFound smallTree .empty h' := by
  obtain ⟨nodes', bump', hideal⟩ := smallTree_completes
  obtain ⟨h', hrun⟩ := smallTree.run_returns smallTree_clear hideal
  exact ⟨h', hrun, countsFound_of_clear smallTree smallTree_clear ⟨rfl, trivial, trivial⟩ hrun⟩

end SmallTree

section ManyStrings

/-- The low half of a word. -/
theorem load32_eq_setWidth (m : Mem) (a : U64) : load32 m a = (load64 m a).setWidth 32 := by
  apply BitVec.eq_of_toNat_eq
  rw [load32, load64, BitVec.toNat_setWidth, BitVec.toNat_ofNat, BitVec.toNat_ofNat]
  simp only [load]
  omega

/-- 255 empty strings and one of seven letters: 256 records, and one more. -/
def manyStrings : List (List U8) := List.replicate 255 [] ++ [literal "console"]

/-- The root lies behind the first page that the allocator is granted. -/
def manyStringsRoot : U64 := 0xffffffc080001000

def manyStringsEntry : Entry := Entry.ofRaw ⟨0x10000, 10⟩ ⟨0x10010, 263⟩

def manyStringsHeap : Heap where
  mem := ofPieces ([(0x10000, literal "compatible"), (0x10010, encodeStrings manyStrings)] ++
    treePieces 0 (.node manyStringsRoot [0x4000] .none .none)
      (.node ⟨2, 1⟩ [manyStringsEntry] .none .none))

theorem manyStrings_checks : PassChecks manyStringsHeap (.node manyStringsRoot [0x4000] .none .none)
    (.node ⟨2, 1⟩ [manyStringsEntry] .none .none) (0x10000, 0x120) where
  tree := by decide +kernel
  distinct := by decide +kernel
  apart := by decide +kernel
  header := by decide +kernel
  readable := ⟨by decide +kernel, trivial, trivial⟩

def manyStringsTree : PassInput := manyStrings_checks.input 0xffffffc000000000 Bump.spacedPages

/-- What the turn over the strings is to leave alone: the blob, its own record, and the links
of the root that stand behind its list of properties. -/
def manyStringsKept : List (U64 × Nat) := [(0x10000, 0x120), (0x4000, 80), (manyStringsRoot + 40, 16)]

theorem manyStrings_sim : Simulates (Covered manyStringsKept) (Covered [(0x10000, 0x120)])
    manyStringsHeap.mem manyStringsHeap manyStringsHeap.state where
  represents := Bump.InMemory.represents_state _
  header _ hx := not_covered_of_clear (a := (0, 24)) (by decide +kernel) hx
  agrees := .refl _ _

theorem manyStrings_property : PropertyKept (Covered manyStringsKept) (Covered [(0x10000, 0x120)])
    manyStringsHeap.mem 0x4000 manyStringsEntry where
  keep _ hx := covered_cons.mpr (.inr (covered_cons.mpr (.inl hx)))
  apart _ hx := not_covered_of_clear (a := (0x4000, 80)) (by decide +kernel) hx
  name := by decide +kernel
  data := by decide +kernel

theorem manyStrings_free : ∀ s ∈ manyStrings, 0 ∉ s := by decide +kernel

theorem manyStrings_value : Denotes manyStringsHeap.mem manyStringsEntry.data.raw.data
    manyStringsEntry.data.raw.size (encodeStrings manyStrings) :=
  ⟨by decide +kernel, by decide +kernel⟩

theorem manyStrings_count :
    countStrings manyStringsHeap.mem manyStringsEntry.data.raw = 256 := by
  rw [← show manyStrings.length = 256 by decide +kernel, ← count_encodeStrings manyStrings_free,
    countStrings]
  exact congrArg (List.count 0) (Denotes.bytes (s := StrView.ofByteView manyStringsEntry.data.raw)
    manyStrings_value (by decide +kernel))

/-- The block is asked for in pointers, and begins behind the header of its page. -/
theorem manyStrings_block : ∃ bump', Bump.allocAligned 0xffffffc000000000 Bump.spacedPages
    manyStringsHeap.state (recordsSize 257) 8 = .ok (0xffffffc080000018, bump') := by
  have hok : (match Bump.allocAligned 0xffffffc000000000 Bump.spacedPages manyStringsHeap.state
      (recordsSize 257) 8 with
    | .ok (array, _) => decide (array = 0xffffffc080000018)
    | .error _ => false) = true := by decide +kernel
  split at hok
  · next array bump' hresult =>
    obtain rfl := of_decide_eq_true hok
    exact ⟨_, hresult⟩
  · cases hok

theorem manyStrings_spared : Spared 0xffffffc000000000 Bump.spacedPages (Covered manyStringsKept)
    manyStringsHeap.state (compatibleBlocks manyStringsHeap.mem manyStringsEntry.data.raw) := by
  rw [compatibleBlocks, manyStrings_count]
  exact spared_of_clear (by decide +kernel)

/-- The last string's length becomes the root's address cells, and the record behind it ends
the root's list of properties. -/
theorem manyStrings_turn : ∃ h₁, rewriteCompatible 0xffffffc000000000 Bump.spacedPages 0x4000
      manyStringsHeap = .ok h₁ ∧ nextPropertyAt h₁.mem 0x4000 = 0 ∧
    (cellsAt h₁.mem manyStringsRoot).address = 7 ∧ propertiesAt h₁.mem manyStringsRoot = 0 ∧
    childrenAt h₁.mem manyStringsRoot = 0 := by
  have hlength : manyStrings.length = 256 := by decide +kernel
  have hreadable : Readable (Covered [(0x10000, 0x120)]) manyStringsHeap.mem manyStringsEntry.data.raw
      271 := ⟨by decide, by decide, by decide +kernel, fun _ hx => covered_cons.mpr (.inl
        (within_of_inside (r := (0x10000, 0x120)) (by decide) (by decide) hx))⟩
  obtain ⟨bump', halloc⟩ := manyStrings_block
  obtain ⟨entry', hideal⟩ := rewriteCompatible_returns hreadable.followed
    (show (0xffffffc080000018 : U64) ≠ 0 by decide) (show Bump.allocAligned _ _ _ (recordsSize (countStrings manyStringsHeap.mem
      manyStringsEntry.data.raw + 1)) 8 = _ by
        rw [manyStrings_count]
        exact halloc)
  obtain ⟨hplaced, -, -⟩ := rewriteCompatible_records manyStrings_free manyStrings_value
    (by decide +kernel) hideal
  rw [hlength] at hplaced
  obtain ⟨hword, -⟩ := ok_pair_inj (halloc.symm.trans hplaced)
  obtain ⟨h₁, hrewrite, hturn, hsizes, hlast⟩ := rewriteCompatible_lengths manyStrings_sim
    (fun _ hx => covered_cons.mpr (.inl (by simpa using hx))) manyStrings_property hreadable
    manyStrings_spared manyStrings_free manyStrings_value (by decide +kernel) hideal
  have hsame : ∀ a n, (∀ x, Within x a n → Covered manyStringsKept x) →
      (∀ x, Within x a n → ¬ Within x (0x4000 + 24) 56) → ∀ x, Within x a n →
      h₁.mem x = manyStringsHeap.mem x := fun a n hkept hapart x hx =>
    hturn.changes.apply (not_or_intro (not_not_intro (hkept x hx)) (hapart x hx))
  rw [← hword] at hsizes hlast
  refine ⟨h₁, hrewrite, ?_, ?_, ?_, ?_⟩
  · have hnext : nextPropertyAt h₁.mem 0x4000 = nextPropertyAt manyStringsHeap.mem 0x4000 :=
      load64_congr (hsame _ _ (fun x hx => covered_cons.mpr (.inr (covered_cons.mpr (.inl
        (within_of_inside (r := (0x4000, 80)) (by decide) (by decide) hx)))))
        (apart_of_clear (a := (0x4010, 8)) (b := (0x4018, 56)) (by decide)))
    rw [hnext]
    decide +kernel
  · obtain ⟨hlt, hstring⟩ := List.getElem?_eq_some_iff.mp
      (show manyStrings[255]? = some (literal "console") by decide +kernel)
    have hsize := hsizes 255 hlt
    rw [hstring] at hsize
    change (load32 h₁.mem (manyStringsRoot + 16)) = 7
    rw [load32_eq_setWidth]
    have hview : load64 h₁.mem (manyStringsRoot + 16) = 7 := by
      apply BitVec.eq_of_toNat_eq
      exact hsize.trans (by decide)
    rw [hview]
    rfl
  · rw [hlength] at hlast
    exact congrArg StrView.data hlast
  · have hchildren : childrenAt h₁.mem manyStringsRoot = childrenAt manyStringsHeap.mem manyStringsRoot :=
      load64_congr (hsame _ _ (fun x hx => covered_cons.mpr (.inr (covered_cons.mpr (.inr
        (covered_cons.mpr (.inl (within_of_inside (r := (manyStringsRoot + 40, 16)) (by decide)
          (by decide) hx)))))))
        (apart_of_clear (a := (manyStringsRoot + 40, 8)) (b := (0x4018, 56)) (by decide)))
    rw [hchildren]
    decide +kernel

/-- Without any count in the tree, the pass leaves a count of seven, and no error. -/
theorem not_countsFound_manyStrings :
    ¬ ∀ (x : PassInput) (err : Error) (h' : Heap),
      (x.children.All fun cells _ => cells = ⟨0, 0⟩) → x.run = .ok (err, h') →
        CountsFound x err h' := by
  intro hall
  obtain ⟨h₁, hrewrite, hnext, hcells, hcleared, hchildren⟩ := manyStrings_turn
  have hturn : rewriteFirst 0xffffffc000000000 Bump.spacedPages manyStringsRoot 0x4000
      manyStringsHeap = .ok (.empty, h₁) := by
    have hkeyword : keywordOf manyStringsHeap.mem (viewAt manyStringsHeap.mem 0x4000) =
        some .compatible := by decide +kernel
    rw [rewriteFirst, hkeyword]
    dsimp only
    rw [hrewrite]
    rfl
  have hrun : manyStringsTree.run = .ok (.empty, h₁) :=
    run_of_turn (by decide +kernel) (by decide) hturn hnext hcleared hchildren
  obtain ⟨-, hbounded⟩ := hall manyStringsTree .empty h₁ trivial hrun
  have hroot := (hbounded (by decide) manyStringsRoot List.mem_cons_self).1
  rw [hcells] at hroot
  exact absurd hroot (by decide)

end ManyStrings

end Octiron.DeviceTree.InMemory
