import Octiron.DeviceTree.Served
import Mathlib.Data.List.Nodup

/-! The order of a node's properties does not matter to the pass: the first lap settles
the cell counts, each from the one property of its name, and the second decodes each
property by itself. -/
namespace Octiron.DeviceTree

open Lib.ByteMemory Exec Pmm

/-- The same tree, the properties of each node in another order. -/
inductive Reordered : Nodes → Nodes → Prop where
  | none : Reordered .none .none
  | node {cells : Cells} {properties properties' : List Entry}
      {children children' next next' : Nodes} (hproperties : properties.Perm properties')
      (hchildren : Reordered children children') (hnext : Reordered next next') :
      Reordered (.node cells properties children next) (.node cells properties' children' next')

/-- No node has two properties of one name. -/
def DistinctNames (m : Mem) : Nodes → Prop
  | .none => True
  | .node _ properties children next =>
    (properties.map fun prop => prop.name.bytes m).Nodup ∧ DistinctNames m children ∧
      DistinctNames m next

/-- At each node the same cell counts, and the same of each decoded property. -/
inductive SameDecoded : Decoded → Decoded → Prop where
  | none : SameDecoded .none .none
  | node {own : Cells} {rows rows' : List (StrView × Content)}
      {children children' next next' : Decoded} (hrows : rows.Perm rows')
      (hchildren : SameDecoded children children') (hnext : SameDecoded next next') :
      SameDecoded (.node own rows children next) (.node own rows' children' next')

section Lists

variable {α β γ δ : Type} {f : α → Option β} {l l' : List α}

theorem rel_bind {R : α → β → Prop} {S : γ → δ → Prop} {x : Option α} {y : Option β}
    {f : α → Option γ} {g : β → Option δ} (h : Option.Rel R x y)
    (hfg : ∀ a b, R a b → Option.Rel S (f a) (g b)) :
    Option.Rel S (x.bind f) (y.bind g) := by
  cases h with
  | none => exact .none
  | some hab => exact hfg _ _ hab

/-- Reordering the arguments of a loop that has no state reorders its results. -/
theorem mapM_perm (h : l.Perm l') : Option.Rel List.Perm (l.mapM f) (l'.mapM f) := by
  induction h with
  | nil => exact .some .nil
  | @cons a l l' _ ih =>
    rw [List.mapM_cons, List.mapM_cons]
    cases f a with
    | none => exact .none
    | some b =>
      generalize l.mapM f = x, l'.mapM f = y at ih ⊢
      cases ih with
      | none => exact .none
      | some hperm => exact .some (List.Perm.cons b hperm)
  | swap a b l =>
    rw [List.mapM_cons, List.mapM_cons, List.mapM_cons, List.mapM_cons]
    cases f a <;> cases f b <;> cases l.mapM f
    case some.some.some c d results => exact .some (.swap c d results)
    all_goals exact .none
  | @trans l l' l'' _ _ ih ih' =>
    generalize l.mapM f = x, l'.mapM f = y, l''.mapM f = z at ih ih' ⊢
    cases ih with
    | none => exact ih'
    | some hperm =>
      cases ih' with
      | some hperm' => exact .some (hperm.trans hperm')

end Lists

section FirstLap

variable {m : Mem} {prop : Entry} {properties properties' : List Entry} {cells : Cells}

/-- A turn of the first lap stops, or leaves the cell counts alone, or sets one of them. -/
theorem decodeFirst_cases (m : Mem) (prop : Entry) :
    (∀ cells, decodeFirst m cells prop = none) ∨ (∀ cells, decodeFirst m cells prop = some cells) ∨
      (keywordOf m prop.name = some .addressCells ∧
        ∃ v, ∀ cells, decodeFirst m cells prop = some { cells with address := v }) ∨
      keywordOf m prop.name = some .sizeCells ∧
        ∃ v, ∀ cells, decodeFirst m cells prop = some { cells with size := v } := by
  unfold decodeFirst
  dsimp only
  split
  · by_cases hsplits : Splits m prop.data.raw
    · exact .inr (.inl fun cells => if_pos hsplits)
    · exact .inl fun cells => if_neg hsplits
  · rename_i hkeyword
    by_cases hlarge : readBigEndian32 m prop.data.raw.data > 3
    · exact .inl fun cells => if_pos hlarge
    · exact .inr (.inr (.inl ⟨hkeyword, _, fun cells => if_neg hlarge⟩))
  · rename_i hkeyword
    by_cases hlarge : readBigEndian32 m prop.data.raw.data > 2
    · exact .inl fun cells => if_pos hlarge
    · exact .inr (.inr (.inr ⟨hkeyword, _, fun cells => if_neg hlarge⟩))
  · exact .inr (.inl fun _ => rfl)

/-- Turns on properties of different names commute. -/
theorem decodeFirst_comm {x y : Entry} (hxy : x = y ∨ x.name.bytes m ≠ y.name.bytes m)
    (own : Option Cells) :
    (own.bind (decodeFirst m · x)).bind (decodeFirst m · y) =
      (own.bind (decodeFirst m · y)).bind (decodeFirst m · x) := by
  obtain rfl | hname := hxy
  · rfl
  cases own with
  | none => rfl
  | some cells =>
    rcases decodeFirst_cases m x with hx | hx | ⟨hkx, v, hx⟩ | ⟨hkx, v, hx⟩ <;>
      rcases decodeFirst_cases m y with hy | hy | ⟨hky, u, hy⟩ | ⟨hky, u, hy⟩ <;>
      simp [hx, hy]
    all_goals
      exact absurd ((bytes_of_keywordOf hkx).trans (bytes_of_keywordOf hky).symm) hname

theorem decodeLap_perm (h : properties.Perm properties')
    (hdistinct : (properties.map fun prop => prop.name.bytes m).Nodup) :
    decodeLap m cells properties = decodeLap m cells properties' := by
  refine h.foldl_eq' (fun x hx y hy own => decodeFirst_comm ?_ own) _
  by_cases hname : x.name.bytes m = y.name.bytes m
  · exact .inl (List.inj_on_of_nodup_map hdistinct hx hy hname)
  · exact .inr hname

end FirstLap

section Trees

variable {m : Mem} {nodes nodes' : Nodes} {parent : Option Cells}

/-- The pass without an allocator decodes a reordered tree alike. -/
theorem decodeNodes_reordered (h : Reordered nodes nodes') (hdistinct : DistinctNames m nodes) :
    Option.Rel SameDecoded (decodeNodes m parent nodes) (decodeNodes m parent nodes') := by
  induction h generalizing parent with
  | none => exact .some .none
  | @node cells properties properties' children children' next next' hproperties _ _ ihchildren
      ihnext =>
    obtain ⟨hnames, hchildren, hnext⟩ := hdistinct
    rw [decodeNodes_node, decodeNodes_node, decodeLap_perm hproperties hnames]
    cases decodeLap m cells properties' with
    | none => exact .none
    | some own =>
      rw [Option.bind_some, Option.bind_some]
      refine rel_bind (mapM_perm (hproperties.filter (isRows m))) fun rows rows' hrows => ?_
      refine rel_bind (ihchildren hchildren) fun below below' hbelow => ?_
      exact rel_bind (ihnext hnext) fun beside beside' hbeside =>
        .some (.node hrows hbelow hbeside)

end Trees

/-- The pass gets through a list of siblings without an error. -/
def Completes (m : Mem) (hhdmBase : U64) (answers : Answers) (parent : Option Cells)
    (nodes : Nodes) (bump : Bump.State) (result : Nodes) : Prop :=
  ∃ err bump', rewriteNodes m hhdmBase answers parent nodes bump = .ok (err, result, bump') ∧
    err.isErr = false

theorem completes_iff {m : Mem} {hhdmBase : U64} {answers : Answers} {parent : Option Cells}
    {nodes result : Nodes} {bump : Bump.State} :
    Completes m hhdmBase answers parent nodes bump result ↔
      ∃ bump', succeeded (rewriteNodes m hhdmBase answers parent nodes bump) =
        some (result, bump') := by
  simp only [Completes, succeeded_eq_some]
  exact exists_comm

/-- Two runs of the pass in which no allocation fails, over trees that differ in the
order of each node's properties: one gets through when the other does, and then they
agree on every cell count and every decoded property. -/
theorem rewriteNodes_reordered {m : Mem} {hhdmBase hhdmBase' : U64} {answers answers' : Answers}
    {parent : Option Cells} {nodes nodes' : Nodes} {bump bump' : Bump.State}
    (hreordered : Reordered nodes nodes') (hdistinct : DistinctNames m nodes)
    (hserved : NodesServed m hhdmBase answers parent nodes bump)
    (hserved' : NodesServed m hhdmBase' answers' parent nodes' bump') :
    ((∃ result, Completes m hhdmBase answers parent nodes bump result) ↔
        ∃ result, Completes m hhdmBase' answers' parent nodes' bump' result) ∧
      ∀ result result', Completes m hhdmBase answers parent nodes bump result →
        Completes m hhdmBase' answers' parent nodes' bump' result' →
        SameDecoded (decodedOf m result) (decodedOf m result') := by
  have hrel := @decodeNodes_reordered m nodes nodes' parent hreordered hdistinct
  rw [← rewriteNodes_served hserved, ← rewriteNodes_served hserved'] at hrel
  simp only [completes_iff]
  generalize succeeded (rewriteNodes m hhdmBase answers parent nodes bump) = x at hrel ⊢
  generalize succeeded (rewriteNodes m hhdmBase' answers' parent nodes' bump') = y at hrel ⊢
  cases x with
  | none =>
    cases y with
    | none => simp
    | some _ => cases hrel
  | some first =>
    cases y with
    | none => cases hrel
    | some second =>
      cases hrel with
      | some hsame =>
        refine ⟨iff_of_true ⟨first.1, first.2, rfl⟩ ⟨second.1, second.2, rfl⟩, ?_⟩
        rintro result result' ⟨_, hresult⟩ ⟨_, hresult'⟩
        obtain rfl := Option.some.inj hresult
        obtain rfl := Option.some.inj hresult'
        exact hsame

section NoRequests

variable {m : Mem} {hhdmBase : U64} {answers : Answers} {parent : Option Cells}
  {cells own : Cells} {properties : List Entry} {bump : Bump.State}

theorem firstLapServed_of_no_requests (h : ∀ prop ∈ properties, firstRequests m prop = []) :
    FirstLapServed m hhdmBase answers properties cells bump := by
  induction properties generalizing cells bump with
  | nil => trivial
  | cons prop rest ih =>
    refine ⟨?_, fun _ _ _ _ => ih fun prop hprop => h prop (List.mem_cons_of_mem _ hprop)⟩
    rw [h prop List.mem_cons_self]
    trivial

/-- What the first lap leaves of a property asks for what the property asked for. -/
theorem secondRequests_of_kept {prop prop' : Entry} (h : Kept m prop prop') :
    secondRequests m parent own prop' = secondRequests m parent own prop := by
  by_cases hrows : isRows m prop = true
  · rw [h.rows hrows]
  · unfold isRows at hrows
    unfold secondRequests
    rw [h.name]
    split <;> simp_all

theorem secondLapServed_of_no_requests {properties' : List Entry}
    (hkept : List.Forall₂ (Kept m) properties properties')
    (h : ∀ prop ∈ properties, secondRequests m parent own prop = []) :
    SecondLapServed m hhdmBase answers parent own properties' bump := by
  induction hkept generalizing bump with
  | nil => trivial
  | @cons prop prop' rest rest' hfirst _ ih =>
    refine ⟨?_, fun _ _ _ => ih fun prop hprop => h prop (List.mem_cons_of_mem _ hprop)⟩
    rw [secondRequests_of_kept hfirst, h prop List.mem_cons_self]
    trivial

/-- A node without requests is served. -/
theorem nodesServed_of_no_requests (hfirst : ∀ prop ∈ properties, firstRequests m prop = [])
    (hsecond : ∀ own, ∀ prop ∈ properties, secondRequests m parent own prop = []) :
    NodesServed m hhdmBase answers parent (.node cells properties .none .none) bump := by
  have hserved : FirstLapServed m hhdmBase answers properties cells bump :=
    firstLapServed_of_no_requests hfirst
  refine ⟨hserved, fun properties' own bump₁ hlap => ⟨?_, fun _ _ _ => ⟨trivial, ?_⟩⟩⟩
  · exact secondLapServed_of_no_requests ((firstLap_served hserved).2 _ hlap) (hsecond own)
  · exact fun _ _ _ => trivial

end NoRequests

section TwoCells

/-- Both cell counts, one each, and an empty `ranges`. -/
def twoCellsMemory : Mem :=
  ofBytes 0x1000 (literal "#address-cells" ++ [0, 0, 0, 1] ++ literal "#size-cells" ++
    [0, 0, 0, 1] ++ literal "ranges")

def twoCellsAddress : Entry := Entry.ofRaw ⟨0x1000, 14⟩ ⟨0x100e, 4⟩

def twoCellsSize : Entry := Entry.ofRaw ⟨0x1012, 11⟩ ⟨0x101d, 4⟩

def twoCellsRanges : Entry := Entry.ofRaw ⟨0x1021, 6⟩ ⟨0x1027, 0⟩

theorem twoCells_keywords :
    keywordOf twoCellsMemory twoCellsAddress.name = some .addressCells ∧
      keywordOf twoCellsMemory twoCellsSize.name = some .sizeCells ∧
      keywordOf twoCellsMemory twoCellsRanges.name = some .ranges := by
  have hholds : Holds twoCellsMemory 0x1000 (literal "#address-cells" ++ [0, 0, 0, 1] ++
      literal "#size-cells" ++ [0, 0, 0, 1] ++ literal "ranges") :=
    holds_ofBytes _ (by decide)
  obtain ⟨hrest, hranges⟩ := holds_append.mp hholds
  obtain ⟨hrest, -⟩ := holds_append.mp hrest
  obtain ⟨hrest, hsize⟩ := holds_append.mp hrest
  obtain ⟨haddress, -⟩ := holds_append.mp hrest
  refine ⟨?_, ?_, ?_⟩
  · rw [keywordOf_eq ⟨by decide, haddress⟩ (by decide)]
    decide
  · rw [keywordOf_eq ⟨by decide, hsize⟩ (by decide)]
    decide
  · rw [keywordOf_eq ⟨by decide, hranges⟩ (by decide)]
    decide

/-- The three properties in any order make no request. -/
theorem twoCells_served {properties : List Entry}
    (h : properties.Perm [twoCellsAddress, twoCellsSize, twoCellsRanges]) (hhdmBase : U64)
    (answers : Answers) (bump : Bump.State) :
    NodesServed twoCellsMemory hhdmBase answers none (.node ⟨2, 1⟩ properties .none .none)
      bump := by
  obtain ⟨haddress, hsize, hranges⟩ := twoCells_keywords
  apply nodesServed_of_no_requests
  · intro prop hprop
    obtain rfl | rfl | rfl : prop = twoCellsAddress ∨ prop = twoCellsSize ∨
      prop = twoCellsRanges := by simpa using h.mem_iff.mp hprop
    all_goals simp only [firstRequests, haddress, hsize, hranges]
  · intro own prop hprop
    obtain rfl | rfl | rfl : prop = twoCellsAddress ∨ prop = twoCellsSize ∨
      prop = twoCellsRanges := by simpa using h.mem_iff.mp hprop
    all_goals simp only [secondRequests, haddress, hsize, hranges]
    exact if_pos rfl

theorem twoCells_distinct : DistinctNames twoCellsMemory
    (.node ⟨2, 1⟩ [twoCellsAddress, twoCellsSize, twoCellsRanges] .none .none) := by
  obtain ⟨haddress, hsize, hranges⟩ := twoCells_keywords
  refine ⟨?_, trivial, trivial⟩
  simp only [List.map_cons, List.map_nil, bytes_of_keywordOf haddress, bytes_of_keywordOf hsize,
    bytes_of_keywordOf hranges]
  decide

/-- The first order gets through. -/
theorem twoCells_completes (hhdmBase : U64) (answers : Answers) (bump : Bump.State) :
    ∃ result, Completes twoCellsMemory hhdmBase answers none
      (.node ⟨2, 1⟩ [twoCellsAddress, twoCellsSize, twoCellsRanges] .none .none) bump result := by
  have hserved := rewriteNodes_served (twoCells_served (.refl _) hhdmBase answers bump)
  have hdecoded : (decodeNodes twoCellsMemory none
      (.node ⟨2, 1⟩ [twoCellsAddress, twoCellsSize, twoCellsRanges] .none .none)).isSome = true := by
    decide +kernel
  rw [← hserved, Option.isSome_map, Option.isSome_iff_exists] at hdecoded
  obtain ⟨⟨result, bump'⟩, hresult⟩ := hdecoded
  exact ⟨result, completes_iff.mpr ⟨bump', hresult⟩⟩

theorem rewriteNodes_reordered_twoCells :
    ∃ result result', Completes twoCellsMemory 0 (fun _ => .granted 0) none
        (.node ⟨2, 1⟩ [twoCellsAddress, twoCellsSize, twoCellsRanges] .none .none)
        { headers := fun _ => ⟨0, 0, 0⟩ } result ∧
      Completes twoCellsMemory 0 (fun _ => .granted 0) none
        (.node ⟨2, 1⟩ [twoCellsRanges, twoCellsSize, twoCellsAddress] .none .none)
        { headers := fun _ => ⟨0, 0, 0⟩ } result' ∧
      SameDecoded (decodedOf twoCellsMemory result) (decodedOf twoCellsMemory result') := by
  have hreordered : Reordered
      (.node ⟨2, 1⟩ [twoCellsAddress, twoCellsSize, twoCellsRanges] .none .none)
      (.node ⟨2, 1⟩ [twoCellsRanges, twoCellsSize, twoCellsAddress] .none .none) :=
    .node (List.reverse_perm _).symm .none .none
  obtain ⟨hiff, hsame⟩ := rewriteNodes_reordered hreordered twoCells_distinct
    (twoCells_served (.refl _) 0 (fun _ => .granted 0) { headers := fun _ => ⟨0, 0, 0⟩ })
    (twoCells_served (List.reverse_perm _) 0 (fun _ => .granted 0)
      { headers := fun _ => ⟨0, 0, 0⟩ })
  obtain ⟨result, hresult⟩ := twoCells_completes 0 (fun _ => .granted 0)
    { headers := fun _ => ⟨0, 0, 0⟩ }
  obtain ⟨result', hresult'⟩ := hiff.mp ⟨result, hresult⟩
  exact ⟨result, result', hresult, hresult', hsame _ _ hresult hresult'⟩

end TwoCells

end Octiron.DeviceTree
