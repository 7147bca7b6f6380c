import Octiron.DeviceTree.Requests

/-! The pass without its allocator: what it decodes of a tree as long as every request
of the bump allocator is served, node by node. -/
namespace Octiron.DeviceTree

open Lib.ByteMemory Exec Pmm

/-- What a call leaves that returns without an error. -/
def succeeded {α : Type} : Exec (Error × α) → Option α
  | .ok (err, a) => if err.isErr then none else some a
  | .error _ => none

section Succeeded

variable {α : Type} {x : Exec (Error × α)} {a : α} {err : Error}

theorem succeeded_of_not_isErr (h : err.isErr = false) : succeeded (.ok (err, a)) = some a := by
  rw [succeeded, h]
  rfl

theorem succeeded_of_isErr (h : err.isErr = true) : succeeded (.ok (err, a)) = none := by
  rw [succeeded, h]
  rfl

theorem succeeded_empty : succeeded (.ok (.empty, a)) = some a :=
  succeeded_of_not_isErr Error.isErr_empty

theorem succeeded_eq_some : succeeded x = some a ↔ ∃ err, x = .ok (err, a) ∧ err.isErr = false := by
  constructor
  · intro h
    cases x with
    | error stop => cases h
    | ok result =>
      obtain ⟨err, b⟩ := result
      cases herr : err.isErr with
      | true => rw [succeeded_of_isErr herr] at h; cases h
      | false =>
        rw [succeeded_of_not_isErr herr] at h
        obtain rfl := Option.some.inj h
        exact ⟨err, rfl, herr⟩
  · rintro ⟨err, rfl, herr⟩
    exact succeeded_of_not_isErr herr

end Succeeded

section Decoding

variable (m : Mem)

/-- A turn of the first lap: what it makes of the node's cell counts. -/
def decodeFirst (cells : Cells) (prop : Entry) : Option Cells :=
  let integer := readBigEndian32 m prop.data.raw.data
  match keywordOf m prop.name with
  | some .compatible => if Splits m prop.data.raw then some cells else none
  | some .addressCells => if integer > 3 then none else some { cells with address := integer }
  | some .sizeCells => if integer > 2 then none else some { cells with size := integer }
  | _ => some cells

def decodeLap (cells : Cells) (properties : List Entry) : Option Cells :=
  properties.foldl (fun own prop => own.bind (decodeFirst m · prop)) (some cells)

/-- The properties that the second lap decodes. -/
def isRows (prop : Entry) : Bool :=
  match keywordOf m prop.name with
  | some .reg | some .ranges | some .busRanges => true
  | _ => false

/-- A turn of the second lap on such a property: its name, and what it says. -/
def decodeSecond (parent : Option Cells) (own : Cells) (prop : Entry) :
    Option (StrView × Content) :=
  match keywordOf m prop.name with
  | some .reg => (regPairs m parent prop.data.raw).toOption.map
    fun result => (prop.name, .pairs result.1 result.2)
  | _ =>
    if prop.data.raw.size = 0 then some (prop.name, .triples 0 prop.triples)
    else (rangesTriples m parent own prop.data.raw).toOption.map
      fun result => (prop.name, .triples result.1 result.2)

/-- A decoded tree: at each node its cell counts, and what `reg`, `ranges` and
`bus-ranges` say. -/
inductive Decoded where
  | none
  | node (own : Cells) (rows : List (StrView × Content)) (children nextSibling : Decoded)

def decodeNodes (parent : Option Cells) : Nodes → Option Decoded
  | .none => some .none
  | .node cells properties children nextSibling => do
    let own ← decodeLap m cells properties
    let rows ← (properties.filter (isRows m)).mapM (decodeSecond m parent own)
    let children ← decodeNodes (some own) children
    let nextSibling ← decodeNodes parent nextSibling
    return .node own rows children nextSibling

/-- The same reading of a tree that went through the pass. -/
def rowsOf (properties : List Entry) : List (StrView × Content) :=
  (properties.filter (isRows m)).map fun prop => (prop.name, prop.content m)

def decodedOf : Nodes → Decoded
  | .none => .none
  | .node cells properties children nextSibling =>
    .node cells (rowsOf m properties) (decodedOf children) (decodedOf nextSibling)

end Decoding

section Requests

variable (m : Mem) (hhdmBase : U64) (answers : Answers)

def firstRequests (prop : Entry) : List (U64 × U64) :=
  match keywordOf m prop.name with
  | some .compatible => compatibleRequests m prop.data.raw
  | _ => []

def secondRequests (parent : Option Cells) (own : Cells) (prop : Entry) : List (U64 × U64) :=
  match keywordOf m prop.name with
  | some .reg => regRequests parent prop.data.raw
  | some .ranges | some .busRanges => rangesRequests parent own prop.data.raw
  | _ => []

/-- Every turn that the first lap gets to has its requests served. -/
def FirstLapServed : List Entry → Cells → Bump.State → Prop
  | [], _, _ => True
  | prop :: rest, cells, bump =>
    Serves hhdmBase answers bump (firstRequests m prop) ∧
      ∀ prop' cells' bump',
        succeeded (rewriteFirst m hhdmBase answers cells bump prop) = some (prop', cells', bump') →
          FirstLapServed rest cells' bump'

def SecondLapServed (parent : Option Cells) (own : Cells) : List Entry → Bump.State → Prop
  | [], _ => True
  | prop :: rest, bump =>
    Serves hhdmBase answers bump (secondRequests m parent own prop) ∧
      ∀ prop' bump', rewriteSecond m hhdmBase answers parent own bump prop = .ok (prop', bump') →
        SecondLapServed parent own rest bump'

/-- No allocation fails in the pass over these siblings, as far as it gets. -/
def NodesServed : Option Cells → Nodes → Bump.State → Prop
  | _, .none, _ => True
  | parent, .node cells properties children nextSibling, bump =>
    FirstLapServed m hhdmBase answers properties cells bump ∧
      ∀ properties' own bump₁,
        succeeded (firstLap m hhdmBase answers properties cells bump) =
          some (properties', own, bump₁) →
        SecondLapServed m hhdmBase answers parent own properties' bump₁ ∧
        ∀ properties'' bump₂,
          secondLap m hhdmBase answers parent own properties' bump₁ = .ok (properties'', bump₂) →
          NodesServed (some own) children bump₂ ∧
          ∀ children' bump₃,
            succeeded (rewriteNodes m hhdmBase answers (some own) children bump₂) =
              some (children', bump₃) →
            NodesServed parent nextSibling bump₃

end Requests

section FirstLap

variable {m : Mem} {hhdmBase : U64} {answers : Answers} {cells : Cells} {bump : Bump.State}
  {prop prop' : Entry} {properties : List Entry}

/-- What the first lap leaves of a property for the second. -/
structure Kept (m : Mem) (prop prop' : Entry) : Prop where
  name : prop'.name = prop.name
  rows : isRows m prop = true → prop' = prop

theorem not_isRows_of_keyword {keyword : Keyword} (h : keywordOf m prop.name = some keyword)
    (hrows : keyword ≠ .reg ∧ keyword ≠ .ranges ∧ keyword ≠ .busRanges) :
    ¬ isRows m prop = true := by
  unfold isRows
  rw [h]
  cases keyword <;> simp_all

/-- What a turn of the first lap does to the cell counts and leaves of its property. -/
def FirstTurnMatches (m : Mem) (cells : Cells) (prop : Entry)
    (x : Exec (Error × Entry × Cells × Bump.State)) : Prop :=
  (succeeded x).map (fun result => result.2.1) = decodeFirst m cells prop ∧
    ∀ result, succeeded x = some result → Kept m prop result.1

theorem firstTurnMatches_ok {own : Cells} {bump' : Bump.State}
    (hdecode : decodeFirst m cells prop = some own) (hkept : Kept m prop prop') :
    FirstTurnMatches m cells prop (.ok (.empty, prop', own, bump')) := by
  refine ⟨by rw [succeeded_empty, hdecode]; rfl, fun result hresult => ?_⟩
  rw [succeeded_empty] at hresult
  obtain rfl := Option.some.inj hresult
  exact hkept

theorem firstTurnMatches_none {x : Exec (Error × Entry × Cells × Bump.State)}
    (hnone : succeeded x = none) (hdecode : decodeFirst m cells prop = none) :
    FirstTurnMatches m cells prop x := by
  refine ⟨by rw [hnone, hdecode]; rfl, fun result hresult => ?_⟩
  rw [hnone] at hresult
  cases hresult

theorem rewriteFirst_served (h : Serves hhdmBase answers bump (firstRequests m prop)) :
    FirstTurnMatches m cells prop (rewriteFirst m hhdmBase answers cells bump prop) := by
  cases hkeyword : keywordOf m prop.name with
  | none =>
    rw [rewriteFirst, hkeyword]
    exact firstTurnMatches_ok (by rw [decodeFirst, hkeyword]) ⟨rfl, fun _ => rfl⟩
  | some keyword =>
    have hother := not_isRows_of_keyword hkeyword
    rw [rewriteFirst, hkeyword]
    cases keyword
    case compatible =>
      rw [firstRequests, hkeyword] at h
      have hserved := rewriteCompatible_served h
      cases hresult : rewriteCompatible m hhdmBase answers bump prop with
      | error stop =>
        have hnot : ¬ Splits m prop.data.raw := by
          intro hsplits
          rw [hresult, if_pos hsplits] at hserved
          cases hserved
        exact firstTurnMatches_none rfl (by rw [decodeFirst, hkeyword]; exact if_neg hnot)
      | ok result =>
        have hsplits : Splits m prop.data.raw := by
          by_contra hnot
          rw [hresult, if_neg hnot] at hserved
          cases hserved
        rw [hresult, if_pos hsplits] at hserved
        exact firstTurnMatches_ok (by rw [decodeFirst, hkeyword]; exact if_pos hsplits)
          ⟨Option.some.inj hserved, fun hrows => absurd hrows (hother (by decide))⟩
    case addressCells =>
      dsimp only
      by_cases hlarge : readBigEndian32 m prop.data.raw.data > 3
      · rw [if_pos hlarge]
        exact firstTurnMatches_none (succeeded_of_isErr (by decide))
          (by rw [decodeFirst, hkeyword]; exact if_pos hlarge)
      · rw [if_neg hlarge]
        exact firstTurnMatches_ok (by rw [decodeFirst, hkeyword]; exact if_neg hlarge)
          ⟨rfl, fun hrows => absurd hrows (hother (by decide))⟩
    case sizeCells =>
      dsimp only
      by_cases hlarge : readBigEndian32 m prop.data.raw.data > 2
      · rw [if_pos hlarge]
        exact firstTurnMatches_none (succeeded_of_isErr (by decide))
          (by rw [decodeFirst, hkeyword]; exact if_pos hlarge)
      · rw [if_neg hlarge]
        exact firstTurnMatches_ok (by rw [decodeFirst, hkeyword]; exact if_neg hlarge)
          ⟨rfl, fun hrows => absurd hrows (hother (by decide))⟩
    case reg | ranges | busRanges =>
      exact firstTurnMatches_ok (by rw [decodeFirst, hkeyword]) ⟨rfl, fun _ => rfl⟩
    all_goals
      exact firstTurnMatches_ok (by rw [decodeFirst, hkeyword])
        ⟨rfl, fun hrows => absurd hrows (hother (by decide))⟩

theorem succeeded_firstLap_cons : succeeded (firstLap m hhdmBase answers (prop :: properties)
    cells bump) = (succeeded (rewriteFirst m hhdmBase answers cells bump prop)).bind fun turn =>
      (succeeded (firstLap m hhdmBase answers properties turn.2.1 turn.2.2)).map fun lap =>
        (turn.1 :: lap.1, lap.2.1, lap.2.2) := by
  rw [firstLap]
  cases rewriteFirst m hhdmBase answers cells bump prop with
  | error stop => rfl
  | ok result =>
    obtain ⟨err, prop', cells', bump'⟩ := result
    rw [ok_bind]
    dsimp only
    cases herr : err.isErr with
    | true =>
      rw [if_pos rfl, succeeded_of_isErr herr]
      exact succeeded_of_isErr herr
    | false =>
      rw [if_neg Bool.false_ne_true, succeeded_of_not_isErr herr, Option.bind_some]
      cases firstLap m hhdmBase answers properties cells' bump' with
      | error stop => rfl
      | ok lap =>
        obtain ⟨err', rest', own, bump''⟩ := lap
        cases herr' : err'.isErr with
        | true => rw [succeeded_of_isErr herr']; exact succeeded_of_isErr herr'
        | false => rw [succeeded_of_not_isErr herr']; exact succeeded_of_not_isErr herr'

theorem decodeLap_cons : decodeLap m cells (prop :: properties) =
    (decodeFirst m cells prop).bind fun own => decodeLap m own properties := by
  unfold decodeLap
  rw [List.foldl_cons, Option.bind_some]
  cases decodeFirst m cells prop with
  | some own => rfl
  | none =>
    rw [Option.bind_none]
    induction properties with
    | nil => rfl
    | cons first rest ih => rwa [List.foldl_cons, Option.bind_none]

/-- The first lap, its requests served, is the lap that makes none. -/
theorem firstLap_served (h : FirstLapServed m hhdmBase answers properties cells bump) :
    (succeeded (firstLap m hhdmBase answers properties cells bump)).map
        (fun result => result.2.1) = decodeLap m cells properties ∧
      ∀ result, succeeded (firstLap m hhdmBase answers properties cells bump) = some result →
        List.Forall₂ (Kept m) properties result.1 := by
  induction properties generalizing cells bump with
  | nil =>
    rw [firstLap, succeeded_empty]
    refine ⟨rfl, fun result hresult => ?_⟩
    obtain rfl := Option.some.inj hresult
    exact .nil
  | cons prop rest ih =>
    obtain ⟨hserves, hrest⟩ := h
    obtain ⟨hcells, hkept⟩ := @rewriteFirst_served m hhdmBase answers cells bump prop hserves
    rw [succeeded_firstLap_cons, decodeLap_cons, ← hcells]
    cases hturn : succeeded (rewriteFirst m hhdmBase answers cells bump prop) with
    | none => exact ⟨rfl, fun _ hresult => by cases hresult⟩
    | some turn =>
      obtain ⟨hown, hforall⟩ := ih (hrest _ _ _ hturn)
      rw [Option.bind_some, Option.map_some, Option.bind_some, ← hown, Option.map_map]
      refine ⟨rfl, fun result hresult => ?_⟩
      obtain ⟨lap, hlap, rfl⟩ := Option.map_eq_some_iff.mp hresult
      exact .cons (hkept turn hturn) (hforall lap hlap)

end FirstLap

section SecondLap

variable {m : Mem} {hhdmBase : U64} {answers : Answers} {parent : Option Cells} {own : Cells}
  {bump : Bump.State} {prop : Entry} {properties properties' : List Entry}

/-- The first lap leaves what the second decodes. -/
theorem filter_isRows_of_kept (h : List.Forall₂ (Kept m) properties properties') :
    properties'.filter (isRows m) = properties.filter (isRows m) := by
  induction h with
  | nil => rfl
  | @cons prop prop' rest rest' hkept _ ih =>
    have hrows : isRows m prop' = isRows m prop := by
      unfold isRows
      rw [hkept.name]
    by_cases hprop : isRows m prop = true
    · rw [List.filter_cons_of_pos (hrows.trans hprop), List.filter_cons_of_pos hprop, ih,
        hkept.rows hprop]
    · rw [List.filter_cons_of_neg (hrows ▸ hprop), List.filter_cons_of_neg hprop, ih]

theorem decodeSecond_name {result : StrView × Content}
    (h : decodeSecond m parent own prop = some result) : result.1 = prop.name := by
  unfold decodeSecond at h
  split at h
  · obtain ⟨_, -, rfl⟩ := Option.map_eq_some_iff.mp h
    rfl
  · split at h
    · obtain rfl := Option.some.inj h
      rfl
    · obtain ⟨_, -, rfl⟩ := Option.map_eq_some_iff.mp h
      rfl

theorem rewriteSecond_other (h : ¬ isRows m prop = true) :
    rewriteSecond m hhdmBase answers parent own bump prop = .ok (prop, bump) := by
  unfold isRows at h
  unfold rewriteSecond
  split
  · rename_i hkeyword
    rw [hkeyword] at h
    exact absurd rfl h
  · rename_i hkeyword
    rw [hkeyword] at h
    exact absurd rfl h
  · rename_i hkeyword
    rw [hkeyword] at h
    exact absurd rfl h
  · rfl

theorem rewriteRanges_served (h : Serves hhdmBase answers bump (rangesRequests parent own
    prop.data.raw)) :
    (propertyRewriteRanges m hhdmBase answers parent own bump prop).toOption.map
        (fun result => (result.1.name, result.1.content m)) =
      if prop.data.raw.size = 0 then some (prop.name, .triples 0 prop.triples)
      else (rangesTriples m parent own prop.data.raw).toOption.map
        fun result => (prop.name, .triples result.1 result.2) := by
  by_cases hempty : prop.data.raw.size = 0
  · rw [if_pos hempty]
    unfold propertyRewriteRanges
    dsimp only
    rw [if_pos hempty]
    rfl
  · rw [if_neg hempty, propertyRewriteRanges_served hempty h]

theorem rewriteSecond_served (hrows : isRows m prop = true)
    (h : Serves hhdmBase answers bump (secondRequests m parent own prop)) :
    (rewriteSecond m hhdmBase answers parent own bump prop).toOption.map
      (fun result => (result.1.name, result.1.content m)) = decodeSecond m parent own prop := by
  unfold isRows at hrows
  unfold secondRequests at h
  unfold rewriteSecond decodeSecond
  split at hrows
  · rename_i hkeyword
    rw [hkeyword] at h ⊢
    exact propertyRewriteReg_served h
  · rename_i hkeyword
    rw [hkeyword] at h ⊢
    exact rewriteRanges_served h
  · rename_i hkeyword
    rw [hkeyword] at h ⊢
    exact rewriteRanges_served h
  · cases hrows

theorem toOption_secondLap_cons :
    (secondLap m hhdmBase answers parent own (prop :: properties) bump).toOption =
      (rewriteSecond m hhdmBase answers parent own bump prop).toOption.bind fun turn =>
        (secondLap m hhdmBase answers parent own properties turn.2).toOption.map fun lap =>
          (turn.1 :: lap.1, lap.2) := by
  rw [secondLap]
  cases rewriteSecond m hhdmBase answers parent own bump prop with
  | error stop => rfl
  | ok turn =>
    obtain ⟨prop', bump'⟩ := turn
    change _ = (secondLap m hhdmBase answers parent own properties bump').toOption.map _
    rw [ok_bind]
    dsimp only
    cases secondLap m hhdmBase answers parent own properties bump' with
    | error stop => rfl
    | ok lap => rfl

theorem toOption_eq_some {α : Type} {x : Exec α} {a : α} (h : x.toOption = some a) : x = .ok a := by
  cases x with
  | error stop => cases h
  | ok b => rw [Option.some.inj h]

/-- The second lap, its requests served, is the lap that makes none. -/
theorem secondLap_served
    (h : SecondLapServed m hhdmBase answers parent own properties bump) :
    (secondLap m hhdmBase answers parent own properties bump).toOption.map
        (fun result => rowsOf m result.1) =
      (properties.filter (isRows m)).mapM (decodeSecond m parent own) := by
  induction properties generalizing bump with
  | nil => rfl
  | cons prop rest ih =>
    obtain ⟨hserves, hrest⟩ := h
    rw [toOption_secondLap_cons]
    by_cases hrows : isRows m prop = true
    · have hturn := rewriteSecond_served hrows hserves
      rw [List.filter_cons_of_pos hrows, List.mapM_cons, ← hturn]
      cases hresult : (rewriteSecond m hhdmBase answers parent own bump prop).toOption with
      | none => rfl
      | some turn =>
        rw [hresult] at hturn
        have hname : turn.1.name = prop.name := decodeSecond_name hturn.symm
        have hkept : isRows m turn.1 = true := by
          unfold isRows
          rw [hname]
          exact hrows
        rw [← ih (hrest _ _ (toOption_eq_some hresult)), Option.bind_some]
        cases (secondLap m hhdmBase answers parent own rest turn.2).toOption with
        | none => rfl
        | some lap =>
          change some (rowsOf m (turn.1 :: lap.1)) = some (_ :: rowsOf m lap.1)
          rw [rowsOf, List.filter_cons_of_pos hkept]
          rfl
    · rw [rewriteSecond_other hrows] at hrest ⊢
      rw [List.filter_cons_of_neg hrows, ← ih (hrest _ _ rfl)]
      change Option.map _ (Option.map _ _) = _
      cases (secondLap m hhdmBase answers parent own rest bump).toOption with
      | none => rfl
      | some lap =>
        change some (rowsOf m (prop :: lap.1)) = some (rowsOf m lap.1)
        rw [rowsOf, List.filter_cons_of_neg hrows]
        rfl

end SecondLap

section Pass

variable {m : Mem} {hhdmBase : U64} {answers : Answers} {parent : Option Cells}
  {cells : Cells} {properties : List Entry} {children next nodes : Nodes} {bump : Bump.State}

theorem succeeded_rewriteNodes_node :
    succeeded (rewriteNodes m hhdmBase answers parent (.node cells properties children next) bump) =
      (succeeded (firstLap m hhdmBase answers properties cells bump)).bind fun first =>
        (secondLap m hhdmBase answers parent first.2.1 first.1 first.2.2).toOption.bind fun second =>
          (succeeded (rewriteNodes m hhdmBase answers (some first.2.1) children second.2)).bind
            fun below =>
              (succeeded (rewriteNodes m hhdmBase answers parent next below.2)).map fun beside =>
                (.node first.2.1 second.1 below.1 beside.1, beside.2) := by
  rw [rewriteNodes]
  cases firstLap m hhdmBase answers properties cells bump with
  | error stop => rfl
  | ok result =>
    obtain ⟨err, properties', own, bump₁⟩ := result
    rw [ok_bind]
    dsimp only
    cases herr : err.isErr with
    | true =>
      rw [if_pos rfl, succeeded_of_isErr herr]
      exact succeeded_of_isErr herr
    | false =>
      rw [if_neg Bool.false_ne_true, succeeded_of_not_isErr herr, Option.bind_some]
      cases secondLap m hhdmBase answers parent own properties' bump₁ with
      | error stop => rfl
      | ok second =>
        obtain ⟨properties'', bump₂⟩ := second
        change _ = Option.bind (succeeded (rewriteNodes m hhdmBase answers (some own) children
          bump₂)) _
        rw [ok_bind]
        dsimp only
        cases rewriteNodes m hhdmBase answers (some own) children bump₂ with
        | error stop => rfl
        | ok below =>
          obtain ⟨err', children', bump₃⟩ := below
          rw [ok_bind]
          dsimp only
          cases herr' : err'.isErr with
          | true =>
            rw [if_pos rfl, succeeded_of_isErr herr']
            exact succeeded_of_isErr herr'
          | false =>
            rw [if_neg Bool.false_ne_true, succeeded_of_not_isErr herr', Option.bind_some]
            cases rewriteNodes m hhdmBase answers parent next bump₃ with
            | error stop => rfl
            | ok beside =>
              obtain ⟨err'', next', bump₄⟩ := beside
              cases herr'' : err''.isErr with
              | true => rw [succeeded_of_isErr herr'']; exact succeeded_of_isErr herr''
              | false => rw [succeeded_of_not_isErr herr'']; exact succeeded_of_not_isErr herr''

theorem decodeNodes_node : decodeNodes m parent (.node cells properties children next) =
    (decodeLap m cells properties).bind fun own =>
      ((properties.filter (isRows m)).mapM (decodeSecond m parent own)).bind fun rows =>
        (decodeNodes m (some own) children).bind fun below =>
          (decodeNodes m parent next).bind fun beside => some (.node own rows below beside) :=
  rfl

/-- As long as no allocation fails, the pass decodes what the pass without an allocator
does, and ends without an error exactly when it does. -/
theorem rewriteNodes_served (h : NodesServed m hhdmBase answers parent nodes bump) :
    (succeeded (rewriteNodes m hhdmBase answers parent nodes bump)).map
      (fun result => decodedOf m result.1) = decodeNodes m parent nodes := by
  induction nodes generalizing parent bump with
  | none => rfl
  | node cells properties children next ihchildren ihnext =>
    obtain ⟨hfirst, hrest⟩ := h
    obtain ⟨hown, hkept⟩ := firstLap_served hfirst
    rw [succeeded_rewriteNodes_node, decodeNodes_node, ← hown]
    cases hlap : succeeded (firstLap m hhdmBase answers properties cells bump) with
    | none => rfl
    | some first =>
      obtain ⟨properties', own, bump₁⟩ := first
      obtain ⟨hsecond, hrest⟩ := hrest _ _ _ hlap
      rw [Option.bind_some, Option.map_some, Option.bind_some,
        ← filter_isRows_of_kept (hkept _ hlap), ← secondLap_served hsecond]
      dsimp only
      cases hlap₂ : (secondLap m hhdmBase answers parent own properties' bump₁).toOption with
      | none => rfl
      | some second =>
        obtain ⟨properties'', bump₂⟩ := second
        obtain ⟨hchildren, hrest⟩ := hrest _ _ (toOption_eq_some hlap₂)
        rw [Option.bind_some, Option.map_some, Option.bind_some, ← ihchildren hchildren]
        cases hbelow : succeeded (rewriteNodes m hhdmBase answers (some own) children bump₂) with
        | none => rfl
        | some below =>
          obtain ⟨children', bump₃⟩ := below
          rw [Option.bind_some, Option.map_some, Option.bind_some, ← ihnext (hrest _ _ hbelow)]
          cases succeeded (rewriteNodes m hhdmBase answers parent next bump₃) with
          | none => rfl
          | some beside => rfl

end Pass

end Octiron.DeviceTree
