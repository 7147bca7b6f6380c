import Octiron.DeviceTree.PassInMemory

/-! Where a property lies in a tree, and what the pass leaves there: its record, and its arrays
for as long as no later turn stores over them. -/
namespace Octiron.DeviceTree.InMemory

open Lib.Word Lib.ByteMemory Exec Pmm

/-- The counts of a node's parent, which the root does not have. -/
def countsAt (m : Mem) (up : U64) : Option Cells := if up = 0 then none else some (cellsAt m up)

/-- A property of a list of siblings, or of a node below them: the records of its node's
parent, of its node and of itself, and what it is before the pass. -/
inductive Located : U64 → Places → Nodes → U64 → U64 → U64 → Entry → Prop where
  | here {up node prop : U64} {props : List U64} {childPlaces nextPlaces : Places} {cells : Cells}
      {entries : List Entry} {children next : Nodes} {entry : Entry}
      (hmem : (prop, entry) ∈ props.zip entries) :
      Located up (.node node props childPlaces nextPlaces) (.node cells entries children next) up node
        prop entry
  | child {up place u node prop : U64} {props : List U64} {childPlaces nextPlaces : Places}
      {cells : Cells} {entries : List Entry} {children next : Nodes} {entry : Entry}
      (h : Located place childPlaces children u node prop entry) :
      Located up (.node place props childPlaces nextPlaces) (.node cells entries children next) u node
        prop entry
  | sibling {up place u node prop : U64} {props : List U64} {childPlaces nextPlaces : Places}
      {cells : Cells} {entries : List Entry} {children next : Nodes} {entry : Entry}
      (h : Located up nextPlaces next u node prop entry) :
      Located up (.node place props childPlaces nextPlaces) (.node cells entries children next) u node
        prop entry

section Laps

variable {m mem : Mem} {hhdmBase : U64} {answers : Answers} {props : List U64} {prop : U64}
  {entries entries' : List Entry} {entry : Entry} {own own' : Cells} {parent : Option Cells}
  {bump bump' : Bump.State} {err : Error} {i : Nat}

/-- The turn over one property, in the lap over all of them. -/
theorem firstLap_at
    (h : firstLap m hhdmBase answers entries own bump = .ok (err, entries', own', bump'))
    (hok : err.isErr = false) (hplace : props[i]? = some prop) (hentry : entries[i]? = some entry) :
    ∃ first, entries'[i]? = some first ∧ FirstTurn m hhdmBase answers entry first ∧
      ∃ turn ∈ firstTurns m hhdmBase answers props entries own bump, turn.place = prop ∧
        ∀ mem, turn.holds mem → FirstHeld m first mem := by
  induction entries generalizing entries' own own' bump bump' props i with
  | nil => cases hentry
  | cons head rest ih =>
    cases props with
    | nil => cases hplace
    | cons place props =>
    obtain ⟨⟨turnErr, head', turnCells, turnBump⟩, hturn, h⟩ := bind_eq_ok.mp h
    dsimp only at h
    split at h
    · next herr =>
      obtain ⟨rfl, -⟩ := Prod.mk.inj (pure_eq_ok.mp h)
      exact absurd (hok.symm.trans herr) (by decide)
    next herr =>
    obtain ⟨⟨lapErr, rest', lapCells, lapBump⟩, hlap, h⟩ := bind_eq_ok.mp h
    obtain ⟨rfl, hresult⟩ := Prod.mk.inj (pure_eq_ok.mp h)
    obtain ⟨rfl, -⟩ := Prod.mk.inj hresult
    rw [firstTurns_ok hturn herr]
    cases i with
    | zero =>
      obtain rfl := Option.some.inj hplace
      obtain rfl := Option.some.inj hentry
      exact ⟨head', rfl, ⟨_, _, _, _, _, hturn, Bool.eq_false_of_not_eq_true herr⟩, _,
        List.mem_cons_self, rfl, fun _ hholds => hholds _ hturn⟩
    | succ i =>
      rw [List.getElem?_cons_succ] at hplace hentry
      obtain ⟨first, hat, hfirst, turn, hmem, hturns⟩ := ih hlap hplace hentry
      exact ⟨first, hat, hfirst, turn, List.mem_cons_of_mem _ hmem, hturns⟩

theorem secondLap_at
    (h : secondLap m hhdmBase answers parent own entries bump = .ok (entries', bump'))
    (hplace : props[i]? = some prop) (hentry : entries[i]? = some entry) :
    ∃ entry', entries'[i]? = some entry' ∧ SecondTurn m hhdmBase answers parent own entry entry' ∧
      entry'.name = entry.name ∧
      ∃ turn ∈ secondTurns m hhdmBase answers parent own props entries bump, turn.place = prop ∧
        ∀ mem, turn.holds mem → SecondHeld m parent own entry' mem := by
  induction entries generalizing entries' bump bump' props i with
  | nil => cases hentry
  | cons head rest ih =>
    cases props with
    | nil => cases hplace
    | cons place props =>
    obtain ⟨⟨head', turnBump⟩, hturn, h⟩ := bind_eq_ok.mp h
    obtain ⟨⟨rest', lapBump⟩, hlap, h⟩ := bind_eq_ok.mp h
    obtain ⟨rfl, -⟩ := Prod.mk.inj (pure_eq_ok.mp h)
    rw [secondTurns_ok hturn]
    cases i with
    | zero =>
      obtain rfl := Option.some.inj hplace
      obtain rfl := Option.some.inj hentry
      exact ⟨head', rfl, ⟨_, _, hturn⟩, rewriteSecond_name hturn, _, List.mem_cons_self, rfl,
        fun _ hholds => hholds _ hturn⟩
    | succ i =>
      rw [List.getElem?_cons_succ] at hplace hentry
      obtain ⟨entry', hat, hsecond, hname, turn, hmem, hturns⟩ := ih hlap hplace hentry
      exact ⟨entry', hat, hsecond, hname, turn, List.mem_cons_of_mem _ hmem, hturns⟩

theorem PropertiesAt.at (h : PropertiesAt m props entries) (hplace : props[i]? = some prop)
    (hentry : entries[i]? = some entry) : ∃ next, PropertyAt m prop next entry := by
  induction props generalizing entries i with
  | nil => cases hplace
  | cons place props ih =>
    cases entries with
    | nil => cases hentry
    | cons head rest =>
    cases i with
    | zero =>
      obtain rfl := Option.some.inj hplace
      obtain rfl := Option.some.inj hentry
      exact ⟨_, h.1⟩
    | succ i => exact ih h.2 hplace hentry

/-- What only the first lap decodes is still there after the second. -/
theorem arraysHeld_of_turns {first entry' : Entry}
    (hsecond : SecondTurn m hhdmBase answers parent own first entry') (hname : entry'.name = first.name)
    (hfirstHeld : FirstHeld m first mem) (hsecondHeld : SecondHeld m parent own entry' mem) :
    ArraysHeld m parent own entry' mem := by
  by_cases hkeyword : keywordOf m entry'.name = some .compatible
  · have hsame : entry' = first := secondTurn_other hsecond fun keyword hother hrows => by
      rw [← hname, hkeyword] at hother
      obtain rfl := Option.some.inj hother
      rcases hrows with hreg | hranges | hbus <;> contradiction
    rw [ArraysHeld, hkeyword, hsame]
    exact hfirstHeld (hname ▸ hkeyword)
  · exact hsecondHeld hkeyword

end Laps

section Nodes

variable {m mem : Mem} {hhdmBase : U64} {answers : Answers} {up u node prop : U64} {places : Places}
  {nodes nodes' : Nodes} {entry : Entry} {parent : Option Cells} {bump bump' : Bump.State} {err : Error}

/-- What is left at the place of a property. -/
structure PropertyLeft (m : Mem) (parent : Option Cells) (own : Cells) (prop : U64) (entry' : Entry)
    (turns : List PlacedTurn) (mem : Mem) : Prop where
  record : ∃ next, PropertyAt mem prop next entry'
  arrays : (∀ turn ∈ turns, turn.place = prop → turn.holds mem) → ArraysHeld m parent own entry' mem

theorem PropertyLeft.mono {own : Cells} {entry' : Entry} {turns turns' : List PlacedTurn}
    (h : PropertyLeft m parent own prop entry' turns mem) (hsub : ∀ turn ∈ turns, turn ∈ turns') :
    PropertyLeft m parent own prop entry' turns' mem :=
  ⟨h.record, fun hturns => h.arrays fun turn hmem => hturns turn (hsub turn hmem)⟩

/-- Memory that holds the tree the pass leaves holds each of its properties. -/
theorem Located.left (hlocated : Located up places nodes u node prop entry)
    (h : rewriteNodes m hhdmBase answers parent nodes bump = .ok (err, nodes', bump'))
    (hok : err.isErr = false) (hat : NodesAt mem up places nodes') (hparent : countsAt mem up = parent) :
    ∃ entry', Occurs parent nodes nodes' (countsAt mem u) (cellsAt mem node) entry entry' ∧
      PropertyLeft m (countsAt mem u) (cellsAt mem node) prop entry'
        (nodesTurns m hhdmBase answers parent places nodes bump) mem := by
  induction nodes generalizing up places nodes' parent bump bump' err with
  | none => cases hlocated
  | node cells entries children next ihChildren ihNext =>
    cases places with
    | none => cases hlocated
    | node place props childPlaces nextPlaces =>
    rw [rewriteNodes_node] at h
    obtain ⟨⟨nodeErr, own, entries₂, children', bump₁⟩, hnode, h⟩ := bind_eq_ok.mp h
    dsimp only at h
    split at h
    · next herr =>
      obtain ⟨rfl, -⟩ := Prod.mk.inj (pure_eq_ok.mp h)
      exact absurd (hok.symm.trans herr) (by decide)
    next hnodeErr =>
    obtain ⟨⟨nextErr, next', bump₂⟩, hnext, h⟩ := bind_eq_ok.mp h
    obtain ⟨rfl, hresult⟩ := Prod.mk.inj (pure_eq_ok.mp h)
    obtain ⟨rfl, -⟩ := Prod.mk.inj hresult
    obtain ⟨hrecord, hprops, hbelow, hbeside⟩ := hat
    rw [nodesTurns_ok hnode (Bool.eq_false_of_not_eq_true hnodeErr)]
    -- the calls for this node
    obtain ⟨⟨firstErr, entries₁, own₁, firstBump⟩, hfirst, hnode⟩ := bind_eq_ok.mp hnode
    dsimp only at hnode
    split at hnode
    · next herr =>
      obtain ⟨rfl, -⟩ := Prod.mk.inj (pure_eq_ok.mp hnode)
      exact absurd herr hnodeErr
    next hfirstErr =>
    obtain ⟨⟨secondEntries, secondBump⟩, hsecond, hnode⟩ := bind_eq_ok.mp hnode
    obtain ⟨⟨childErr, belowNodes, childBump⟩, hchildren, hnode⟩ := bind_eq_ok.mp hnode
    cases pure_eq_ok.mp hnode
    rw [nodeTurns_ok hfirst (Bool.eq_false_of_not_eq_true hfirstErr), hsecond, turnsAfter_ok]
    cases hlocated with
    | here hmem =>
      obtain ⟨i, hi⟩ := List.mem_iff_getElem?.mp hmem
      obtain ⟨hplace, hentry⟩ := List.getElem?_zip_eq_some.mp hi
      obtain ⟨first, hfirstAt, hfirstTurn, turn, hturn, hturnPlace, hfirstHeld⟩ :=
        firstLap_at hfirst (Bool.eq_false_of_not_eq_true hfirstErr) hplace hentry
      obtain ⟨entry', hentryAt, hsecondTurn, hname, turn', hturn', hturnPlace', hsecondHeld⟩ :=
        secondLap_at hsecond hplace hfirstAt
      have hcells : cellsAt mem node = own := hrecord.cells
      rw [hcells, hparent]
      refine ⟨entry', .here (List.mem_iff_getElem?.mpr ⟨i, List.getElem?_zip_eq_some.mpr
        ⟨hentry, hentryAt⟩⟩), hprops.at hplace hentryAt, fun hholds => ?_⟩
      refine arraysHeld_of_turns hsecondTurn hname
        (hfirstHeld mem (hholds turn ?_ hturnPlace)) (hsecondHeld mem (hholds turn' ?_ hturnPlace'))
      · exact List.mem_append_left _ (List.mem_append_left _ hturn)
      · exact List.mem_append_left _ (List.mem_append_right _ (List.mem_append_left _ hturn'))
    | child hlocated =>
      have hcounts : countsAt mem place = some own :=
        (if_neg hrecord.notNull).trans (congrArg some hrecord.cells)
      obtain ⟨entry', hoccurs, hleft⟩ := ihChildren hlocated hchildren
        (Bool.eq_false_of_not_eq_true hnodeErr) hbelow hcounts
      exact ⟨entry', .child hoccurs, hleft.mono fun turn hmem =>
        List.mem_append_left _ (List.mem_append_right _ (List.mem_append_right _ hmem))⟩
    | sibling hlocated =>
      obtain ⟨entry', hoccurs, hleft⟩ := ihNext hlocated hnext hok hbeside hparent
      exact ⟨entry', .sibling hoccurs, hleft.mono fun turn hmem => List.mem_append_right _ hmem⟩

end Nodes

end Octiron.DeviceTree.InMemory
