import Octiron.DeviceTree.PassTurns

/-! Both laps over a node's properties in memory, in lockstep with the laps that keep their
arrays apart, for as long as no turn stores in the records, in the blob or in a header. -/
namespace Octiron.DeviceTree.InMemory

open Lib.Word Lib.ByteMemory Lib.Lockstep Exec Pmm

section Spans

variable {keep reads : U64 → Prop} {spans spans' : List (U64 × Nat)} {r : U64 × Nat} {x : U64}

@[simp] theorem not_covered_nil : ¬ Covered [] x := fun ⟨_, hmem, _⟩ => List.not_mem_nil hmem

@[simp] theorem covered_cons : Covered (r :: spans) x ↔ Within x r.1 r.2 ∨ Covered spans x := by
  simp [Covered]

@[simp] theorem covered_append :
    Covered (spans ++ spans') x ↔ Covered spans x ∨ Covered spans' x := by
  simp [Covered, or_and_right, exists_or]

/-- Records that are to be kept: apart from each other, and no part of the blob. -/
structure RecordsKept (keep reads : U64 → Prop) (spans : List (U64 × Nat)) : Prop where
  kept : ∀ x, Covered spans x → keep x ∧ ¬ reads x
  distinct : spans.Pairwise fun a b => Apart a.1 a.2 b.1 b.2

theorem RecordsKept.sublist (h : RecordsKept keep reads spans) (hsub : spans'.Sublist spans) :
    RecordsKept keep reads spans' where
  kept := fun x ⟨r, hr, hx⟩ => h.kept x ⟨r, hsub.subset hr, hx⟩
  distinct := h.distinct.sublist hsub

theorem RecordsKept.apart (h : RecordsKept keep reads (spans ++ spans')) (hx : Covered spans x) :
    ¬ Covered spans' x := by
  obtain ⟨r, hr, hx⟩ := hx
  rintro ⟨r', hr', hx'⟩
  exact (List.pairwise_append.mp h.distinct).2.2 r hr r' hr' x hx hx'

theorem RecordsKept.head (h : RecordsKept keep reads (r :: spans)) (hx : Within x r.1 r.2) :
    ¬ Covered spans x := by
  rintro ⟨r', hr', hx'⟩
  exact (List.pairwise_cons.mp h.distinct).1 r' hr' x hx hx'

/-- The record of a node's parent, if there is one. -/
structure ParentKept (keep : U64 → Prop) (m : Mem) (up : U64) (parent : Option Cells) : Prop where
  atRoot : parent = none → up = 0
  below : ∀ p, parent = some p → up ≠ 0 ∧ cellsAt m up = p
  keeps : parent ≠ none → ∀ x, Within x up 56 → keep x

variable {m m' : Mem} {node up : U64} {own : Cells} {parent : Option Cells}

theorem ParentKept.congr (h : ParentKept keep m up parent)
    (hsame : parent ≠ none → ∀ x, Within x up 56 → m' x = m x) : ParentKept keep m' up parent where
  atRoot := h.atRoot
  below p hp := by
    obtain ⟨hne, hcells⟩ := h.below p hp
    have hrecord := sameNode_of_bytes (hsame (by rw [hp]; exact Option.some_ne_none p))
    exact ⟨hne, hrecord.cells.trans hcells⟩
  keeps := h.keeps

theorem ParentKept.counts (h : ParentKept keep m up parent) (hparent : parentAt m node = up)
    (hown : cellsAt m node = own) (hnode : ∀ x, Within x node 56 → keep x) :
    Counts keep m node own parent := by
  subst hparent
  exact ⟨hown, hnode, h.atRoot, h.below, h.keeps⟩

end Spans

section Turns

variable {keep reads extra : U64 → Prop} {m : Mem} {h : Heap} {bump : Bump.State} {node prop up : U64}
  {entry : Entry} {own : Cells} {parent : Option Cells} {hhdmBase : U64} {answers : Answers}

/-- More may be kept, where no header is. -/
theorem Simulates.union (hsim : Simulates keep reads m h bump)
    (hheader : ∀ x, Within x bump.currentRegion 24 → ¬ extra x) :
    Simulates (fun x => keep x ∨ extra x) reads m h bump where
  represents := hsim.represents
  header x hx := not_or_intro (hsim.header x hx)
    (hheader x (by rwa [← hsim.represents.currentRegion]))
  agrees := hsim.agrees

theorem PropertyKept.union (hprop : PropertyKept keep reads m prop entry) :
    PropertyKept (fun x => keep x ∨ extra x) reads m prop entry :=
  ⟨fun x hx => .inl (hprop.keep x hx), hprop.apart, hprop.name, hprop.data⟩

theorem ParentKept.union (hparent : ParentKept keep m up parent) :
    ParentKept (fun x => keep x ∨ extra x) m up parent :=
  ⟨hparent.atRoot, hparent.below, fun hne x hx => .inl (hparent.keeps hne x hx)⟩

/-- A turn of the first lap, and all that it does to memory. -/
theorem firstTurn_lockstep (hsim : Simulates keep reads m h bump) (hreads : ∀ x, reads x → keep x)
    (hprop : PropertyKept keep reads h.mem prop entry) (htype : typeAt h.mem prop = entry.type.val)
    (hown : cellsAt h.mem node = own) (hnode : ∀ x, Within x node 56 → keep x ∧ ¬ reads x)
    (hapart : Apart node 56 prop 80) (hreadable : EntryReadable reads m entry)
    (hspared : Spared hhdmBase answers keep bump (firstBlocks m entry)) :
    Related (fun a b => FirstDone keep reads m h node prop a b ∧
        ∃ arrays, place hhdmBase answers bump (firstBlocks m entry) = .ok (arrays, a.2.2.2) ∧
          TurnRun hhdmBase answers keep (firstTurn m hhdmBase answers prop entry own bump) arrays
            h.mem b.2.mem)
      (DeviceTree.rewriteFirst m hhdmBase answers own bump entry)
      (rewriteFirst hhdmBase answers node prop h) := by
  have hturn := rewriteFirst_lockstep hsim hreads hprop htype hown hnode hapart hreadable hspared
  refine hturn.imp ?_
  rintro ⟨err, entry', own', bump'⟩ b hideal hmem ⟨hdone, hheld⟩
  obtain ⟨arrays, hplace⟩ := rewriteFirst_placed hideal
  refine ⟨hdone, arrays, hplace, fun extra hextra hheader => ?_, fun _ later hlater => ?_⟩
  · -- the same turn, with more to keep
    have hwide := @rewriteFirst_lockstep (fun x => keep x ∨ extra x) reads m h bump node prop entry
      own hhdmBase answers (hsim.union hheader) (fun x hx => .inl (hreads x hx)) hprop.union htype
      hown (fun x hx => ⟨.inl (hnode x hx).1, (hnode x hx).2⟩) hapart hreadable
      (hspared.union hextra)
    obtain ⟨b', hmem', hdone', -⟩ := hwide.ok hideal
    obtain rfl := Except.ok.inj (hmem.symm.trans hmem')
    refine hdone'.changes.mono fun x hx => ?_
    rcases hx with hnot | hfield | hcells
    · exact .inl fun hx => hnot (.inr hx)
    · exact .inr (hprop.keep x (within_property hfield))
    · exact .inr (hnode x (within_field hcells (by decide) (by decide))).1
  · rintro result hresult
    obtain rfl := Except.ok.inj (hideal.symm.trans hresult)
    intro hkeyword
    rw [rewriteFirst_name hideal] at hkeyword
    exact hheld hkeyword arrays bump' hplace later hlater

/-- And one of the second. -/
theorem secondTurn_lockstep (hsim : Simulates keep reads m h bump) (hreads : ∀ x, reads x → keep x)
    (hup : parentAt h.mem node = up) (hparent : ParentKept keep h.mem up parent)
    (hown : cellsAt h.mem node = own) (hnode : ∀ x, Within x node 56 → keep x)
    (hprop : PropertyKept keep reads h.mem prop entry) (htype : typeAt h.mem prop = entry.type.val)
    (hreadable : RowsReadable reads m entry)
    (hspared : Spared hhdmBase answers keep bump (secondBlocks m parent own entry)) :
    Related (fun a b => TurnDone keep reads m h prop a b ∧
        ∃ arrays, place hhdmBase answers bump (secondBlocks m parent own entry) = .ok (arrays, a.2) ∧
          TurnRun hhdmBase answers keep (secondTurn m hhdmBase answers parent own prop entry bump)
            arrays h.mem b.mem)
      (DeviceTree.rewriteSecond m hhdmBase answers parent own bump entry)
      (rewriteSecond hhdmBase answers node prop h) := by
  have hturn := rewriteSecond_lockstep hsim hreads (hparent.counts hup hown hnode) hprop htype
    hreadable hspared
  refine hturn.imp ?_
  rintro ⟨entry', bump'⟩ b hideal hmem ⟨hdone, hheld⟩
  obtain ⟨arrays, hplace⟩ := rewriteSecond_placed hideal
  refine ⟨hdone, arrays, hplace, fun extra hextra hheader => ?_, fun hpairwise later hlater => ?_⟩
  · have hcounts : Counts (fun x => keep x ∨ extra x) h.mem node own parent :=
      hparent.union.counts hup hown fun x hx => .inl (hnode x hx)
    have hwide := rewriteSecond_lockstep (hsim.union hheader) (fun x hx => .inl (hreads x hx))
      hcounts hprop.union htype hreadable (hspared.union hextra)
    obtain ⟨b', hmem', hdone', -⟩ := hwide.ok hideal
    obtain rfl := Except.ok.inj (hmem.symm.trans hmem')
    refine hdone'.changes.mono fun x hx => ?_
    rcases hx with hnot | hfield
    · exact .inl fun hx => hnot (.inr hx)
    · exact .inr (hprop.keep x (within_property hfield))
  · rintro result hresult
    obtain rfl := Except.ok.inj (hideal.symm.trans hresult)
    intro hkeyword
    rw [rewriteSecond_name hideal] at hkeyword
    refine hheld hkeyword (fun arrays' bump'' hplace' => ?_) arrays bump' hplace later hlater
    obtain ⟨rfl, -⟩ := ok_pair_inj (hplace.symm.trans hplace')
    exact hpairwise

end Turns

section Laps

variable {keep reads : U64 → Prop} {m : Mem} {h : Heap} {bump : Bump.State} {node up : U64}
  {props : List U64} {entries : List Entry} {own : Cells} {parent : Option Cells} {hhdmBase : U64}
  {answers : Answers} {turns : Nat}

/-- What the first lap leaves, unless it ends with an error. -/
structure FirstLapDone (keep reads : U64 → Prop) (m : Mem) (hhdmBase : U64) (answers : Answers)
    (h : Heap) (node : U64) (props : List U64) (lapTurns : List PlacedTurn) (bump : Bump.State)
    (a : Error × List Entry × Cells × Bump.State) (b : Heap) : Prop where
  simulates : Simulates keep reads m b a.2.2.2
  changes : ChangesOnly (fun x => ¬ keep x ∨ Covered ((node + 16, 8) :: propertySpans props) x)
    h.mem b.mem
  properties : PropertiesAt b.mem props a.2.1
  cells : cellsAt b.mem node = a.2.2.1
  traced : Traced hhdmBase answers keep lapTurns bump h.mem a.2.2.2 b.mem

theorem firstLoop_lockstep (hsim : Simulates keep reads m h bump) (hreads : ∀ x, reads x → keep x)
    (hprops : PropertiesAt h.mem props entries) (hown : cellsAt h.mem node = own)
    (hrecords : RecordsKept keep reads ((node, 56) :: propertySpans props))
    (hreadable : ∀ entry ∈ entries, EntryReadable reads m entry)
    (hspared : ∀ turn ∈ firstTurns m hhdmBase answers props entries own bump,
      Spared hhdmBase answers keep turn.bump turn.blocks)
    (hturns : entries.length < turns) :
    Related (fun a b => a.1 = b.1 ∧ (a.1.isErr = false → FirstLapDone keep reads m hhdmBase answers
        h node props (firstTurns m hhdmBase answers props entries own bump) bump a b.2))
      (firstLap m hhdmBase answers entries own bump)
      (firstLoop hhdmBase answers node turns (props.headD 0) h) := by
  obtain ⟨turns, rfl⟩ := Nat.exists_eq_add_one_of_ne_zero (Nat.ne_zero_of_lt hturns)
  induction props generalizing entries own bump h turns with
  | nil =>
    cases entries with
    | cons entry rest => exact hprops.elim
    | nil => exact ⟨rfl, fun _ => ⟨hsim, .refl _ _, trivial, hown, .nil _ _⟩⟩
  | cons prop props ih =>
    cases entries with
    | nil => exact hprops.elim
    | cons entry rest =>
    obtain ⟨hentry, hrest⟩ := hprops
    have hrecords' : RecordsKept keep reads ((node, 56) :: propertySpans props) :=
      hrecords.sublist ((List.sublist_cons_self _ _).cons_cons _)
    have hnode : ∀ x, Within x node 56 → keep x ∧ ¬ reads x := fun x hx =>
      hrecords.kept x (covered_cons.mpr (.inl hx))
    have hprop : ∀ x, Within x prop 80 → keep x ∧ ¬ reads x := fun x hx =>
      hrecords.kept x (covered_cons.mpr (.inr (covered_cons.mpr (.inl hx))))
    have hkept := fun x hx => (hrecords'.kept x hx).1
    have hapart : ∀ x, Within x node 56 → ¬ Covered (propertySpans (prop :: props)) x :=
      fun x hx => hrecords.head hx
    have hbeside : ∀ x, Within x prop 80 → ¬ Covered (propertySpans props) x := fun x hx =>
      (hrecords.sublist (List.sublist_cons_self _ _)).head hx
    have hcells : ∀ x, Within x (node + 16) 8 → Within x node 56 := fun x hx =>
      within_field hx (by decide) (by decide)
    rw [firstLap, List.headD_cons, firstLoop, if_neg hentry.notNull]
    refine ((firstTurn_lockstep hsim hreads
      ⟨fun x hx => (hprop x hx).1, fun x hx => (hprop x hx).2, hentry.name, hentry.data⟩ hentry.type
      hown hnode (fun x hx hin => hapart x hx (covered_cons.mpr (.inl hin)))
      (hreadable _ List.mem_cons_self) (hspared _ List.mem_cons_self)).left_eq).bind ?_
    rintro ⟨err, entry', own', bump'⟩ ⟨err', h₁⟩ ⟨⟨hdone, arrays, hplace, hrun⟩, hideal⟩
    obtain rfl : err = err' := hdone.err
    dsimp only
    split
    · next herr => exact ⟨rfl, fun hok => absurd herr (by rw [hok]; decide)⟩
    next hok =>
    rw [firstTurns_ok hideal hok] at hspared ⊢
    -- a byte that is kept, is no cell count and no rewritten part of this property's record
    have hsame : ∀ x, keep x → ¬ Within x (prop + 24) 56 → ¬ Within x (node + 16) 8 →
        h₁.mem x = h.mem x := fun x hx hfield hcell =>
      hdone.changes.apply (not_or_intro (not_not_intro hx) (not_or_intro hfield hcell))
    have hinside : ∀ x, Within x prop 24 → Within x prop 80 := fun x hx => hx.trans (by decide)
    have hentry₁ : PropertyAt h₁.mem prop (props.headD 0) entry' :=
      hentry.rewritten (fun x hx => hsame x (hprop x (hinside x hx)).1 (apart_name x hx) fun hcell =>
        hapart x (hcells x hcell) (covered_cons.mpr (.inl (hinside x hx)))) (rewriteFirst_name hideal)
        hdone.type hdone.data
    have hrest₁ : PropertiesAt h₁.mem props rest := hrest.congr fun x hx =>
      hsame x (hkept x (covered_cons.mpr (.inr hx))) (fun hfield => hbeside x (within_property hfield) hx)
        fun hcell => hapart x (hcells x hcell) (covered_cons.mpr (.inr hx))
    obtain ⟨turns, rfl⟩ := Nat.exists_eq_add_one_of_ne_zero (n := turns) (by
      rw [List.length_cons] at hturns
      omega)
    have hlap := ih hdone.simulates hrest₁ hdone.cells hrecords'
      (fun e he => hreadable e (List.mem_cons_of_mem _ he))
      (fun turn ht => hspared turn (List.mem_cons_of_mem _ ht)) turns (by
      rw [List.length_cons] at hturns
      omega)
    rw [hentry₁.next]
    refine hlap.bind_left ?_
    rintro ⟨err, rest', own₂, bump₂⟩ b ⟨herr, hlap⟩
    refine ⟨_, rfl, herr, fun hok => ?_⟩
    obtain ⟨hsim₂, hchanges₂, hprops₂, hcells₂, htraced₂⟩ := hlap hok
    refine ⟨hsim₂, ?_, ⟨hentry₁.congr fun x hx => hchanges₂.apply ?_, hprops₂⟩, hcells₂,
      .cons hplace hrun htraced₂⟩
    · refine (hdone.changes.mono fun x hx => ?_).trans (hchanges₂.mono fun x hx => ?_)
      · rcases hx with hnot | hfield | hfield
        · exact .inl hnot
        · exact .inr (covered_cons.mpr (.inr (covered_cons.mpr (.inl (within_property hfield)))))
        · exact .inr (covered_cons.mpr (.inl hfield))
      · refine hx.imp_right fun hcovered => ?_
        rcases covered_cons.mp hcovered with hfield | hlater
        · exact covered_cons.mpr (.inl hfield)
        · exact covered_cons.mpr (.inr (covered_cons.mpr (.inr hlater)))
    · rintro (hnot | hcovered)
      · exact hnot (hprop x hx).1
      · rcases covered_cons.mp hcovered with hfield | hlater
        · exact hapart x (hcells x hfield) (covered_cons.mpr (.inl hx))
        · exact hbeside x hx hlater

/-- What the second leaves. -/
structure SecondLapDone (keep reads : U64 → Prop) (m : Mem) (hhdmBase : U64) (answers : Answers)
    (h : Heap) (props : List U64) (lapTurns : List PlacedTurn) (bump : Bump.State)
    (a : List Entry × Bump.State) (b : Heap) : Prop where
  simulates : Simulates keep reads m b a.2
  changes : ChangesOnly (fun x => ¬ keep x ∨ Covered (propertySpans props) x) h.mem b.mem
  properties : PropertiesAt b.mem props a.1
  traced : Traced hhdmBase answers keep lapTurns bump h.mem a.2 b.mem

theorem secondLoop_lockstep (hsim : Simulates keep reads m h bump) (hreads : ∀ x, reads x → keep x)
    (hprops : PropertiesAt h.mem props entries) (hown : cellsAt h.mem node = own)
    (hup : parentAt h.mem node = up) (hparent : ParentKept keep h.mem up parent)
    (hbeside : parent ≠ none → ∀ x, Within x up 56 → ¬ Covered (propertySpans props) x)
    (hrecords : RecordsKept keep reads ((node, 56) :: propertySpans props))
    (hreadable : ∀ entry ∈ entries, RowsReadable reads m entry)
    (hspared : ∀ turn ∈ secondTurns m hhdmBase answers parent own props entries bump,
      Spared hhdmBase answers keep turn.bump turn.blocks)
    (hturns : entries.length < turns) :
    Related (SecondLapDone keep reads m hhdmBase answers h props
        (secondTurns m hhdmBase answers parent own props entries bump) bump)
      (secondLap m hhdmBase answers parent own entries bump)
      (secondLoop hhdmBase answers node turns (props.headD 0) h) := by
  obtain ⟨turns, rfl⟩ := Nat.exists_eq_add_one_of_ne_zero (Nat.ne_zero_of_lt hturns)
  induction props generalizing entries bump h turns with
  | nil =>
    cases entries with
    | cons entry rest => exact hprops.elim
    | nil => exact ⟨hsim, .refl _ _, trivial, .nil _ _⟩
  | cons prop props ih =>
    cases entries with
    | nil => exact hprops.elim
    | cons entry rest =>
    obtain ⟨hentry, hrest⟩ := hprops
    have hrecords' : RecordsKept keep reads ((node, 56) :: propertySpans props) :=
      hrecords.sublist ((List.sublist_cons_self _ _).cons_cons _)
    have hnode : ∀ x, Within x node 56 → keep x := fun x hx =>
      (hrecords.kept x (covered_cons.mpr (.inl hx))).1
    have hprop : ∀ x, Within x prop 80 → keep x ∧ ¬ reads x := fun x hx =>
      hrecords.kept x (covered_cons.mpr (.inr (covered_cons.mpr (.inl hx))))
    have hkept := fun x hx => (hrecords'.kept x hx).1
    have hapart : ∀ x, Within x node 56 → ¬ Covered (propertySpans (prop :: props)) x :=
      fun x hx => hrecords.head hx
    have hnext : ∀ x, Within x prop 80 → ¬ Covered (propertySpans props) x := fun x hx =>
      (hrecords.sublist (List.sublist_cons_self _ _)).head hx
    rw [secondLap, List.headD_cons, secondLoop, if_neg hentry.notNull]
    refine ((secondTurn_lockstep hsim hreads hup hparent hown hnode
      ⟨fun x hx => (hprop x hx).1, fun x hx => (hprop x hx).2, hentry.name, hentry.data⟩ hentry.type
      (hreadable _ List.mem_cons_self) (hspared _ List.mem_cons_self)).left_eq).bind ?_
    rintro ⟨entry', bump'⟩ h₁ ⟨⟨hdone, arrays, hplace, hrun⟩, hideal⟩
    dsimp only
    rw [secondTurns_ok hideal] at hspared ⊢
    -- a byte that is kept and is no part of this property's record
    have hsame : ∀ x, keep x → ¬ Within x prop 80 → h₁.mem x = h.mem x := fun x hx hnot =>
      hdone.changes.apply (not_or_intro (not_not_intro hx) fun hfield => hnot (within_property hfield))
    have hsameNode : SameNode h.mem h₁.mem node := sameNode_of_bytes fun x hx =>
      hsame x (hnode x hx) fun hin => hapart x hx (covered_cons.mpr (.inl hin))
    have hparent₁ : ParentKept keep h₁.mem up parent := hparent.congr fun hne x hx =>
      hsame x (hparent.keeps hne x hx) fun hin => hbeside hne x hx (covered_cons.mpr (.inl hin))
    have hentry₁ : PropertyAt h₁.mem prop (props.headD 0) entry' :=
      hentry.rewritten (fun x hx => hdone.changes.apply (not_or_intro
        (not_not_intro (hprop x (hx.trans (by decide))).1) (apart_name x hx)))
        (rewriteSecond_name hideal) hdone.type hdone.data
    have hrest₁ : PropertiesAt h₁.mem props rest := hrest.congr fun x hx =>
      hsame x (hkept x (covered_cons.mpr (.inr hx))) fun hin => hnext x hin hx
    obtain ⟨turns, rfl⟩ := Nat.exists_eq_add_one_of_ne_zero (n := turns) (by
      rw [List.length_cons] at hturns
      omega)
    have hlap := ih hdone.simulates hrest₁ (hsameNode.cells.trans hown)
      (hsameNode.parent.trans hup) hparent₁
      (fun hne x hx hin => hbeside hne x hx (covered_cons.mpr (.inr hin))) hrecords'
      (fun e he => hreadable e (List.mem_cons_of_mem _ he))
      (fun turn ht => hspared turn (List.mem_cons_of_mem _ ht)) turns (by
      rw [List.length_cons] at hturns
      omega)
    rw [hentry₁.next]
    refine hlap.bind_left ?_
    rintro ⟨rest', bump₂⟩ b ⟨hsim₂, hchanges₂, hprops₂, htraced₂⟩
    refine ⟨_, rfl, hsim₂, ?_, ⟨hentry₁.congr fun x hx => hchanges₂.apply ?_, hprops₂⟩,
      .cons hplace hrun htraced₂⟩
    · refine (hdone.changes.mono fun x hx => ?_).trans (hchanges₂.mono fun x hx => ?_)
      · exact hx.imp_right fun hfield => covered_cons.mpr (.inl (within_property hfield))
      · exact hx.imp_right fun hlater => covered_cons.mpr (.inr hlater)
    · exact not_or_intro (not_not_intro (hprop x hx).1) (hnext x hx)

/-- After a first lap without error the second may read what it looks at. -/
theorem firstLap_readable {entries' : List Entry} {own' : Cells} {bump' : Bump.State} {err : Error}
    (h : firstLap m hhdmBase answers entries own bump = .ok (err, entries', own', bump'))
    (hok : err.isErr = false) (hreadable : ∀ entry ∈ entries, EntryReadable reads m entry) :
    ∀ entry ∈ entries', RowsReadable reads m entry := by
  induction entries generalizing entries' own own' bump bump' with
  | nil =>
    cases h
    exact fun _ hmem => absurd hmem List.not_mem_nil
  | cons entry rest ih =>
    obtain ⟨⟨turnErr, entry', turnCells, turnBump⟩, hturn, h⟩ := bind_eq_ok.mp h
    dsimp only at h
    split at h
    · next herr =>
      obtain ⟨rfl, -⟩ := Prod.mk.inj (pure_eq_ok.mp h)
      exact absurd (hok.symm.trans herr) (by decide)
    obtain ⟨⟨lapErr, rest', lapCells, lapBump⟩, hlap, h⟩ := bind_eq_ok.mp h
    obtain ⟨rfl, hresult⟩ := Prod.mk.inj (pure_eq_ok.mp h)
    obtain ⟨rfl, -⟩ := Prod.mk.inj hresult
    intro e he
    rcases List.mem_cons.mp he with rfl | he
    · exact (hreadable _ List.mem_cons_self).rows hturn
    · exact ih hlap (fun e he => hreadable e (List.mem_cons_of_mem _ he)) e he

end Laps

end Octiron.DeviceTree.InMemory
