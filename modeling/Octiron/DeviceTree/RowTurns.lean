import Octiron.DeviceTree.Blocks

/-! `reg` and `ranges` in memory.  A turn whose stores stay clear does what the turn does
that keeps its arrays apart, and where the arrays do not overlap they hold the rows. -/
namespace Octiron.DeviceTree.InMemory

open Lib.Word Lib.ByteMemory Lib.Lockstep Lib.Tables Exec Pmm
open Bump.InMemory (Represents Touches)

/-- What a turn leaves that was to keep these bytes: the property's record is rewritten. -/
structure TurnDone (keep reads : U64 → Prop) (m : Mem) (h : Heap) (prop : U64)
    (a : Entry × Bump.State) (b : Heap) : Prop where
  simulates : Simulates keep reads m b a.2
  changes : ChangesOnly (fun x => ¬ keep x ∨ Within x (prop + 24) 56) h.mem b.mem
  data : dataAt b.mem prop = a.1.data
  type : typeAt b.mem prop = a.1.type.val

/-- The record of a property is kept, but for what a turn writes there, and is no part of
the blob nor of a header. -/
structure PropertyKept (keep reads : U64 → Prop) (m : Mem) (prop : U64) (entry : Entry) : Prop where
  keep : ∀ x, Within x prop 80 → keep x
  apart : ∀ x, Within x prop 80 → ¬ reads x
  name : viewAt m prop = entry.name
  data : dataAt m prop = entry.data

section Turns

variable {keep reads : U64 → Prop} {m : Mem} {h : Heap} {bump : Bump.State} {node prop : U64}
  {entry : Entry} {own : Cells} {parent : Option Cells} {hhdmBase : U64} {answers : Answers}
  {type : PropertyType} {data : Data}

theorem PropertyKept.agree {mem : Mem} (hprop : PropertyKept keep reads m prop entry)
    (hagree : AgreeOn keep m mem) : PropertyKept keep reads mem prop entry := by
  have hsame := sameProperty_of_bytes fun x hx => hagree x (hprop.keep x hx)
  exact ⟨hprop.keep, hprop.apart, hsame.name.trans hprop.name, hsame.data.trans hprop.data⟩

/-- What a turn writes of the record. -/
theorem within_property {x : U64} (hx : Within x (prop + 24) 56) : Within x prop 80 :=
  within_field hx (by decide) (by decide)

/-- The end of a turn: type and union are stored. -/
theorem turnDone_setProperty {mem : Mem} {h' : Heap} {bump' : Bump.State} {entry' : Entry}
    (hsim : Simulates keep reads m { h' with mem := mem } bump') (hagree : AgreeOn keep h.mem mem)
    (hprop : PropertyKept keep reads h.mem prop entry) (htype : entry'.type = type)
    (hdata : entry'.data = data) :
    TurnDone keep reads m h prop (entry', bump')
      { h' with mem := setProperty mem prop type data } := by
  subst htype hdata
  refine ⟨hsim.store changesOnly_setProperty fun x hx => ⟨hprop.apart x (within_property hx), ?_⟩,
    ?_, dataAt_setProperty .., typeAt_setProperty ..⟩
  · exact fun hheader => hsim.header x hheader (hprop.keep x (within_property hx))
  · exact (hagree.changesOnly.mono fun _ => .inl).trans (changesOnly_setProperty.mono fun _ => .inr)

/-- Arrays beside the record are as they were. -/
theorem rowsHeld_setProperty {mem : Mem} {columns : List Column} {rows : List (List Nat)} {n : Nat}
    (hheld : RowsHeld mem columns rows) (hroom : ∀ c ∈ columns, c.width * n ≤ 2 ^ 64)
    (hrows : rows.length ≤ n)
    (hmiss : ∀ c ∈ columns, ∀ x, c.Covers n x → ¬ Within x prop 80) :
    RowsHeld (setProperty mem prop type data) columns rows := by
  have hagree : AgreeOn (fun x => ¬ Within x (prop + 24) 56) mem (setProperty mem prop type data) :=
    changesOnly_setProperty.agreeOn fun x hx hnot => hnot hx
  exact hheld.congr hagree hroom hrows fun c hc x hx hin => hmiss c hc x hx (within_property hin)

/-- The rows of a value are read from it, the last one perhaps from some bytes behind. -/
theorem within_value {raw : ByteView} {w n i k : Nat} {x : U64} (hfit : w * n ≤ raw.size.toNat)
    (hi : i < n) (hx : Within x (raw.data + BitVec.ofNat 64 (w * i)) (w + k)) :
    Within x raw.data (raw.size.toNat + k) := by
  refine within_of_offset_le ?_ hx
  have hrow : w * (i + 1) ≤ w * n := Nat.mul_le_mul_left w hi
  rw [Nat.mul_succ] at hrow
  omega

theorem propertyRewriteReg_eq (hparent : parentCells h.mem node = derefParent parent) :
    propertyRewriteReg hhdmBase answers node prop h = do
      let (p, n) ← regCheck parent (dataAt h.mem prop).raw
      let (addressArray, h₁) ← Bump.InMemory.allocAligned hhdmBase answers h
        (arrayRequest p.address n).1 (arrayRequest p.address n).2
      let (sizeArray, h₂) ← Bump.InMemory.allocAligned hhdmBase answers h₁
        (arrayRequest p.size n).1 (arrayRequest p.size n).2
      kassert (if cellBytes p.address = 0 then addressArray == 0 else addressArray != 0)
      kassert (if cellBytes p.size = 0 then sizeArray == 0 else sizeArray != 0)
      let mem ← storeRows (storeRegRow node (dataAt h.mem prop).raw.data
        ((cellBytes p.address).setWidth 64) addressArray sizeArray) (regWidth p) n.toNat 0 0 h₂.mem
      let data := { dataAt mem prop with word0 := n, word1 := addressArray, word2 := sizeArray }
      return { h₂ with mem := setProperty mem prop .reg data } := by
  unfold propertyRewriteReg regCheck
  rw [hparent]
  simp only [bind_assoc, pure_bind]
  rfl

/-- The arrays of a decoded `reg` hold its pairs. -/
def RegHeld (p : Cells) (entry : Entry) (m : Mem) : Prop :=
  RowsHeld m (regColumns p entry.data) (entry.pairs.map regValues) ∧
    entry.pairs.length = entry.data.word0.toNat

theorem propertyRewriteReg_lockstep (hsim : Simulates keep reads m h bump)
    (hreads : ∀ x, reads x → keep x) (hcounts : Counts keep h.mem node own parent)
    (hprop : PropertyKept keep reads h.mem prop entry)
    (hvalue : ∀ p, parent = some p → ∀ x, Within x entry.data.raw.data
      (entry.data.raw.size.toNat + overreach p.address p.size) → reads x)
    (hspared : Spared hhdmBase answers keep bump (regBlocks parent entry.data.raw)) :
    Related (fun a b => TurnDone keep reads m h prop a b ∧ ∀ p, parent = some p →
        BlocksApart hhdmBase answers bump (regBlocks parent entry.data.raw) → RegHeld p a.1 b.mem ∧
          WhileKept hhdmBase answers bump (regBlocks parent entry.data.raw) b.mem (RegHeld p a.1))
      (DeviceTree.propertyRewriteReg m hhdmBase answers parent bump entry)
      (propertyRewriteReg hhdmBase answers node prop h) := by
  rw [DeviceTree.propertyRewriteReg_eq, propertyRewriteReg_eq hcounts.parentCells, hprop.data]
  cases hcheck : regCheck parent entry.data.raw with
  | error stop => rfl
  | ok result =>
  obtain ⟨p, n⟩ := result
  obtain ⟨rfl, haddress, hsize, hn, hlength⟩ := regCheck_eq_ok hcheck
  have hblocks := regBlocks_of_check hcheck
  rw [hblocks] at hspared ⊢
  simp only [ok_bind]
  refine (hsim.alloc hreads fun array bump' halloc =>
    (hspared.requests array bump' halloc).1).bind ?_
  rintro ⟨addressArray, bump₁⟩ ⟨addressArray', h₁⟩ ⟨⟨rfl, hsim₁, hagree₁⟩, halloc₁⟩
  refine (hsim₁.alloc hreads fun array bump' halloc =>
    ((hspared.requests addressArray bump₁ halloc₁).2 array bump' halloc).1).bind ?_
  rintro ⟨sizeArray, bump₂⟩ ⟨sizeArray', h₂⟩ ⟨⟨rfl, hsim₂, hagree₂⟩, halloc₂⟩
  dsimp only at *
  refine (related_self _).bind fun _ _ _ => (related_self _).bind fun _ _ _ => ?_
  have hplace : place hhdmBase answers bump [arrayBlock p.address n (regElementBytes p.address),
      arrayBlock p.size n (4 * p.size.toNat)] = .ok ([(addressArray,
        regElementBytes p.address * n.toNat), (sizeArray, 4 * p.size.toNat * n.toNat)], bump₂) := by
    simp only [place, halloc₁, halloc₂, ok_bind]
    rfl
  have hmiss := hspared.elements _ _ hplace
  have hagree := hagree₁.trans hagree₂
  have hkept : keep node := hcounts.keepNode node (by simp [Within])
  let union := { entry.data with word0 := n, word1 := addressArray, word2 := sizeArray }
  have hmem : ∀ c ∈ regColumns p union, (c.base, c.width * n.toNat) ∈
      [(addressArray, regElementBytes p.address * n.toNat),
        (sizeArray, 4 * p.size.toNat * n.toNat)] := by
    intro c hc
    rcases List.mem_pair.mp hc with rfl | rfl
    · exact List.mem_cons_self
    · exact List.mem_cons_of_mem _ List.mem_cons_self
  have hcolumns : ∀ c ∈ regColumns p union, c.width * n.toNat ≤ 2 ^ 64 ∧ ∀ x,
      c.Covers n.toNat x → ¬ keep x ∧ ¬ Within x bump₂.currentRegion 24 := fun c hc =>
    ⟨length_of_not_within fun hin => (hmiss _ (hmem c hc) node hin).1 hkept, hmiss _ (hmem c hc)⟩
  rw [regWidth, regWidth_eq haddress hsize]
  have hloop := @storeRows_lockstep keep h₂.mem _ (regRow m entry.data.raw.data p addressArray
    sizeArray) (storeRegRow node entry.data.raw.data ((cellBytes p.address).setWidth 64)
    addressArray sizeArray) regValues (regColumns p union)
    (4 * p.address.toNat + 4 * p.size.toNat) n.toNat (fun c hc => (hcolumns c hc).1)
    (fun c hc x hx => ((hcolumns c hc).2 x hx).1)
    (fun i hi mem hmem => by
      refine @regRow_lockstep _ _ _ _ _ _ _ _ union _ _ _ (hcounts.agree hagree) hmem
        (fun mem hmem => ?_) haddress hi (fun c hc => (hcolumns c hc).1)
        fun c hc x hx => ((hcolumns c hc).2 x hx).1
      refine (hsim₂.agrees.trans (hmem.mono hreads)).sameBytes (fun x hx => hvalue p rfl x ?_) ?_
      · exact within_value hlength.le hi hx
      · unfold overreach
        split <;> omega)
    n.toNat 0 h₂.mem (by omega) (.refl keep h₂.mem)
  rw [Nat.mul_zero] at hloop
  refine hloop.bind ?_
  rintro rows _ ⟨hrows, rfl⟩
  have hlength' : 0 + (rows.map regValues).length ≤ n.toNat := by
    rw [List.length_map, hrows, Nat.zero_add]
  have hchanges := @changesOnly_putRows h₂.mem (regColumns p union) (rows.map regValues) n.toNat 0
    (fun c hc => (hcolumns c hc).1) hlength'
  have hmissed : ∀ x, (∃ c ∈ regColumns p union, c.Covers n.toNat x) →
      ¬ keep x ∧ ¬ Within x bump₂.currentRegion 24 := by
    rintro x ⟨c, hc, hx⟩
    exact (hcolumns c hc).2 x hx
  have hagree' := hagree.trans (hchanges.agreeOn fun x hx => (hmissed x hx).1)
  have hsim₃ := hsim₂.store hchanges fun x hx =>
    ⟨fun hread => (hmissed x hx).1 (hreads x hread), by
      rw [hsim₂.represents.currentRegion]
      exact (hmissed x hx).2⟩
  rw [(hprop.agree hagree').data]
  refine ⟨turnDone_setProperty hsim₃ hagree' hprop rfl rfl, fun q hq hapart => ?_⟩
  obtain rfl := Option.some.inj hq
  have hseparate : Separate n.toNat (regColumns p union) := by
    have hpair := hapart _ _ hplace
    exact List.pairwise_pair.mpr (List.pairwise_pair.mp hpair)
  have hheld := @rowsHeld_putRows h₂.mem (regColumns p union) (rows.map regValues) n.toNat hseparate
    (fun c hc => (hcolumns c hc).1) (by omega)
  have hheld' : RowsHeld (setProperty _ prop .reg union) _ _ := rowsHeld_setProperty hheld
    (fun c hc => (hcolumns c hc).1) ((List.length_map _).trans hrows).le
    fun c hc x hx hin => ((hcolumns c hc).2 x hx).1 (hprop.keep x hin)
  refine ⟨⟨hheld', hrows⟩, fun arrays bump' hplaced mem' hkeep => ⟨hheld'.congr hkeep
    (fun c hc => (hcolumns c hc).1) ((List.length_map _).trans hrows).le fun c hc x hx => ?_, hrows⟩⟩
  obtain ⟨rfl, -⟩ := ok_pair_inj (hplace.symm.trans hplaced)
  exact ⟨_, hmem c hc, hx⟩

theorem propertyRewriteRanges_eq (hown : cellsAt h.mem node = own)
    (hparent : parentCells h.mem node = derefParent parent) (hne : (dataAt h.mem prop).raw.size ≠ 0) :
    propertyRewriteRanges hhdmBase answers node prop h = do
      let (p, n) ← rangesCheck parent own (dataAt h.mem prop).raw
      let (cbusAddressArray, h₁) ← Bump.InMemory.allocAligned hhdmBase answers h
        (arrayRequest own.address n).1 (arrayRequest own.address n).2
      let (pbusAddressArray, h₂) ← Bump.InMemory.allocAligned hhdmBase answers h₁
        (arrayRequest own.address n).1 (arrayRequest own.address n).2
      let (sizeArray, h₃) ← Bump.InMemory.allocAligned hhdmBase answers h₂
        (arrayRequest own.size n).1 (arrayRequest own.size n).2
      let mem ← storeRows (storeRangeRow node (dataAt h.mem prop).raw.data
        ((cellBytes own.address).setWidth 64) ((cellBytes p.address).setWidth 64) cbusAddressArray
        pbusAddressArray sizeArray) (rangesWidth own p.address) n.toNat 0 0 h₃.mem
      let data := { dataAt mem prop with
        word0 := n
        word1 := cbusAddressArray
        word2 := pbusAddressArray
        word3 := sizeArray }
      return { h₃ with mem := setProperty mem prop .ranges data } := by
  unfold propertyRewriteRanges rangesCheck
  dsimp only
  rw [if_neg hne, hown, hparent]
  simp only [bind_assoc, pure_bind]
  rfl

/-- The rows that are counted fit into the value, whatever their width. -/
theorem rangesCheck_width {raw : ByteView} {p : Cells} {n : U64}
    (h : rangesCheck parent own raw = .ok (p, n)) :
    (rangesWidth own p.address).toNat * n.toNat ≤ raw.size.toNat := by
  obtain ⟨q, -, h⟩ := bind_eq_ok.mp h
  obtain ⟨nTrips, hdivide, h⟩ := bind_eq_ok.mp h
  iterate 4 obtain ⟨_, -, h⟩ := bind_eq_ok.mp h
  obtain ⟨rfl, rfl⟩ := Prod.mk.inj (pure_eq_ok.mp h)
  obtain ⟨-, rfl⟩ := divide_eq_ok.mp hdivide
  rw [BitVec.toNat_udiv]
  exact Nat.mul_div_le _ _

/-- The arrays of a decoded `ranges` hold its triples. -/
def RangesHeld (p own : Cells) (entry : Entry) (m : Mem) : Prop :=
  RowsHeld m (rangeColumns p own entry.data) (entry.triples.map rangeValues) ∧
    entry.triples.length = entry.data.word0.toNat

theorem propertyRewriteRanges_lockstep (hsim : Simulates keep reads m h bump)
    (hreads : ∀ x, reads x → keep x) (hcounts : Counts keep h.mem node own parent)
    (hprop : PropertyKept keep reads h.mem prop entry)
    (hvalue : ∀ p, parent = some p → ∀ x, Within x entry.data.raw.data
      (entry.data.raw.size.toNat + overreach p.address own.size) → reads x)
    (hspared : Spared hhdmBase answers keep bump (rangesBlocks parent own entry.data.raw)) :
    Related (fun a b => TurnDone keep reads m h prop a b ∧ ∀ p, parent = some p →
        1 ≤ p.address.toNat ∧ p.address.toNat ≤ 3 → entry.data.raw.size ≠ 0 →
        BlocksApart hhdmBase answers bump (rangesBlocks parent own entry.data.raw) →
          RangesHeld p own a.1 b.mem ∧ WhileKept hhdmBase answers bump
            (rangesBlocks parent own entry.data.raw) b.mem (RangesHeld p own a.1))
      (DeviceTree.propertyRewriteRanges m hhdmBase answers parent own bump entry)
      (propertyRewriteRanges hhdmBase answers node prop h) := by
  by_cases hempty : entry.data.raw.size = 0
  · unfold DeviceTree.propertyRewriteRanges propertyRewriteRanges
    rw [hprop.data]
    dsimp only
    rw [if_pos hempty, if_pos hempty]
    exact ⟨turnDone_setProperty hsim (.refl keep h.mem) hprop rfl rfl,
      fun _ _ _ hne => absurd hempty hne⟩
  have hne : (dataAt h.mem prop).raw.size ≠ 0 := by rwa [hprop.data]
  rw [DeviceTree.propertyRewriteRanges_eq hempty,
    propertyRewriteRanges_eq hcounts.own hcounts.parentCells hne, hprop.data]
  cases hcheck : rangesCheck parent own entry.data.raw with
  | error stop => rfl
  | ok result =>
  obtain ⟨p, n⟩ := result
  obtain ⟨rfl, haddress, hsize, hn, hlength⟩ := rangesCheck_eq_ok hcheck
  have hfit := rangesCheck_width hcheck
  have hblocks := rangesBlocks_of_check hempty hcheck
  rw [hblocks] at hspared ⊢
  simp only [ok_bind]
  refine (hsim.alloc hreads fun array bump' halloc =>
    (hspared.requests array bump' halloc).1).bind ?_
  rintro ⟨cbus, bump₁⟩ ⟨_, h₁⟩ ⟨⟨rfl, hsim₁, hagree₁⟩, halloc₁⟩
  have hrequests₁ := (hspared.requests cbus bump₁ halloc₁).2
  refine (hsim₁.alloc hreads fun array bump' halloc => (hrequests₁ array bump' halloc).1).bind ?_
  rintro ⟨pbus, bump₂⟩ ⟨_, h₂⟩ ⟨⟨rfl, hsim₂, hagree₂⟩, halloc₂⟩
  have hrequests₂ := (hrequests₁ pbus bump₂ halloc₂).2
  refine (hsim₂.alloc hreads fun array bump' halloc => (hrequests₂ array bump' halloc).1).bind ?_
  rintro ⟨size, bump₃⟩ ⟨_, h₃⟩ ⟨⟨rfl, hsim₃, hagree₃⟩, halloc₃⟩
  dsimp only at *
  have hplace : place hhdmBase answers bump
      [arrayBlock own.address n (rangeElementBytes own.address),
        arrayBlock own.address n (rangeElementBytes p.address),
        arrayBlock own.size n (4 * own.size.toNat)] =
      .ok ([(cbus, rangeElementBytes own.address * n.toNat),
        (pbus, rangeElementBytes p.address * n.toNat), (size, 4 * own.size.toNat * n.toNat)],
        bump₃) := by
    simp only [place, halloc₁, halloc₂, halloc₃, ok_bind]
    rfl
  have hmiss := hspared.elements _ _ hplace
  have hagree := (hagree₁.trans hagree₂).trans hagree₃
  have hkept : keep node := hcounts.keepNode node (by simp [Within])
  let union := { entry.data with word0 := n, word1 := cbus, word2 := pbus, word3 := size }
  have hmem : ∀ c ∈ rangeColumns p own union, (c.base, c.width * n.toNat) ∈
      [(cbus, rangeElementBytes own.address * n.toNat),
        (pbus, rangeElementBytes p.address * n.toNat), (size, 4 * own.size.toNat * n.toNat)] := by
    intro c hc
    simp only [rangeColumns, List.mem_cons, List.not_mem_nil, or_false] at hc ⊢
    rcases hc with rfl | rfl | rfl
    · exact .inl rfl
    · exact .inr (.inl rfl)
    · exact .inr (.inr rfl)
  have hcolumns : ∀ c ∈ rangeColumns p own union, c.width * n.toNat ≤ 2 ^ 64 ∧ ∀ x,
      c.Covers n.toNat x → ¬ keep x ∧ ¬ Within x bump₃.currentRegion 24 := fun c hc =>
    ⟨length_of_not_within fun hin => (hmiss _ (hmem c hc) node hin).1 hkept, hmiss _ (hmem c hc)⟩
  -- an address count of the parent that is not one to three ends the first row
  let columns := if 1 ≤ p.address.toNat ∧ p.address.toNat ≤ 3 then rangeColumns p own union else []
  have hsub : ∀ c ∈ columns, c ∈ rangeColumns p own union := by
    intro c hc
    by_cases hp : 1 ≤ p.address.toNat ∧ p.address.toNat ≤ 3
    · rwa [show columns = rangeColumns p own union from if_pos hp] at hc
    · rw [show columns = [] from if_neg hp] at hc
      exact absurd hc List.not_mem_nil
  have hwidth : rangesWidth own p.address =
      BitVec.ofNat 64 (rangesWidth own p.address).toNat := by
    rw [BitVec.ofNat_toNat, BitVec.setWidth_eq]
  have hloop := @storeRows_lockstep keep h₃.mem _ (rangeRow m entry.data.raw.data own p.address cbus
    pbus size) (storeRangeRow node entry.data.raw.data ((cellBytes own.address).setWidth 64)
    ((cellBytes p.address).setWidth 64) cbus pbus size) rangeValues columns
    (rangesWidth own p.address).toNat n.toNat (fun c hc => (hcolumns c (hsub c hc)).1)
    (fun c hc x hx => ((hcolumns c (hsub c hc)).2 x hx).1)
    (fun i hi mem hmem => by
      refine @rangeRow_lockstep _ _ _ _ _ _ _ _ union _ _ _ (hcounts.agree hagree) hmem haddress hi
        columns (fun hp => ⟨if_pos hp, fun mem hmem => ?_⟩) (fun c hc => (hcolumns c hc).1)
        fun c hc x hx => ((hcolumns c hc).2 x hx).1
      have hrow : (rangesWidth own p.address).toNat =
          4 * own.address.toNat + (4 * p.address.toNat + 4 * own.size.toNat) := by
        rw [rangesWidth, rangesWidth_eq haddress hp.2 hsize]
        exact toNat_ofNat_of_lt (by omega)
      rw [← hrow]
      refine (hsim₃.agrees.trans (hmem.mono hreads)).sameBytes (fun x hx => hvalue p rfl x ?_) ?_
      · exact within_value hfit hi hx
      · unfold overreach
        split <;> omega)
    n.toNat 0 h₃.mem (by omega) (.refl keep h₃.mem)
  rw [Nat.mul_zero, ← hwidth] at hloop
  refine hloop.bind ?_
  rintro rows _ ⟨hrows, rfl⟩
  have hlength' : 0 + (rows.map rangeValues).length ≤ n.toNat := by
    rw [List.length_map, hrows, Nat.zero_add]
  have hchanges := @changesOnly_putRows h₃.mem columns (rows.map rangeValues) n.toNat 0
    (fun c hc => (hcolumns c (hsub c hc)).1) hlength'
  have hmissed : ∀ x, (∃ c ∈ columns, c.Covers n.toNat x) →
      ¬ keep x ∧ ¬ Within x bump₃.currentRegion 24 := by
    rintro x ⟨c, hc, hx⟩
    exact (hcolumns c (hsub c hc)).2 x hx
  have hagree' := hagree.trans (hchanges.agreeOn fun x hx => (hmissed x hx).1)
  have hsim₄ := hsim₃.store hchanges fun x hx =>
    ⟨fun hread => (hmissed x hx).1 (hreads x hread), by
      rw [hsim₃.represents.currentRegion]
      exact (hmissed x hx).2⟩
  rw [(hprop.agree hagree').data]
  refine ⟨turnDone_setProperty hsim₄ hagree' hprop rfl rfl, fun q hq hp _ hapart => ?_⟩
  obtain rfl := Option.some.inj hq
  have hall : columns = rangeColumns p own union := if_pos hp
  have hseparate : Separate n.toNat (rangeColumns p own union) := by
    simpa [Lib.Tables.Separate, rangeColumns] using hapart _ _ hplace
  rw [hall]
  have hheld := @rowsHeld_putRows h₃.mem (rangeColumns p own union) (rows.map rangeValues) n.toNat
    hseparate (fun c hc => (hcolumns c hc).1) (by omega)
  have hheld' : RowsHeld (setProperty _ prop .ranges union) _ _ := rowsHeld_setProperty hheld
    (fun c hc => (hcolumns c hc).1) ((List.length_map _).trans hrows).le
    fun c hc x hx hin => ((hcolumns c hc).2 x hx).1 (hprop.keep x hin)
  refine ⟨⟨hheld', hrows⟩, fun arrays bump' hplaced mem' hkeep => ⟨hheld'.congr hkeep
    (fun c hc => (hcolumns c hc).1) ((List.length_map _).trans hrows).le fun c hc x hx => ?_, hrows⟩⟩
  obtain ⟨rfl, -⟩ := ok_pair_inj (hplace.symm.trans hplaced)
  exact ⟨_, hmem c hc, hx⟩

end Turns

end Octiron.DeviceTree.InMemory
