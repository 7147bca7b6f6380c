import Octiron.DeviceTree.RangeArrays
import Octiron.DeviceTree.RegInMemory

/-! What the arrays of `ranges` hold in memory once the property is rewritten. -/
namespace Octiron.DeviceTree.InMemory

open Lib.Word Lib.ByteMemory Lib.Elements Lib.Lockstep Lib.Tables Exec Pmm
open Bump.InMemory (Represents allocAligned_of_ok represents_state)

section

variable (hhdmBase : U64) (answers : Answers) (h : Heap) (node prop : U64) (own p : Cells)

/-- The stores of the call stay clear of the value, with the four bytes that may be read
behind it, and of the records; the arrays stay clear of each other. -/
structure RangesClear : Prop where
  spared : Spared hhdmBase answers (Covered (around h node prop (overreach p.address own.size)))
    h.state (rangesBlocks (some p) own (dataAt h.mem prop).raw)
  apart : BlocksApart hhdmBase answers h.state (rangesBlocks (some p) own (dataAt h.mem prop).raw)
  record : Apart prop 80 (dataAt h.mem prop).raw.data
    ((dataAt h.mem prop).raw.size.toNat + overreach p.address own.size)

/-- The call completes, and the property names the three arrays and their length. -/
structure RangesCompleted (n : Nat) (cbus pbus size : U64) (h₁ h₂ h₃ h' : Heap) : Prop where
  completed : propertyRewriteRanges hhdmBase answers node prop h = .ok h'
  cbusBlock : Bump.InMemory.allocAligned hhdmBase answers h
    (arrayRequest own.address (BitVec.ofNat 64 n)).1
    (arrayRequest own.address (BitVec.ofNat 64 n)).2 = .ok (cbus, h₁)
  pbusBlock : Bump.InMemory.allocAligned hhdmBase answers h₁
    (arrayRequest own.address (BitVec.ofNat 64 n)).1
    (arrayRequest own.address (BitVec.ofNat 64 n)).2 = .ok (pbus, h₂)
  sizeBlock : Bump.InMemory.allocAligned hhdmBase answers h₂
    (arrayRequest own.size (BitVec.ofNat 64 n)).1
    (arrayRequest own.size (BitVec.ofNat 64 n)).2 = .ok (size, h₃)
  type : typeAt h'.mem prop = PropertyType.ranges.val
  nTrips : (dataAt h'.mem prop).word0.toNat = n
  arrays : (dataAt h'.mem prop).word1 = cbus ∧ (dataAt h'.mem prop).word2 = pbus ∧
    (dataAt h'.mem prop).word3 = size

/-- The arrays hold the triples, one by one, in blocks that are large enough for them. -/
structure RangesExact (triples : List Triple) (cbus pbus size : U64) (h₁ h₂ h₃ h' : Heap) : Prop
    extends RangesCompleted hhdmBase answers h node prop own triples.length cbus pbus size h₁ h₂ h₃ h'
    where
  present : cbus ≠ 0 ∧ pbus ≠ 0 ∧ (own.size ≠ 0 → size ≠ 0)
  addresses : ∀ i (hi : i < triples.length),
    (⟨cbus, rangeElementBytes own.address⟩ : Column).get h'.mem i = triples[i].1 ∧
      (⟨pbus, rangeElementBytes p.address⟩ : Column).get h'.mem i = triples[i].2.1
  sizes : own.size ≠ 0 → ∀ i (hi : i < triples.length),
    (⟨size, 4 * own.size.toNat⟩ : Column).get h'.mem i = triples[i].2.2
  cbusInside : ElementsInside cbus (rangeElementBytes own.address) triples.length
    (arrayRequest own.address (BitVec.ofNat 64 triples.length)).1.toNat
  pbusInside : ElementsInside pbus (rangeElementBytes p.address) triples.length
    (arrayRequest own.address (BitVec.ofNat 64 triples.length)).1.toNat
  sizeInside : ElementsInside size (4 * own.size.toNat) triples.length
    (arrayRequest own.size (BitVec.ofNat 64 triples.length)).1.toNat

end

section

variable {hhdmBase : U64} {answers : Answers} {h h' : Heap} {node prop : U64} {own p : Cells}
  {triples : List Triple}

/-- The widths hold what is read. -/
theorem rangeValue_lt {m : Mem} {ptr : U64} {cells : U32} (h : cells.toNat ≤ 3) (hne : cells ≠ 0) :
    (rangeValue m ptr cells).toNat < 256 ^ rangeElementBytes cells := by
  obtain rfl | rfl | rfl | rfl := cells_cases h
  · exact absurd rfl hne
  · rw [rangeValue_one, BitVec.toNat_setWidth]
    exact (Nat.mod_le _ _).trans_lt (readBigEndian32 m ptr).isLt
  · exact (rangeValue m ptr 2).isLt
  · exact (rangeValue m ptr 3).isLt

theorem sizeValue_lt {m : Mem} {ptr : U64} {cells : U32} (h : cells.toNat ≤ 2) :
    (sizeValue m ptr cells).elim 0 BitVec.toNat < 256 ^ (4 * cells.toNat) := by
  obtain rfl | rfl | rfl | rfl := cells_cases (h.trans (by decide))
  · exact Nat.one_pos
  · rw [sizeValue_one, Option.elim_some, BitVec.toNat_setWidth]
    exact (Nat.mod_le _ _).trans_lt (readBigEndian32 m ptr).isLt
  · rw [sizeValue_two]
    exact (readBigEndian64 m ptr).isLt
  · exact absurd h (by decide)

/-- What a call leaves whose stores stay clear: the rows as they are read from the value. -/
structure RangesRead (hhdmBase : U64) (answers : Answers) (h : Heap) (node prop : U64) (own p : Cells)
    (n : Nat) (cbus pbus size : U64) (h₁ h₂ h₃ h' : Heap) : Prop
    extends RangesCompleted hhdmBase answers h node prop own n cbus pbus size h₁ h₂ h₃ h' where
  present : cbus ≠ 0 ∧ pbus ≠ 0 ∧ (own.size ≠ 0 → size ≠ 0)
  addresses : ∀ i < n,
    (⟨cbus, rangeElementBytes own.address⟩ : Column).get h'.mem i =
        (rangesRow h.mem p own (dataAt h.mem prop).raw.data i).1.toNat ∧
      (⟨pbus, rangeElementBytes p.address⟩ : Column).get h'.mem i =
        (rangesRow h.mem p own (dataAt h.mem prop).raw.data i).2.1.toNat
  sizes : ∀ i < n, (⟨size, 4 * own.size.toNat⟩ : Column).get h'.mem i =
    (rangesRow h.mem p own (dataAt h.mem prop).raw.data i).2.2.elim 0 BitVec.toNat

theorem ranges_read {entry : Entry} (hname : viewAt h.mem prop = entry.name)
    (hdata : dataAt h.mem prop = entry.data) (hown : own.Bounded) (hp : p.Bounded)
    (haddress : own.address ≠ 0) (hparent : p.address ≠ 0)
    (hcounts : Counts (Covered (around h node prop (overreach p.address own.size))) h.mem node own
      (some p)) (hne : entry.data.raw.size ≠ 0)
    (hcheck : rangesCheck (some p) own entry.data.raw = .ok (p, BitVec.ofNat 64 triples.length))
    (hcount : (BitVec.ofNat 64 triples.length).toNat = triples.length)
    (hserved : Serves hhdmBase answers h.state (rangesRequests (some p) own entry.data.raw))
    (hclear : RangesClear hhdmBase answers h node prop own p) :
    ∃ cbus pbus size h₁ h₂ h₃ h', RangesRead hhdmBase answers h node prop own p triples.length cbus
      pbus size h₁ h₂ h₃ h' := by
  obtain ⟨hspared, hapart, hrecord⟩ := hclear
  rw [hdata] at hspared hapart hrecord
  obtain ⟨cbus, pbus, size, bump₁, bump₂, bump₃, hcbus, hpbus, hsize, hnull, hideal⟩ :=
    @ranges_completed h.mem hhdmBase answers p own h.state entry triples hown hp haddress hparent hne
      hcheck hserved
  obtain ⟨h₁, hcbusBlock, hrep₁⟩ := allocAligned_of_ok (represents_state h) hcbus
  obtain ⟨h₂, hpbusBlock, hrep₂⟩ := allocAligned_of_ok hrep₁ hpbus
  obtain ⟨h₃, hsizeBlock, hrep₃⟩ := allocAligned_of_ok hrep₂ hsize
  have hsim : Simulates (Covered (around h node prop (overreach p.address own.size)))
      (fun x => Within x entry.data.raw.data
        (entry.data.raw.size.toNat + overreach p.address own.size)) h.mem h h.state :=
    ⟨represents_state h, fun x hx => hspared.head (rangesBlocks_of_check hne hcheck) hcbus x (.inl hx),
      .refl _ _⟩
  have hvalue : ∀ x, Within x entry.data.raw.data
      (entry.data.raw.size.toNat + overreach p.address own.size) →
      Covered (around h node prop (overreach p.address own.size)) x := by
    intro x hx
    rw [← hdata] at hx
    exact ⟨_, List.mem_cons_self, hx⟩
  have hlockstep := propertyRewriteRanges_lockstep hsim hvalue hcounts
    ⟨fun x hx => covered_record hx, hrecord, hname, hdata⟩
    (fun q hq x hx => by
      obtain rfl := Option.some.inj hq
      exact hx) hspared
  obtain ⟨h', hcompleted, hdone, hheld⟩ := hlockstep.ok hideal
  have hlow : 1 ≤ p.address.toNat := BitVec.toNat_pos_of_ne_zero hparent
  obtain ⟨⟨hrows, -⟩, -⟩ := hheld p rfl ⟨hlow, hp.toNat_le.1⟩ hne hapart
  have hget := fun i (hi : i < triples.length) j hj hv =>
    hrows i (by simpa [hcount] using hi) j hj hv
  simp only [List.getElem_map, List.getElem_range] at hget
  have hdata' := hdone.data
  dsimp only at hdata'
  rw [← hdata] at hget
  refine ⟨cbus, pbus, size, h₁, h₂, h₃, h', ⟨⟨hcompleted, hcbusBlock, hpbusBlock, hsizeBlock, ?_, ?_,
    ?_⟩, hnull, fun i hi => ⟨?_, ?_⟩, fun i hi => ?_⟩⟩
  · rw [hdone.type]
  · rw [hdata']
    dsimp only
    exact hcount
  · rw [hdata']
    exact ⟨rfl, rfl, rfl⟩
  · refine (hget i hi 0 (show 0 < 3 by decide) (show 0 < 3 by decide)).trans ?_
    exact Nat.mod_eq_of_lt (rangeValue_lt hown.toNat_le.1 haddress)
  · refine (hget i hi 1 (show 1 < 3 by decide) (show 1 < 3 by decide)).trans ?_
    exact Nat.mod_eq_of_lt (rangeValue_lt hp.toNat_le.1 hparent)
  · refine (hget i hi 2 (show 2 < 3 by decide) (show 2 < 3 by decide)).trans ?_
    exact Nat.mod_eq_of_lt (sizeValue_lt hown.toNat_le.2)

/-- Arrays that are there have been served. -/
theorem ranges_serves {entry : Entry} {n : Nat} {cbus pbus size : U64} {h₁ h₂ h₃ : Heap}
    (hcompleted : RangesCompleted hhdmBase answers h node prop own n cbus pbus size h₁ h₂ h₃ h')
    (hpresent : cbus ≠ 0 ∧ pbus ≠ 0 ∧ (own.size ≠ 0 → size ≠ 0)) (hne : entry.data.raw.size ≠ 0)
    (hcheck : rangesCheck (some p) own entry.data.raw = .ok (p, BitVec.ofNat 64 n)) :
    Serves hhdmBase answers h.state (rangesRequests (some p) own entry.data.raw) := by
  unfold rangesRequests
  rw [if_neg hne, hcheck]
  refine serves_cons (represents_state h) hcompleted.cbusBlock
    (fun hzero => absurd hzero hpresent.1) fun st₁ hrep₁ => ?_
  refine serves_cons hrep₁ hcompleted.pbusBlock
    (fun hzero => absurd hzero hpresent.2.1) fun st₂ hrep₂ => ?_
  refine serves_cons hrep₂ hcompleted.sizeBlock (fun hzero => .inr ?_) fun _ _ => trivial
  have hsize : own.size = 0 := Classical.not_not.mp fun hne => hpresent.2.2 hne hzero
  change (cellBytes own.size).setWidth 64 = 0
  rw [hsize]
  rfl

/-- A `ranges` is decoded exactly when its requests are served, the parent has no more
address cells than the node's only one, every address of three cells survives, and the
stores stay clear; the first two are needed in any case, the third where they do. -/
theorem propertyRewriteRanges_exact (hown : own.Bounded) (hp : p.Bounded) (haddress : own.address ≠ 0)
    (hparentAddress : p.address ≠ 0) (hn : 0 < triples.length)
    (hfits : ∀ triple ∈ triples, TripleFits own p triple) (hcellsOwn : cellsAt h.mem node = own)
    (hparent : parentAt h.mem node ≠ 0) (hcells : cellsAt h.mem (parentAt h.mem node) = p)
    (hvalue : Denotes h.mem (dataAt h.mem prop).raw.data (dataAt h.mem prop).raw.size
      (triples.flatMap (encodeTriple own p)))
    (hlen : (triples.flatMap (encodeTriple own p)).length < 2 ^ 64) :
    (Serves hhdmBase answers h.state (rangesRequests (some p) own (dataAt h.mem prop).raw) ∧
        (own.address = 1 → p.address.toNat ≤ 1) ∧
        AllSurvive h.mem p own (dataAt h.mem prop).raw.data triples.length ∧
        RangesClear hhdmBase answers h node prop own p →
      ∃ cbus pbus size h₁ h₂ h₃ h', RangesExact hhdmBase answers h node prop own p triples cbus pbus
        size h₁ h₂ h₃ h') ∧
      ((∃ cbus pbus size h₁ h₂ h₃ h', RangesExact hhdmBase answers h node prop own p triples cbus pbus
        size h₁ h₂ h₃ h') →
        Serves hhdmBase answers h.state (rangesRequests (some p) own (dataAt h.mem prop).raw) ∧
          (own.address = 1 → p.address.toNat ≤ 1) ∧
          (RangesClear hhdmBase answers h node prop own p →
            AllSurvive h.mem p own (dataAt h.mem prop).raw.data triples.length)) := by
  obtain ⟨entry, hname, hdata⟩ : ∃ entry : Entry, viewAt h.mem prop = entry.name ∧
    dataAt h.mem prop = entry.data := ⟨entryAt h.mem prop, rfl, rfl⟩
  rw [hdata] at hvalue ⊢
  rw [length_encodeTriples] at hlen
  have hpos : 0 < rangesRowBytes own p := by
    have hcells : 0 < own.address.toNat := BitVec.toNat_pos_of_ne_zero haddress
    unfold rangesRowBytes
    omega
  obtain ⟨hne, hcheck⟩ := @rangesCheck_of_triples p own entry triples hown hp hpos hn hvalue.1 hlen
  have hcount : (BitVec.ofNat 64 triples.length).toNat = triples.length :=
    toNat_ofNat_of_lt ((Nat.le_mul_of_pos_left _ hpos).trans_lt hlen)
  have hparts : 4 * own.address.toNat * triples.length + (4 * p.address.toNat * triples.length +
      4 * own.size.toNat * triples.length) < 2 ^ 64 := by
    rw [← Nat.add_mul, ← Nat.add_mul]
    exact hlen
  have hcounts := @counts_around h node prop (overreach p.address own.size) p own hcellsOwn hparent
    hcells
  have hsurvive := rangesRows_iff hown hp haddress hparentAddress hfits hvalue.2
  have hread := @ranges_read hhdmBase answers h node prop own p triples entry hname hdata hown hp
    haddress hparentAddress hcounts hne hcheck hcount
  constructor
  · rintro ⟨hserved, hblocks, hall, hclear⟩
    obtain ⟨cbus, pbus, size, h₁, h₂, h₃, h', hrows⟩ := hread hserved hclear
    have haddresses := hrows.addresses
    have hsizes := hrows.sizes
    rw [hdata] at haddresses hsizes
    refine ⟨cbus, pbus, size, h₁, h₂, h₃, h', ⟨hrows.toRangesCompleted, hrows.present, fun i hi => ?_,
      fun hsize i hi => ?_, cbusInside hown (by omega), ?_, sizeInside hown (by omega)⟩⟩
    · obtain ⟨hchild, hbus⟩ := hsurvive.mpr hall i hi
      exact ⟨(haddresses i hi).1.trans hchild, (haddresses i hi).2.trans hbus⟩
    · have hvalue := rangeSize_eq hown (hfits _ (List.getElem_mem hi))
        (holds_flatMap_at (fun triple _ => length_encodeTriple own p triple) hvalue.2 hi)
      rw [if_neg hsize] at hvalue
      obtain ⟨x, hx, hxv⟩ := Option.map_eq_some_iff.mp hvalue
      rw [hsizes i hi, rangesRow, hx]
      exact hxv
    · exact (pbusInside_iff hown hp haddress hn (by omega)).mpr hblocks
  · rintro ⟨cbus, pbus, size, h₁, h₂, h₃, h', hexact⟩
    have hserved := ranges_serves hexact.toRangesCompleted hexact.present hne hcheck
    refine ⟨hserved, (pbusInside_iff hown hp haddress hn (by omega)).mp hexact.pbusInside, ?_⟩
    intro hclear
    obtain ⟨cbus', pbus', size', h₁', h₂', h₃', h'', hrows⟩ := hread hserved hclear
    obtain ⟨rfl, rfl⟩ := ok_pair_inj (hrows.cbusBlock.symm.trans hexact.cbusBlock)
    obtain ⟨rfl, rfl⟩ := ok_pair_inj (hrows.pbusBlock.symm.trans hexact.pbusBlock)
    obtain rfl := Except.ok.inj (hrows.completed.symm.trans hexact.completed)
    have haddresses := hrows.addresses
    rw [hdata] at haddresses
    refine hsurvive.mp fun i hi => ?_
    obtain ⟨hchild, hbus⟩ := hexact.addresses i hi
    exact ⟨(haddresses i hi).1.symm.trans hchild, (haddresses i hi).2.symm.trans hbus⟩

theorem rangesClear_of_checks
    (hspared : clearBlocks hhdmBase answers (around h node prop (overreach p.address own.size)) h.state
      (rangesBlocks (some p) own (dataAt h.mem prop).raw) = true)
    (hapart : (match place hhdmBase answers h.state
        (rangesBlocks (some p) own (dataAt h.mem prop).raw) with
      | .ok ([a, b, c], _) => clear a b && clear a c && clear b c
      | _ => false) = true)
    (hrecord : clear (prop, 80) ((dataAt h.mem prop).raw.data,
      (dataAt h.mem prop).raw.size.toNat + overreach p.address own.size) = true) :
    RangesClear hhdmBase answers h node prop own p where
  spared := spared_of_clear hspared
  apart arrays bump' hplace := by
    rw [hplace] at hapart
    split at hapart
    · next heq =>
      obtain ⟨rfl, -⟩ := ok_pair_inj heq
      simp only [Bool.and_eq_true] at hapart
      obtain ⟨⟨hab, hac⟩, hbc⟩ := hapart
      simpa using ⟨⟨apart_of_clear hab, apart_of_clear hac⟩, apart_of_clear hbc⟩
    · exact absurd hapart (by decide)
  record := apart_of_clear hrecord

/-- Two address cells on both sides. -/
def tripleHeap : Heap := childHeap ⟨2, 1⟩ ⟨2, 2⟩ (encodeTriple ⟨2, 1⟩ ⟨2, 2⟩ (5, 6, 7))

theorem propertyRewriteRanges_exact_twoCells :
    ∃ cbus pbus size h₁ h₂ h₃ h', RangesExact 0xffffffc000000000 Bump.spacedPages tripleHeap 0x2000
      0x4000 ⟨2, 1⟩ ⟨2, 2⟩ [(5, 6, 7)] cbus pbus size h₁ h₂ h₃ h' := by
  refine (@propertyRewriteRanges_exact _ _ tripleHeap 0x2000 0x4000 ⟨2, 1⟩ ⟨2, 2⟩ [(5, 6, 7)]
    ⟨by decide, by decide⟩ ⟨by decide, by decide⟩ (by decide) (by decide) (by decide) ?_
    (by decide +kernel) (by decide +kernel) (by decide +kernel)
    ⟨by decide +kernel, by decide +kernel⟩ (by decide)).1 ⟨by decide +kernel, by decide, ?_, ?_⟩
  · intro triple htriple
    obtain rfl := List.mem_singleton.mp htriple
    exact ⟨by decide, by decide, by decide⟩
  · exact fun i _ => ⟨fun hthree => absurd hthree (by decide), fun hthree =>
      absurd hthree (by decide)⟩
  · exact rangesClear_of_checks (by decide +kernel) (by decide +kernel) (by decide +kernel)

/-- The platform bus: one address cell below two. -/
def platformBusHeap : Heap :=
  childHeap ⟨1, 1⟩ ⟨2, 2⟩ (encodeTriple ⟨1, 1⟩ ⟨2, 2⟩ (0, 0x4000000, 0x2000000))

theorem not_rangesExact_platformBus :
    Denotes platformBusHeap.mem 0x1000 16
        ([(0, 0x4000000, 0x2000000)].flatMap (encodeTriple ⟨1, 1⟩ ⟨2, 2⟩)) ∧
      Serves 0xffffffc000000000 Bump.spacedPages platformBusHeap.state
        (rangesRequests (some ⟨2, 2⟩) ⟨1, 1⟩ ⟨0x1000, 16⟩) ∧
      ¬ ∃ cbus pbus size h₁ h₂ h₃ h', RangesExact 0xffffffc000000000 Bump.spacedPages platformBusHeap
        0x2000 0x4000 ⟨1, 1⟩ ⟨2, 2⟩ [(0, 0x4000000, 0x2000000)] cbus pbus size h₁ h₂ h₃ h' := by
  refine ⟨⟨rfl, by decide +kernel⟩, by decide +kernel, ?_⟩
  rintro ⟨cbus, pbus, size, h₁, h₂, h₃, h', hexact⟩
  have hblock := (@pbusInside_iff ⟨2, 2⟩ ⟨1, 1⟩ _ 1 ⟨by decide, by decide⟩ ⟨by decide, by decide⟩
    (by decide) (by decide) (by decide)).mp hexact.pbusInside rfl
  exact absurd hblock (by decide)

end

end Octiron.DeviceTree.InMemory
