import Octiron.DeviceTree.Arrays
import Octiron.DeviceTree.RowTurns

/-! What the arrays of `reg` hold in memory once the property is rewritten.  The blocks
may be too small for the elements, and where the allocator hands out blocks that overlap
one array is written over the other. -/
namespace Octiron.DeviceTree.InMemory

open Lib.Word Lib.ByteMemory Lib.Elements Lib.Lockstep Lib.Tables Exec Pmm
open Bump.InMemory (Represents Touches allocAligned_ok allocAligned_of_ok represents_state)

section

variable (hhdmBase : U64) (answers : Answers) (h : Heap) (node prop : U64) (behind : Nat) (p : Cells)

/-- The value that a property is decoded from, with the bytes behind it that are read, its
record, and those of its node and of the parent. -/
def around : List (U64 × Nat) :=
  [((dataAt h.mem prop).raw.data, (dataAt h.mem prop).raw.size.toNat + behind), (prop, 80),
    (node, 56), (parentAt h.mem node, 56)]

/-- The stores of the call stay clear of these, and the two arrays of each other; nor is
the record a part of the value. -/
structure RegClear : Prop where
  spared : Spared hhdmBase answers (Covered (around h node prop 0)) h.state
    (regBlocks (some p) (dataAt h.mem prop).raw)
  apart : BlocksApart hhdmBase answers h.state (regBlocks (some p) (dataAt h.mem prop).raw)
  record : Apart prop 80 (dataAt h.mem prop).raw.data (dataAt h.mem prop).raw.size.toNat

/-- The arrays hold the pairs, one by one, in blocks that are large enough for them. -/
structure RegExact (pairs : List (Nat × Nat)) (addressArray sizeArray : U64) (h₁ h₂ h' : Heap) :
    Prop where
  completed : propertyRewriteReg hhdmBase answers node prop h = .ok h'
  addressBlock : Bump.InMemory.allocAligned hhdmBase answers h
    (arrayRequest p.address (BitVec.ofNat 64 pairs.length)).1
    (arrayRequest p.address (BitVec.ofNat 64 pairs.length)).2 = .ok (addressArray, h₁)
  sizeBlock : Bump.InMemory.allocAligned hhdmBase answers h₁
    (arrayRequest p.size (BitVec.ofNat 64 pairs.length)).1
    (arrayRequest p.size (BitVec.ofNat 64 pairs.length)).2 = .ok (sizeArray, h₂)
  type : typeAt h'.mem prop = PropertyType.reg.val
  nPairs : (dataAt h'.mem prop).word0.toNat = pairs.length
  arrays : (dataAt h'.mem prop).word1 = addressArray ∧ (dataAt h'.mem prop).word2 = sizeArray
  addresses : p.address ≠ 0 → ∀ i (hi : i < pairs.length),
    (⟨addressArray, regElementBytes p.address⟩ : Column).get h'.mem i = pairs[i].1
  sizes : p.size ≠ 0 → ∀ i (hi : i < pairs.length),
    (⟨sizeArray, 4 * p.size.toNat⟩ : Column).get h'.mem i = pairs[i].2
  addressInside : ElementsInside addressArray (regElementBytes p.address) pairs.length
    (arrayRequest p.address (BitVec.ofNat 64 pairs.length)).1.toNat
  sizeInside : ElementsInside sizeArray (4 * p.size.toNat) pairs.length
    (arrayRequest p.size (BitVec.ofNat 64 pairs.length)).1.toNat

end

section

variable {hhdmBase : U64} {answers : Answers} {h : Heap} {node prop : U64} {behind : Nat} {p : Cells}
  {pairs : List (Nat × Nat)}

/-- The property as the pass on the tree has it. -/
def entryAt (m : Mem) (prop : U64) : Entry :=
  { name := viewAt m prop, type := .raw, data := dataAt m prop }

/-- The cell counts are in records that are to be kept. -/
theorem counts_around {own : Cells} (hown : cellsAt h.mem node = own)
    (hparent : parentAt h.mem node ≠ 0) (hcells : cellsAt h.mem (parentAt h.mem node) = p) :
    Counts (Covered (around h node prop behind)) h.mem node own (some p) where
  own := hown
  keepNode x hx := ⟨(node, 56), by simp [around], hx⟩
  atRoot hnone := absurd hnone (Option.some_ne_none p)
  below q hq := ⟨hparent, hcells.trans (Option.some.inj hq)⟩
  keepParent _ x hx := ⟨(parentAt h.mem node, 56), by simp [around], hx⟩

theorem covered_value {x : U64} {k : Nat} (hk : k ≤ (dataAt h.mem prop).raw.size.toNat + behind)
    (hx : Within x (dataAt h.mem prop).raw.data k) : Covered (around h node prop behind) x :=
  ⟨_, List.mem_cons_self, hx.trans_le hk⟩

theorem covered_record {x : U64} (hx : Within x prop 80) : Covered (around h node prop behind) x :=
  ⟨_, List.mem_cons_of_mem _ List.mem_cons_self, hx⟩

/-- An array that a served request got is where the allocator has it in memory. -/
theorem serves_cons {size alignment array : U64} {rest : List (U64 × U64)} {st : Bump.State}
    {h₁ : Heap} (hrep : Represents h st)
    (halloc : Bump.InMemory.allocAligned hhdmBase answers h size alignment = .ok (array, h₁))
    (hnull : array = 0 → size = 0 ∨ alignment = 0)
    (hrest : ∀ st', Represents h₁ st' → Serves hhdmBase answers st' rest) :
    Serves hhdmBase answers st ((size, alignment) :: rest) := by
  obtain ⟨st', hideal, hrep'⟩ := allocAligned_ok hrep halloc
  exact ⟨array, st', hideal, hnull, hrest st' hrep'⟩

/-- The assertions have seen that both requests were served. -/
theorem RegExact.serves {addressArray sizeArray : U64} {h₁ h₂ h' : Heap}
    (hexact : RegExact hhdmBase answers h node prop p pairs addressArray sizeArray h₁ h₂ h')
    (hparent : parentCells h.mem node = .ok p)
    (hcheck : regCheck (some p) (dataAt h.mem prop).raw =
      .ok (p, BitVec.ofNat 64 pairs.length)) :
    Serves hhdmBase answers h.state (regRequests (some p) (dataAt h.mem prop).raw) := by
  have hcompleted := hexact.completed
  rw [@propertyRewriteReg_eq h node prop (some p) hhdmBase answers hparent, hcheck, ok_bind]
    at hcompleted
  dsimp only at hcompleted
  rw [hexact.addressBlock, ok_bind] at hcompleted
  dsimp only at hcompleted
  rw [hexact.sizeBlock, ok_bind] at hcompleted
  obtain ⟨_, haddress, hcompleted⟩ := bind_eq_ok.mp hcompleted
  obtain ⟨_, hsize, -⟩ := bind_eq_ok.mp hcompleted
  unfold regRequests
  rw [hcheck]
  exact serves_cons (represents_state h) hexact.addressBlock
    (fun hzero => .inr (array_null (kassert_eq_ok.mp haddress) hzero)) fun st₁ hrep₁ =>
    serves_cons hrep₁ hexact.sizeBlock
      (fun hzero => .inr (array_null (kassert_eq_ok.mp hsize) hzero)) fun _ _ => trivial

/-- What the rows of a decoded value say is in the arrays. -/
theorem regHeld_get {entry : Entry} {m : Mem} (hne : p.address ≠ 3)
    (hfits : ∀ pair ∈ pairs, PairFits p pair) (hheld : RegHeld p entry m)
    (helements : entry.pairs.map (fun e => (e.1.map BitVec.toNat, e.2.map BitVec.toNat)) =
      pairs.map (pairElements p)) {i : Nat} (hi : i < pairs.length) :
    (p.address ≠ 0 →
      (⟨entry.data.word1, regElementBytes p.address⟩ : Column).get m i = pairs[i].1) ∧
      (p.size ≠ 0 → (⟨entry.data.word2, 4 * p.size.toNat⟩ : Column).get m i = pairs[i].2) := by
  have hlength : entry.pairs.length = pairs.length := by
    simpa using congrArg List.length helements
  have hentry : i < entry.pairs.length := hlength ▸ hi
  have hrow : i < (entry.pairs.map regValues).length := by rwa [List.length_map]
  have hget := fun j hj hv => hheld.1 i hrow j hj hv
  simp only [List.getElem_map] at hget
  have helement : (entry.pairs[i].1.map BitVec.toNat, entry.pairs[i].2.map BitVec.toNat) =
      pairElements p pairs[i] := by
    have hat := List.getElem_of_eq helements (by rwa [List.length_map])
    simpa using hat
  obtain ⟨haddress, hsize⟩ := Prod.mk.inj helement
  obtain ⟨hfit, hfit'⟩ := hfits _ (List.getElem_mem hi)
  have hvalue : ∀ {w v : Nat} {cells : Nat} {x : Option (BitVec w)}, x.map BitVec.toNat = some v →
      v < 2 ^ (32 * cells) → x.elim 0 BitVec.toNat % 256 ^ (4 * cells) = v := by
    intro w v cells x hx hv
    obtain ⟨y, rfl, rfl⟩ := Option.map_eq_some_iff.mp hx
    refine Nat.mod_eq_of_lt (hv.trans_eq ?_)
    rw [show 256 = 2 ^ 8 by rfl, ← Nat.pow_mul]
    congr 1
    omega
  refine ⟨fun hcells => ?_, fun hcells => ?_⟩
  · have hwidth : regElementBytes p.address = 4 * p.address.toNat := if_neg hne
    rw [if_neg hcells] at haddress
    refine (hget 0 (show 0 < 2 by decide) (show 0 < 2 by decide)).trans ?_
    change entry.pairs[i].1.elim 0 BitVec.toNat % 256 ^ regElementBytes p.address = _
    rw [hwidth]
    exact hvalue haddress hfit
  · rw [if_neg hcells] at hsize
    refine (hget 1 (show 1 < 2 by decide) (show 1 < 2 by decide)).trans ?_
    exact hvalue hsize hfit'

/-- A `reg` whose addresses do not have three cells is decoded exactly when its two requests
are served and the stores stay clear; with three cells, or a request refused, it never is. -/
theorem propertyRewriteReg_exact (hp : p.Bounded) (hpos : 0 < p.address.toNat + p.size.toNat)
    (hn : 0 < pairs.length) (hfits : ∀ pair ∈ pairs, PairFits p pair)
    (hparent : parentAt h.mem node ≠ 0) (hcells : cellsAt h.mem (parentAt h.mem node) = p)
    (hvalue : Denotes h.mem (dataAt h.mem prop).raw.data (dataAt h.mem prop).raw.size
      (pairs.flatMap (encodePair p)))
    (hlen : (pairs.flatMap (encodePair p)).length < 2 ^ 64) :
    (Serves hhdmBase answers h.state (regRequests (some p) (dataAt h.mem prop).raw) ∧
        p.address ≠ 3 ∧ RegClear hhdmBase answers h node prop p →
      ∃ addressArray sizeArray h₁ h₂ h', RegExact hhdmBase answers h node prop p pairs addressArray
        sizeArray h₁ h₂ h') ∧
      ((∃ addressArray sizeArray h₁ h₂ h', RegExact hhdmBase answers h node prop p pairs addressArray
        sizeArray h₁ h₂ h') →
        Serves hhdmBase answers h.state (regRequests (some p) (dataAt h.mem prop).raw) ∧
          p.address ≠ 3) := by
  rw [length_encodePairs] at hlen
  have hwidth : 0 < regRowBytes p := by
    unfold regRowBytes
    omega
  have hcheck : regCheck (some p) (dataAt h.mem prop).raw =
      .ok (p, BitVec.ofNat 64 pairs.length) :=
    @regCheck_of_pairs p (entryAt h.mem prop) pairs hp hwidth hn hvalue.1 hlen
  have hcount : (BitVec.ofNat 64 pairs.length).toNat = pairs.length :=
    toNat_ofNat_of_lt ((Nat.le_mul_of_pos_left _ hwidth).trans_lt hlen)
  have hcounts := @counts_around h node prop 0 p _ rfl hparent hcells
  constructor
  · rintro ⟨hserved, hne, hclear⟩
    obtain ⟨entry, bump₁, bump₂, hideal⟩ := @regExact_of_ne_three h.mem hhdmBase answers p h.state
      (entryAt h.mem prop) pairs hp hwidth hn hfits hvalue hlen hserved hne
    obtain ⟨h₁, haddressBlock, hrep₁⟩ := allocAligned_of_ok (represents_state h) hideal.addressBlock
    obtain ⟨h₂, hsizeBlock, hrep₂⟩ := allocAligned_of_ok hrep₁ hideal.sizeBlock
    have hheader : ∀ x, Within x h.currentRegion 24 → ¬ Covered (around h node prop 0) x := by
      intro x hx
      exact hclear.spared.head (regBlocks_of_check hcheck) hideal.addressBlock x (.inl hx)
    have hover : overreach p.address p.size = 0 := if_neg fun hthree => hne hthree.1
    have hsim : Simulates (Covered (around h node prop 0))
        (fun x => Within x (dataAt h.mem prop).raw.data (dataAt h.mem prop).raw.size.toNat) h.mem h
        h.state := ⟨represents_state h, hheader, .refl _ _⟩
    have hlockstep := @propertyRewriteReg_lockstep _ _ _ _ _ node prop (entryAt h.mem prop) _ _
      hhdmBase answers hsim (fun x hx => covered_value (Nat.le_add_right _ 0) hx) hcounts
      ⟨fun x hx => covered_record hx, hclear.record, rfl, rfl⟩
      (fun q hq x hx => by
        obtain rfl := Option.some.inj hq
        rwa [hover, Nat.add_zero] at hx) hclear.spared
    obtain ⟨h', hcompleted, hdone, hheld⟩ := hlockstep.ok hideal.completed
    have hheld := (hheld p rfl hclear.apart).1
    have hget := fun i hi => regHeld_get (i := i) hne hfits hheld hideal.elements hi
    refine ⟨entry.data.word1, entry.data.word2, h₁, h₂, h', ⟨hcompleted, haddressBlock, hsizeBlock,
      ?_, ?_, ?_, fun hzero i hi => (hget i hi).1 hzero, fun hzero i hi => (hget i hi).2 hzero,
      hideal.addressInside, hideal.sizeInside⟩⟩
    · rw [hdone.type, hideal.type]
    · rw [hdone.data, hideal.nPairs]
    · rw [hdone.data]
      exact ⟨rfl, rfl⟩
  · rintro ⟨addressArray, sizeArray, h₁, h₂, h', hexact⟩
    refine ⟨hexact.serves hcounts.parentCells hcheck, ne_three_of_inside hn ?_ hexact.addressInside⟩
    exact (Nat.mul_le_mul_right _ (Nat.le_add_right _ _)).trans_lt hlen

/-- A node below a parent, with these cell counts, and its property. -/
def childHeap (own p : Cells) (value : List U8) : Heap where
  mem := ofPieces [(0x1000, value), (0x2000, nodeBytes own 0x4000 0x3000 0 0),
    (0x3000, nodeBytes p 0 0 0x2000 0),
    (0x4000, propertyBytes ⟨0, 0⟩ 0 ⟨0x1000, BitVec.ofNat 64 value.length⟩)]

theorem regClear_of_checks
    (hspared : clearBlocks hhdmBase answers (around h node prop 0) h.state
      (regBlocks (some p) (dataAt h.mem prop).raw) = true)
    (hapart : (match place hhdmBase answers h.state (regBlocks (some p) (dataAt h.mem prop).raw) with
      | .ok ([a, b], _) => clear a b
      | _ => false) = true)
    (hrecord : clear (prop, 80) ((dataAt h.mem prop).raw.data,
      (dataAt h.mem prop).raw.size.toNat) = true) : RegClear hhdmBase answers h node prop p where
  spared := spared_of_clear hspared
  apart arrays bump' hplace := by
    rw [hplace] at hapart
    split at hapart
    · next heq =>
      obtain ⟨rfl, -⟩ := ok_pair_inj heq
      exact List.pairwise_pair.mpr (apart_of_clear hapart)
    · exact absurd hapart (by decide)
  record := apart_of_clear hrecord

/-- A pair of an address of two cells and a size of one. -/
def pairHeap : Heap := childHeap ⟨0, 0⟩ ⟨2, 1⟩ (encodePair ⟨2, 1⟩ (5, 7))

theorem propertyRewriteReg_exact_twelveBytes :
    ∃ addressArray sizeArray h₁ h₂ h', RegExact 0xffffffc000000000 Bump.spacedPages pairHeap 0x2000
      0x4000 ⟨2, 1⟩ [(5, 7)] addressArray sizeArray h₁ h₂ h' := by
  refine (@propertyRewriteReg_exact _ _ pairHeap 0x2000 0x4000 ⟨2, 1⟩ [(5, 7)]
    ⟨by decide, by decide⟩ (by decide) (by decide) ?_ (by decide +kernel) (by decide +kernel)
    ⟨by decide +kernel, by decide +kernel⟩ (by decide)).1 ⟨by decide +kernel, by decide, ?_⟩
  · intro pair hpair
    obtain rfl := List.mem_singleton.mp hpair
    exact ⟨by decide, by decide⟩
  · exact regClear_of_checks (by decide +kernel) (by decide +kernel) (by decide +kernel)

/-- An address of three cells, with its requests served and nothing in the way. -/
def threeCellsHeap : Heap := childHeap ⟨0, 0⟩ ⟨3, 0⟩ (encodePair ⟨3, 0⟩ (5, 0))

theorem not_regExact_threeCells :
    Denotes threeCellsHeap.mem 0x1000 12 ([(5, 0)].flatMap (encodePair ⟨3, 0⟩)) ∧
      Serves 0xffffffc000000000 Bump.spacedPages threeCellsHeap.state
        (regRequests (some ⟨3, 0⟩) ⟨0x1000, 12⟩) ∧
      RegClear 0xffffffc000000000 Bump.spacedPages threeCellsHeap 0x2000 0x4000 ⟨3, 0⟩ ∧
      ¬ ∃ addressArray sizeArray h₁ h₂ h', RegExact 0xffffffc000000000 Bump.spacedPages
        threeCellsHeap 0x2000 0x4000 ⟨3, 0⟩ [(5, 0)] addressArray sizeArray h₁ h₂ h' := by
  refine ⟨⟨rfl, by decide +kernel⟩, by decide +kernel,
    regClear_of_checks (by decide +kernel) (by decide +kernel) (by decide +kernel), ?_⟩
  rintro ⟨addressArray, sizeArray, h₁, h₂, h', hexact⟩
  exact ne_three_of_inside (by decide) (by decide) hexact.addressInside rfl

end

end Octiron.DeviceTree.InMemory
