import Octiron.DeviceTree.ArrayStores

/-! The blocks that a property is decoded into, and what it is for their stores to stay
clear.  A decoder stores in the headers of the bump allocator, in the pages that are
granted to it, and in the elements of its arrays, inside their blocks or not. -/
namespace Octiron.DeviceTree

open Lib.Word Lib.ByteMemory Lib.Lockstep Exec Pmm
open Bump.InMemory (Represents Touches)

/-- A request, and how many bytes are stored from the start of its block on. -/
structure Block where
  size : U64
  alignment : U64
  stored : Nat

/-- The block of an array of `n` elements of so many cells, each stored in `width` bytes. -/
def arrayBlock (cells : U32) (n : U64) (width : Nat) : Block :=
  ⟨(arrayRequest cells n).1, (arrayRequest cells n).2, width * n.toNat⟩

def regBlocks (parent : Option Cells) (raw : ByteView) : List Block :=
  match regCheck parent raw with
  | .ok (p, n) => [arrayBlock p.address n (regElementBytes p.address),
      arrayBlock p.size n (4 * p.size.toNat)]
  | .error _ => []

/-- The parent addresses are asked for by the count of the child addresses. -/
def rangesBlocks (parent : Option Cells) (own : Cells) (raw : ByteView) : List Block :=
  if raw.size = 0 then []
  else match rangesCheck parent own raw with
    | .ok (p, n) => [arrayBlock own.address n (rangeElementBytes own.address),
        arrayBlock own.address n (rangeElementBytes p.address),
        arrayBlock own.size n (4 * own.size.toNat)]
    | .error _ => []

theorem regBlocks_of_check {parent : Option Cells} {p : Cells} {raw : ByteView} {n : U64}
    (h : regCheck parent raw = .ok (p, n)) : regBlocks parent raw =
      [arrayBlock p.address n (regElementBytes p.address),
        arrayBlock p.size n (4 * p.size.toNat)] := by rw [regBlocks, h]

theorem rangesBlocks_of_check {parent : Option Cells} {own p : Cells} {raw : ByteView} {n : U64}
    (hne : raw.size ≠ 0) (h : rangesCheck parent own raw = .ok (p, n)) : rangesBlocks parent own raw =
      [arrayBlock own.address n (rangeElementBytes own.address),
        arrayBlock own.address n (rangeElementBytes p.address),
        arrayBlock own.size n (4 * own.size.toNat)] := by rw [rangesBlocks, if_neg hne, h]

/-- One record of sixteen bytes for each string, and one more. -/
def compatibleBlocks (m : Mem) (raw : ByteView) : List Block :=
  [⟨8 * BitVec.ofNat 64 (countStrings m raw + 1), 8, 16 * (countStrings m raw + 1)⟩]

/-- The addresses in one of these ranges. -/
def Covered (ranges : List (U64 × Nat)) (x : U64) : Prop := ∃ r ∈ ranges, Within x r.1 r.2

section Spared

variable (hhdmBase : U64) (answers : Answers)

/-- The arrays that the requests get, each with the bytes that are stored there. -/
def place : Bump.State → List Block → Exec (List (U64 × Nat) × Bump.State)
  | bump, [] => .ok ([], bump)
  | bump, block :: rest => do
    let (array, bump) ← Bump.allocAligned hhdmBase answers bump block.size block.alignment
    let (arrays, bump) ← place bump rest
    return ((array, block.stored) :: arrays, bump)

/-- The requests leave `keep` alone. -/
def RequestsSpared (keep : U64 → Prop) : Bump.State → List Block → Prop
  | _, [] => True
  | bump, block :: rest => ∀ array bump',
      Bump.allocAligned hhdmBase answers bump block.size block.alignment = .ok (array, bump') →
        (∀ x, Touches bump bump' x → ¬ keep x) ∧ RequestsSpared keep bump' rest

/-- Neither the requests nor the elements touch what is to be kept, and the elements do not
touch the header that the next request reads. -/
structure Spared (keep : U64 → Prop) (bump : Bump.State) (blocks : List Block) : Prop where
  requests : RequestsSpared hhdmBase answers keep bump blocks
  elements : ∀ arrays bump', place hhdmBase answers bump blocks = .ok (arrays, bump') →
    ∀ a ∈ arrays, ∀ x, Within x a.1 a.2 → ¬ keep x ∧ ¬ Within x bump'.currentRegion 24

/-- The arrays of one property do not overlap. -/
def BlocksApart (bump : Bump.State) (blocks : List Block) : Prop :=
  ∀ arrays bump', place hhdmBase answers bump blocks = .ok (arrays, bump') →
    arrays.Pairwise fun a b => Apart a.1 a.2 b.1 b.2

/-- It is so as long as the arrays in these blocks are left alone. -/
def WhileKept (bump : Bump.State) (blocks : List Block) (mem : Mem) (p : Mem → Prop) : Prop :=
  ∀ arrays bump', place hhdmBase answers bump blocks = .ok (arrays, bump') →
    ∀ mem', AgreeOn (Covered arrays) mem mem' → p mem'

/-- What the first request touches. -/
theorem Spared.head {hhdmBase : U64} {answers : Answers} {keep : U64 → Prop}
    {bump bump' : Bump.State} {blocks rest : List Block} {block : Block} {array : U64}
    (h : Spared hhdmBase answers keep bump blocks) (hblocks : blocks = block :: rest)
    (halloc : Bump.allocAligned hhdmBase answers bump block.size block.alignment =
      .ok (array, bump')) : ∀ x, Touches bump bump' x → ¬ keep x := by
  subst hblocks
  exact (h.requests array bump' halloc).1

variable {hhdmBase answers} {keep extra : U64 → Prop} {bump bump' : Bump.State}
  {blocks : List Block} {arrays : List (U64 × Nat)}

theorem RequestsSpared.union (h : RequestsSpared hhdmBase answers keep bump blocks)
    (h' : RequestsSpared hhdmBase answers extra bump blocks) :
    RequestsSpared hhdmBase answers (fun x => keep x ∨ extra x) bump blocks := by
  induction blocks generalizing bump with
  | nil => trivial
  | cons block rest ih =>
    intro array bump' halloc
    obtain ⟨hkeep, hrest⟩ := h array bump' halloc
    obtain ⟨hextra, hrest'⟩ := h' array bump' halloc
    exact ⟨fun x hx => not_or_intro (hkeep x hx) (hextra x hx), ih hrest hrest'⟩

theorem Spared.union (h : Spared hhdmBase answers keep bump blocks)
    (h' : Spared hhdmBase answers extra bump blocks) :
    Spared hhdmBase answers (fun x => keep x ∨ extra x) bump blocks where
  requests := h.requests.union h'.requests
  elements arrays bump' hplace a ha x hx :=
    have hkeep := h.elements arrays bump' hplace a ha x hx
    have hextra := h'.elements arrays bump' hplace a ha x hx
    ⟨not_or_intro hkeep.1 hextra.1, hkeep.2⟩

/-- A request opens no region where something is kept. -/
theorem RequestsSpared.header (h : RequestsSpared hhdmBase answers extra bump blocks)
    (hplace : place hhdmBase answers bump blocks = .ok (arrays, bump'))
    (hheader : ∀ x, Within x bump.currentRegion 24 → ¬ extra x) :
    ∀ x, Within x bump'.currentRegion 24 → ¬ extra x := by
  induction blocks generalizing bump arrays with
  | nil =>
    obtain ⟨-, rfl⟩ := ok_pair_inj hplace
    exact hheader
  | cons block rest ih =>
    obtain ⟨⟨array, bump₁⟩, halloc, hplace⟩ := bind_eq_ok.mp hplace
    obtain ⟨⟨arrays', bump₂⟩, hrest, hplace⟩ := bind_eq_ok.mp hplace
    obtain ⟨-, rfl⟩ := Prod.mk.inj (pure_eq_ok.mp hplace)
    obtain ⟨hmiss, hspared⟩ := h array bump₁ halloc
    exact ih hspared hrest fun x hx => hmiss x (.inr (.inl hx))

end Spared

section Checks

/-- Neither range wraps, and one ends before the other begins. -/
def clear (a b : U64 × Nat) : Bool :=
  a.1.toNat + a.2 ≤ 2 ^ 64 && b.1.toNat + b.2 ≤ 2 ^ 64 &&
    (a.1.toNat + a.2 ≤ b.1.toNat || b.1.toNat + b.2 ≤ a.1.toNat)

/-- The ranges that a request stores in. -/
def touched (bump bump' : Bump.State) : List (U64 × Nat) :=
  (bump.currentRegion, 24) :: (bump'.currentRegion, 24) ::
    (bump'.obtained.take (bump'.obtained.length - bump.obtained.length)).map
      fun span => (BitVec.ofNat 64 span.base, span.length)

variable (hhdmBase : U64) (answers : Answers) (ranges : List (U64 × Nat))

def clearRequests : Bump.State → List Block → Bool
  | _, [] => true
  | bump, block :: rest =>
    match Bump.allocAligned hhdmBase answers bump block.size block.alignment with
    | .error _ => true
    | .ok (_, bump') =>
      ((touched bump bump').all fun t => ranges.all (clear t)) && clearRequests bump' rest

/-- `Spared` on ranges, as a computation. -/
def clearBlocks (bump : Bump.State) (blocks : List Block) : Bool :=
  clearRequests hhdmBase answers ranges bump blocks &&
    match place hhdmBase answers bump blocks with
    | .error _ => true
    | .ok (arrays, bump') => arrays.all fun a => ((bump'.currentRegion, 24) :: ranges).all (clear a)

variable {hhdmBase answers ranges} {bump bump' : Bump.State} {blocks : List Block}

theorem apart_of_clear {a b : U64 × Nat} (h : clear a b = true) : Apart a.1 a.2 b.1 b.2 := by
  simp only [clear, Bool.and_eq_true, Bool.or_eq_true, decide_eq_true_eq] at h
  exact apart_of_le h.1.1 h.1.2 h.2

theorem not_covered_of_clear {a : U64 × Nat} {x : U64} (h : ranges.all (clear a) = true)
    (hx : Within x a.1 a.2) : ¬ Covered ranges x := by
  rintro ⟨r, hr, hin⟩
  exact apart_of_clear (List.all_eq_true.mp h r hr) x hx hin

theorem covered_touched {x : U64} (h : Touches bump bump' x) : Covered (touched bump bump') x := by
  rcases h with hx | hx | ⟨span, hspan, hx⟩
  · exact ⟨_, List.mem_cons_self, hx⟩
  · exact ⟨_, List.mem_cons_of_mem _ List.mem_cons_self, hx⟩
  · exact ⟨_, List.mem_cons_of_mem _ (List.mem_cons_of_mem _ (List.mem_map_of_mem hspan)), hx⟩

theorem requestsSpared_of_clear (h : clearRequests hhdmBase answers ranges bump blocks = true) :
    RequestsSpared hhdmBase answers (Covered ranges) bump blocks := by
  induction blocks generalizing bump with
  | nil => trivial
  | cons block rest ih =>
    intro array bump' halloc
    rw [clearRequests, halloc, Bool.and_eq_true] at h
    refine ⟨fun x hx => ?_, ih h.2⟩
    obtain ⟨t, ht, hin⟩ := covered_touched hx
    exact not_covered_of_clear (List.all_eq_true.mp h.1 t ht) hin

theorem spared_of_clear (h : clearBlocks hhdmBase answers ranges bump blocks = true) :
    Spared hhdmBase answers (Covered ranges) bump blocks := by
  rw [clearBlocks, Bool.and_eq_true] at h
  refine ⟨requestsSpared_of_clear h.1, fun arrays bump' hplace a ha x hx => ?_⟩
  rw [hplace] at h
  have hclear := List.all_eq_true.mp h.2 a ha
  rw [List.all_cons, Bool.and_eq_true] at hclear
  exact ⟨not_covered_of_clear hclear.2 hx, apart_of_clear hclear.1 x hx⟩

end Checks

namespace InMemory

/-- Memory holds what the pass that keeps its arrays apart goes by: the headers, the bytes
of the blob that are read, and no header among the kept bytes. -/
structure Simulates (keep reads : U64 → Prop) (m : Mem) (h : Heap) (bump : Bump.State) : Prop where
  represents : Represents h bump
  header : ∀ x, Within x h.currentRegion 24 → ¬ keep x
  agrees : AgreeOn reads m h.mem

section Simulates

variable {keep reads own : U64 → Prop} {m mem : Mem} {h : Heap} {bump : Bump.State}
  {hhdmBase : U64} {answers : Answers} {size alignment : U64}

/-- Stores that touch neither the header nor what is read. -/
theorem Simulates.store (hsim : Simulates keep reads m h bump) (hchanges : ChangesOnly own h.mem mem)
    (hown : ∀ x, own x → ¬ reads x ∧ ¬ Within x h.currentRegion 24) :
    Simulates keep reads m { h with mem := mem } bump where
  represents :=
    { regionList := hsim.represents.regionList
      currentRegion := hsim.represents.currentRegion
      allocs := hsim.represents.allocs
      header := (Bump.InMemory.headerAt_congr fun x hx =>
        hchanges.apply fun hx' => (hown x hx').2 hx).trans hsim.represents.header }
  header := hsim.header
  agrees := hsim.agrees.trans (hchanges.agreeOn fun x hx => (hown x hx).1)

/-- A request that leaves the kept bytes alone. -/
theorem Simulates.alloc (hsim : Simulates keep reads m h bump) (hreads : ∀ x, reads x → keep x)
    (hspared : ∀ array bump', Bump.allocAligned hhdmBase answers bump size alignment =
      .ok (array, bump') → ∀ x, Touches bump bump' x → ¬ keep x) :
    Related (fun a b => (a.1 = b.1 ∧ Simulates keep reads m b.2 a.2 ∧ AgreeOn keep h.mem b.2.mem) ∧
        Bump.allocAligned hhdmBase answers bump size alignment = .ok a)
      (Bump.allocAligned hhdmBase answers bump size alignment)
      (Bump.InMemory.allocAligned hhdmBase answers h size alignment) := by
  have hlockstep := (@Bump.InMemory.allocAligned_lockstep hhdmBase answers h bump hsim.represents
    size alignment).left_eq
  revert hlockstep
  cases hideal : Bump.allocAligned hhdmBase answers bump size alignment with
  | error stop =>
    cases Bump.InMemory.allocAligned hhdmBase answers h size alignment with
    | error stop' => exact fun hstop => hstop
    | ok result => exact fun hfalse => hfalse
  | ok ideal =>
    obtain ⟨array, bump'⟩ := ideal
    cases Bump.InMemory.allocAligned hhdmBase answers h size alignment with
    | error stop' => exact fun hfalse => hfalse
    | ok result =>
      obtain ⟨array', h'⟩ := result
      rintro ⟨⟨hsame, hrep, hchanges⟩, -⟩
      have hmiss := hspared array bump' hideal
      have hagree : AgreeOn keep h.mem h'.mem := hchanges.agreeOn hmiss
      refine ⟨⟨hsame, ⟨hrep, fun x hx => hmiss x (.inr (.inl ?_)), ?_⟩, hagree⟩, rfl⟩
      · rwa [hrep.currentRegion] at hx
      · exact hsim.agrees.trans (hagree.mono hreads)

end Simulates

end InMemory

end Octiron.DeviceTree
