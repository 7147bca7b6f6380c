import Octiron.DeviceTree.InMemory

/-! The fields of the records: what a store into one of them leaves of the others, and of
the memory around the record. -/
namespace Octiron.DeviceTree.InMemory

open Lib.Word Lib.ByteMemory

section Words

variable {m m' : Mem} {p i j : U64} {n : Nat}

/-- A part of a record. -/
theorem within_field {x : U64} {k : Nat} (hx : Within x (p + i) n) (hfit : i.toNat + n ≤ k)
    (hk : k ≤ 2 ^ 64) : Within x p k := by
  have hoffset : p + i = p + BitVec.ofNat 64 i.toNat := by
    rw [BitVec.ofNat_toNat, BitVec.setWidth_eq]
  rw [hoffset] at hx
  exact within_of_offset hfit hk hx

theorem apart_fields {k : Nat} (hi : i.toNat + n ≤ 2 ^ 64) (hj : j.toNat + k ≤ 2 ^ 64)
    (h : i.toNat + n ≤ j.toNat ∨ j.toNat + k ≤ i.toNat) : Apart (p + i) n (p + j) k := by
  have happart := apart_offsets p hi hj h
  simp only [BitVec.ofNat_toNat, BitVec.setWidth_eq] at happart
  exact happart

theorem load64_store64_field {v : U64} (hi : i.toNat + 8 ≤ 2 ^ 64) (hj : j.toNat + 8 ≤ 2 ^ 64)
    (h : i.toNat + 8 ≤ j.toNat ∨ j.toNat + 8 ≤ i.toNat) :
    load64 (store64 m (p + j) v) (p + i) = load64 m (p + i) :=
  load64_store64_apart (apart_fields hi hj h)

theorem load64_store32_field {v : U32} (hi : i.toNat + 8 ≤ 2 ^ 64) (hj : j.toNat + 4 ≤ 2 ^ 64)
    (h : i.toNat + 8 ≤ j.toNat ∨ j.toNat + 4 ≤ i.toNat) :
    load64 (store32 m (p + j) v) (p + i) = load64 m (p + i) := by
  rw [load64, store32, load_store_apart (by decide) (apart_fields hi hj h)]
  rfl

theorem load32_store64_field {v : U64} (hi : i.toNat + 4 ≤ 2 ^ 64) (hj : j.toNat + 8 ≤ 2 ^ 64)
    (h : i.toNat + 4 ≤ j.toNat ∨ j.toNat + 8 ≤ i.toNat) :
    load32 (store64 m (p + j) v) (p + i) = load32 m (p + i) := by
  rw [load32, store64, load_store_apart (by decide) (apart_fields hi hj h)]
  rfl

theorem load32_store32_field {v : U32} (hi : i.toNat + 4 ≤ 2 ^ 64) (hj : j.toNat + 4 ≤ 2 ^ 64)
    (h : i.toNat + 4 ≤ j.toNat ∨ j.toNat + 4 ≤ i.toNat) :
    load32 (store32 m (p + j) v) (p + i) = load32 m (p + i) := by
  rw [load32, store32, load_store_apart (by decide) (apart_fields hi hj h)]
  rfl

@[simp] theorem load32_store32_same (m : Mem) (a : U64) (v : U32) :
    load32 (store32 m a v) a = v := by
  rw [load32, store32, load_store_same m a 4 v.toNat (by decide), show 256 ^ 4 = 2 ^ 32 by rfl,
    Nat.mod_eq_of_lt v.isLt]
  simp

theorem load32_congr (h : ∀ x, Within x p 4 → m' x = m x) : load32 m' p = load32 m p := by
  unfold load32
  rw [load_congr fun k hk => h _ (within_add_ofNat p hk (by decide))]

theorem changesOnly_store32 (m : Mem) (a : U64) (v : U32) :
    ChangesOnly (Within · a 4) m (store32 m a v) := changesOnly_store m a 4 v.toNat

end Words

section Congr

variable {m m' : Mem} {p : U64}

theorem viewAt_congr (h : ∀ x, Within x p 16 → m' x = m x) : viewAt m' p = viewAt m p := by
  have hfirst := @load64_congr m' m p fun x hx => h x (hx.trans (by decide))
  have hsecond := @load64_congr m' m (p + 8) fun x hx =>
    h x (within_field hx (by decide) (by decide))
  rw [viewAt, viewAt, hfirst, hsecond]

/-- The part of a node that the pass writes. -/
theorem cellsAt_congr (h : ∀ x, Within x (p + 16) 8 → m' x = m x) :
    cellsAt m' p = cellsAt m p := by
  have hsplit : p + 20 = p + 16 + 4 := by
    rw [BitVec.add_assoc]
    rfl
  have hfirst := @load32_congr m m' (p + 16) fun x hx => h x (hx.trans (by decide))
  have hsecond := @load32_congr m m' (p + 16 + 4) fun x hx =>
    h x (within_field hx (by decide) (by decide))
  rw [cellsAt, cellsAt, hfirst, hsplit, hsecond]

/-- A node whose record is left alone. -/
structure SameNode (m m' : Mem) (p : U64) : Prop where
  cells : cellsAt m' p = cellsAt m p
  properties : propertiesAt m' p = propertiesAt m p
  parent : parentAt m' p = parentAt m p
  children : childrenAt m' p = childrenAt m p
  nextSibling : nextSiblingAt m' p = nextSiblingAt m p

theorem sameNode_of_bytes (h : ∀ x, Within x p 56 → m' x = m x) : SameNode m m' p where
  cells := cellsAt_congr fun x hx => h x (within_field hx (by decide) (by decide))
  properties := load64_congr fun x hx => h x (within_field hx (by decide) (by decide))
  parent := load64_congr fun x hx => h x (within_field hx (by decide) (by decide))
  children := load64_congr fun x hx => h x (within_field hx (by decide) (by decide))
  nextSibling := load64_congr fun x hx => h x (within_field hx (by decide) (by decide))

theorem dataAt_congr (h : ∀ x, Within x p 80 → m' x = m x) : dataAt m' p = dataAt m p := by
  have hword : ∀ i : U64, i.toNat + 8 ≤ 80 → load64 m' (p + i) = load64 m (p + i) := fun i hi =>
    load64_congr fun x hx => h x (within_field hx hi (by decide))
  unfold dataAt
  simp only [hword 32 (by decide), hword 40 (by decide), hword 48 (by decide),
    hword 56 (by decide), hword 64 (by decide), hword 72 (by decide)]

/-- A property whose record is left alone. -/
structure SameProperty (m m' : Mem) (p : U64) : Prop where
  name : viewAt m' p = viewAt m p
  next : nextPropertyAt m' p = nextPropertyAt m p
  type : typeAt m' p = typeAt m p
  data : dataAt m' p = dataAt m p

theorem sameProperty_of_bytes (h : ∀ x, Within x p 80 → m' x = m x) : SameProperty m m' p where
  name := viewAt_congr fun x hx => h x (hx.trans (by decide))
  next := load64_congr fun x hx => h x (within_field hx (by decide) (by decide))
  type := load32_congr fun x hx => h x (within_field hx (by decide) (by decide))
  data := dataAt_congr h

end Congr

section Stores

variable {m : Mem} {p : U64} {type : PropertyType} {data : Data} {cells : U32}

theorem changesOnly_field64 {i v : U64} {n : Nat} (h : i.toNat + 8 ≤ n) (hn : n ≤ 2 ^ 64) :
    ChangesOnly (Within · p n) m (store64 m (p + i) v) :=
  (changesOnly_store64 m _ v).mono fun _ hx => within_field hx h hn

theorem changesOnly_storeData : ChangesOnly (Within · (p + 24) 56) m (storeData m p data) := by
  have hword : ∀ (m : Mem) (i v : U64), i.toNat + 8 ≤ 56 →
      ChangesOnly (Within · (p + 24) 56) m (store64 m (p + 24 + i) v) :=
    fun m i v hi => changesOnly_field64 hi (by decide)
  have hsplit : ∀ i j : U64, 24 + i = j → p + j = p + 24 + i := by
    rintro i j rfl
    rw [BitVec.add_assoc]
  unfold storeData
  simp only [hsplit 8 32 rfl, hsplit 16 40 rfl, hsplit 24 48 rfl, hsplit 32 56 rfl,
    hsplit 40 64 rfl, hsplit 48 72 rfl]
  exact (((((hword _ 8 _ (by decide)).trans (hword _ 16 _ (by decide))).trans
    (hword _ 24 _ (by decide))).trans (hword _ 32 _ (by decide))).trans
    (hword _ 40 _ (by decide))).trans (hword _ 48 _ (by decide))

/-- The union and the type, which stand behind the name and the link. -/
theorem changesOnly_setProperty :
    ChangesOnly (Within · (p + 24) 56) m (setProperty m p type data) :=
  ((changesOnly_store32 m (p + 24) _).mono fun _ hx => hx.trans (by decide)).trans
    changesOnly_storeData

theorem dataAt_storeData (m : Mem) (p : U64) (data : Data) : dataAt (storeData m p data) p = data := by
  unfold dataAt storeData
  dsimp only
  simp (disch := decide) only [load64_store64_field, load64_store64_same]

@[simp] theorem dataAt_setProperty (m : Mem) (p : U64) (type : PropertyType) (data : Data) :
    dataAt (setProperty m p type data) p = data := dataAt_storeData _ p data

@[simp] theorem typeAt_setProperty (m : Mem) (p : U64) (type : PropertyType) (data : Data) :
    typeAt (setProperty m p type data) p = type.val := by
  unfold typeAt setProperty storeData
  dsimp only
  simp (disch := decide) only [load32_store64_field, load32_store32_same]

theorem apart_name : Apart p 24 (p + 24) 56 := by
  have happart := @apart_fields p 0 24 24 56 (by decide) (by decide) (.inl (by decide))
  rwa [show p + 0 = p by simp] at happart

theorem changesOnly_setAddressCells :
    ChangesOnly (Within · (p + 16) 8) m (setAddressCells m p cells) :=
  (changesOnly_store32 m (p + 16) cells).mono fun _ hx => hx.trans (by decide)

theorem changesOnly_setSizeCells :
    ChangesOnly (Within · (p + 16) 8) m (setSizeCells m p cells) := by
  have hsplit : p + 20 = p + 16 + 4 := by
    rw [BitVec.add_assoc]
    rfl
  rw [setSizeCells, hsplit]
  exact (changesOnly_store32 m _ cells).mono fun _ hx => within_field hx (by decide) (by decide)

@[simp] theorem cellsAt_setAddressCells (m : Mem) (p : U64) (cells : U32) :
    cellsAt (setAddressCells m p cells) p = { cellsAt m p with address := cells } := by
  unfold cellsAt setAddressCells
  rw [load32_store32_same, load32_store32_field (by decide) (by decide) (.inr (by decide))]

@[simp] theorem cellsAt_setSizeCells (m : Mem) (p : U64) (cells : U32) :
    cellsAt (setSizeCells m p cells) p = { cellsAt m p with size := cells } := by
  unfold cellsAt setSizeCells
  rw [load32_store32_same, load32_store32_field (by decide) (by decide) (.inl (by decide))]

@[simp] theorem viewAt_storeView (m : Mem) (a : U64) (view : StrView) :
    viewAt (storeView m a view) a = view := by
  have hfirst := @load64_store64_field (store64 m a view.data) a 0 8 view.size (by decide)
    (by decide) (.inl (by decide))
  rw [show a + 0 = a by simp] at hfirst
  rw [viewAt, storeView, hfirst, load64_store64_same, load64_store64_same]

theorem changesOnly_storeView (m : Mem) (a : U64) (view : StrView) :
    ChangesOnly (Within · a 16) m (storeView m a view) :=
  ((changesOnly_store64 m a _).mono fun _ hx => hx.trans (by decide)).trans
    ((changesOnly_store64 _ (a + 8) _).mono fun _ hx => within_field hx (by decide) (by decide))

end Stores

section Images

/-- The bytes of a word, the least significant one first. -/
def wordBytes (v : U64) : List U8 := (List.range 8).map fun i => (v >>> (8 * i)).setWidth 8

/-- A record of a node without a name. -/
def nodeBytes (cells : Cells) (properties parent children nextSibling : U64) : List U8 :=
  let words : List U64 :=
    [0, 0, cells.address.setWidth 64 ||| cells.size.setWidth 64 <<< 32, properties, parent, children,
      nextSibling]
  words.flatMap wordBytes

/-- A property that has not been rewritten. -/
def propertyBytes (name : StrView) (nextProperty : U64) (raw : ByteView) : List U8 :=
  let words : List U64 := [name.data, name.size, nextProperty, 0, raw.data, raw.size, 0, 0, 0, 0]
  words.flatMap wordBytes

/-- Bytes at some places, and zeros elsewhere. -/
def ofPieces (pieces : List (U64 × List U8)) : Mem := fun x =>
  (pieces.findSome? fun piece => piece.2[(x - piece.1).toNat]?).getD 0

end Images

end Octiron.DeviceTree.InMemory
