import Octiron.Lib.ByteMemory

/-! Tables in memory: columns of elements of one width each, that are filled row by row.
Columns that lie apart hold in the end what was put into them. -/
namespace Octiron.Lib.Tables

open Word ByteMemory

/-- An array of elements of so many bytes. -/
structure Column where
  base : Addr
  width : Nat

namespace Column

variable (c : Column)

def element (i : Nat) : Addr := c.base + BitVec.ofNat 64 (c.width * i)

/-- The bytes of the first `n` elements. -/
def Covers (n : Nat) (x : Addr) : Prop := Within x c.base (c.width * n)

def get (m : Mem) (i : Nat) : Nat := load m (c.element i) c.width

def put (m : Mem) (i v : Nat) : Mem := store m (c.element i) c.width v

variable {c} {n i k : Nat} {x : Addr}

theorem covers_element (hi : i < n) (hn : c.width * n ≤ 2 ^ 64)
    (hx : Within x (c.element i) c.width) : c.Covers n x := by
  refine within_of_offset ?_ hn hx
  calc c.width * i + c.width = c.width * (i + 1) := (Nat.mul_succ c.width i).symm
    _ ≤ c.width * n := Nat.mul_le_mul_left c.width hi

theorem changesOnly_put {m : Mem} {v : Nat} (hi : i < n) (hn : c.width * n ≤ 2 ^ 64) :
    ChangesOnly (c.Covers n) m (c.put m i v) :=
  (changesOnly_store m (c.element i) c.width v).mono fun _ hx => covers_element hi hn hx

/-- Two elements of a column. -/
theorem apart_elements (hi : i < n) (hk : k < n) (hne : i ≠ k) (hn : c.width * n ≤ 2 ^ 64) :
    Apart (c.element i) c.width (c.element k) c.width := by
  have hmul : ∀ j l, j < l → c.width * j + c.width ≤ c.width * l := fun j l hjl =>
    (Nat.mul_succ c.width j).symm.le.trans (Nat.mul_le_mul_left c.width hjl)
  refine apart_offsets c.base ((hmul i n hi).trans hn) ((hmul k n hk).trans hn) ?_
  rcases Nat.lt_or_gt_of_ne hne with hlt | hgt
  · exact .inl (hmul i k hlt)
  · exact .inr (hmul k i hgt)

end Column

/-- Put one value into each column. -/
def putRow (m : Mem) (i : Nat) : List Column → List Nat → Mem
  | c :: columns, v :: values => putRow (c.put m i v) i columns values
  | _, _ => m

/-- One row after the other, from row `i` on. -/
def putRows (columns : List Column) (m : Mem) (i : Nat) : List (List Nat) → Mem
  | [] => m
  | row :: rows => putRows columns (putRow m i columns row) (i + 1) rows

/-- The columns have room for `n` rows and lie apart. -/
def Separate (n : Nat) (columns : List Column) : Prop :=
  columns.Pairwise fun c d => Apart c.base (c.width * n) d.base (d.width * n)

section

variable {m : Mem} {columns : List Column} {c : Column} {values : List Nat} {rows : List (List Nat)}
  {n i k : Nat}

theorem changesOnly_putRow : ChangesOnly
    (fun x => ∃ c ∈ columns, Within x (c.element i) c.width) m (putRow m i columns values) := by
  induction columns generalizing m values with
  | nil => exact .refl _ m
  | cons c columns ih =>
    cases values with
    | nil => exact .refl _ m
    | cons v values =>
      have hfirst := (changesOnly_store m (c.element i) c.width v).mono
        fun x hx => (⟨c, List.mem_cons_self, hx⟩ : ∃ d ∈ c :: columns, Within x (d.element i) d.width)
      refine hfirst.trans (ih.mono ?_)
      rintro x ⟨d, hd, hx⟩
      exact ⟨d, List.mem_cons_of_mem c hd, hx⟩

/-- The rows change nothing but their columns. -/
theorem changesOnly_putRows (hn : ∀ c ∈ columns, c.width * n ≤ 2 ^ 64) (hrows : i + rows.length ≤ n) :
    ChangesOnly (fun x => ∃ c ∈ columns, c.Covers n x) m (putRows columns m i rows) := by
  induction rows generalizing m i with
  | nil => exact .refl _ m
  | cons row rows ih =>
    rw [List.length_cons] at hrows
    refine (changesOnly_putRow.mono ?_).trans (ih (by omega))
    rintro x ⟨c, hc, hx⟩
    exact ⟨c, hc, Column.covers_element (by omega) (hn c hc) hx⟩

/-- What a change leaves alone is read as before. -/
theorem get_congr {own : Addr → Prop} {m' : Mem} (h : ChangesOnly own m m')
    (hwidth : c.width ≤ 2 ^ 64) (hapart : ∀ x, Within x (c.element k) c.width → ¬ own x) :
    c.get m' k = c.get m k :=
  load_congr fun _ hj => h.apply (hapart _ (within_add_ofNat _ hj hwidth))

/-- Elements of an array that a row does not reach. -/
theorem get_putRow_other (hk : k < n) (hn : c.width * n ≤ 2 ^ 64)
    (hcolumns : ∀ d ∈ columns, Apart c.base (c.width * n) d.base (d.width * n) ∨ d = c ∧ i ≠ k)
    (hroom : ∀ d ∈ columns, d.width * n ≤ 2 ^ 64) (hi : i < n) :
    c.get (putRow m i columns values) k = c.get m k := by
  refine get_congr changesOnly_putRow ?_ ?_
  · exact (Nat.le_mul_of_pos_right _ (Nat.zero_lt_of_lt hk)).trans hn
  rintro x hx ⟨d, hd, hd'⟩
  rcases hcolumns d hd with hapart | ⟨rfl, hne⟩
  · exact hapart x (Column.covers_element hk hn hx) (Column.covers_element hi (hroom d hd) hd')
  · exact Column.apart_elements hi hk hne hn x hd' hx

/-- A row is in its columns. -/
theorem get_putRow (hseparate : Separate n columns) (hroom : ∀ d ∈ columns, d.width * n ≤ 2 ^ 64)
    (hi : i < n) {j : Nat} (hj : j < columns.length) (hvalues : j < values.length) :
    columns[j].get (putRow m i columns values) i = values[j] % 256 ^ columns[j].width := by
  induction columns generalizing m values j with
  | nil => exact absurd hj (Nat.not_lt_zero j)
  | cons c columns ih =>
    obtain ⟨hfirst, hrest⟩ := List.pairwise_cons.mp hseparate
    have hroom' := fun d hd => hroom d (List.mem_cons_of_mem c hd)
    cases values with
    | nil => exact absurd hvalues (Nat.not_lt_zero j)
    | cons v values =>
      cases j with
      | zero =>
        have hc := hroom c List.mem_cons_self
        have hkept := @get_putRow_other (c.put m i v) columns c values n i i hi hc
          (fun d hd => .inl (hfirst d hd)) hroom' hi
        change c.get (putRow (c.put m i v) i columns values) i = _
        rw [hkept]
        exact load_store_same m _ _ v
          ((Nat.le_mul_of_pos_right _ (Nat.zero_lt_of_lt hi)).trans hc)
      | succ j => exact ih hrest hroom' (Nat.lt_of_succ_lt_succ hj) (Nat.lt_of_succ_lt_succ hvalues)

/-- Every element that was put into a column of its own is in it. -/
theorem get_putRows (hseparate : Separate n columns)
    (hroom : ∀ d ∈ columns, d.width * n ≤ 2 ^ 64) (hrows : i + rows.length ≤ n)
    {j : Nat} (hj : j < columns.length) (hk : k < rows.length) (hvalues : j < rows[k].length) :
    columns[j].get (putRows columns m i rows) (i + k) = rows[k][j] % 256 ^ columns[j].width := by
  induction rows generalizing m i k with
  | nil => exact absurd hk (Nat.not_lt_zero k)
  | cons row rows ih =>
    rw [List.length_cons] at hrows hk
    cases k with
    | zero =>
      have hput := @get_putRow m columns row n i hseparate hroom (by omega) j hj hvalues
      change columns[j].get (putRows columns (putRow m i columns row) (i + 1) rows) i =
        row[j] % 256 ^ columns[j].width
      rw [← hput]
      -- the rows that follow do not come back to row `i`
      suffices hlater : ∀ (later : List (List Nat)) (m : Mem) (l : Nat), i < l →
          l + later.length ≤ n →
          columns[j].get (putRows columns m l later) i = columns[j].get m i from
        hlater rows _ (i + 1) (Nat.lt_succ_self i) (by omega)
      intro later
      induction later with
      | nil => exact fun _ _ _ _ => rfl
      | cons row later ih =>
        intro m l hl hlater
        rw [List.length_cons] at hlater
        rw [putRows, ih _ _ (by omega) (by omega)]
        refine get_putRow_other (by omega) (hroom _ (List.getElem_mem hj)) ?_ hroom (by omega)
        intro d hd
        obtain ⟨j', hj', rfl⟩ := List.getElem_of_mem hd
        rcases Nat.lt_trichotomy j j' with hlt | rfl | hgt
        · exact .inl (List.pairwise_iff_getElem.mp hseparate j j' hj hj' hlt)
        · exact .inr ⟨rfl, by omega⟩
        · exact .inl (List.pairwise_iff_getElem.mp hseparate j' j hj' hj hgt).symm
    | succ k =>
      have hrest := @ih (putRow m i columns row) (i + 1) k (by omega) (by omega) hvalues
      rwa [Nat.add_right_comm, Nat.add_assoc] at hrest

/-- Every element of these rows is in its column. -/
def RowsHeld (m : Mem) (columns : List Column) (rows : List (List Nat)) : Prop :=
  ∀ k (hk : k < rows.length) j (hj : j < columns.length) (hvalues : j < rows[k].length),
    columns[j].get m k = rows[k][j] % 256 ^ columns[j].width

theorem rowsHeld_putRows (hseparate : Separate n columns)
    (hroom : ∀ d ∈ columns, d.width * n ≤ 2 ^ 64) (hrows : rows.length ≤ n) :
    RowsHeld (putRows columns m 0 rows) columns rows := by
  intro k hk j hj hvalues
  have hget := @get_putRows m columns rows n 0 k hseparate hroom (by omega) j hj hk hvalues
  rwa [Nat.zero_add] at hget

/-- They stay there as long as the columns are left alone. -/
theorem RowsHeld.congr {keep : Addr → Prop} {m' : Mem} (h : RowsHeld m columns rows)
    (hagree : AgreeOn keep m m') (hroom : ∀ d ∈ columns, d.width * n ≤ 2 ^ 64)
    (hrows : rows.length ≤ n) (hkeep : ∀ d ∈ columns, ∀ x, d.Covers n x → keep x) :
    RowsHeld m' columns rows := by
  intro k hk j hj hvalues
  have hmem := List.getElem_mem hj
  rw [← h k hk j hj hvalues]
  refine load_congr fun i hi => hagree _ (hkeep _ hmem _ ?_)
  refine Column.covers_element (hk.trans_le hrows) (hroom _ hmem) (within_add_ofNat _ hi ?_)
  exact (Nat.le_mul_of_pos_right _ (Nat.zero_lt_of_lt (hk.trans_le hrows))).trans (hroom _ hmem)

end

end Octiron.Lib.Tables
