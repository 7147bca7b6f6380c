import Mathlib.Tactic.Common

/-! Indented listings.  A list of trees is written row by row, each row behind two blanks
for each level it is down, and is read back from the blanks alone. -/
namespace Octiron.Lib.Listing

/-- A list of siblings, each with its children. -/
inductive Outline (α : Type) where
  | nil
  | item (label : α) (children next : Outline α)
  deriving DecidableEq

section Rows

variable {α : Type}

namespace Outline

def append : Outline α → Outline α → Outline α
  | nil, outline => outline
  | item label children next, outline => item label children (next.append outline)

/-- Every label satisfies `p`. -/
def All (p : α → Prop) : Outline α → Prop
  | nil => True
  | item label children next => p label ∧ children.All p ∧ next.All p

/-- The labels from the top down, with their depths. -/
def rows (depth : Nat) : Outline α → List (Nat × α)
  | nil => []
  | item label children next => (depth, label) :: (children.rows (depth + 1) ++ next.rows depth)

end Outline

/-- Below a row are the deeper ones that come next.  Each turn takes one row. -/
def ofRows : Nat → List (Nat × α) → Outline α
  | 0, _ => .nil
  | _ + 1, [] => .nil
  | turns + 1, row :: rest =>
    .item row.2 (ofRows turns (rest.takeWhile fun other => row.1 < other.1))
      (ofRows turns (rest.dropWhile fun other => row.1 < other.1))

variable {outline : Outline α} {depth turns : Nat} {p : α → Prop}

namespace Outline

@[simp] theorem append_nil (outline : Outline α) : outline.append nil = outline := by
  induction outline with
  | nil => rfl
  | item label children next _ ih => rw [append, ih]

theorem depth_le_of_mem_rows {row : Nat × α} (h : row ∈ outline.rows depth) : depth ≤ row.1 := by
  induction outline generalizing depth with
  | nil => exact nomatch h
  | item label children next ih ih' =>
    rcases List.mem_cons.mp h with rfl | h
    · exact Nat.le_refl depth
    rcases List.mem_append.mp h with h | h
    · exact Nat.le_of_succ_le (ih h)
    · exact ih' h

theorem All.rows (h : outline.All p) : ∀ row ∈ outline.rows depth, p row.2 := by
  induction outline generalizing depth with
  | nil => exact fun row hrow => nomatch hrow
  | item label children next ih ih' =>
    intro row hrow
    rcases List.mem_cons.mp hrow with rfl | hrow
    · exact h.1
    rcases List.mem_append.mp hrow with hrow | hrow
    · exact ih h.2.1 row hrow
    · exact ih' h.2.2 row hrow

/-- Siblings begin at the depth of the row before the children. -/
theorem dropWhile_rows : (outline.rows depth).dropWhile (fun other => decide (depth < other.1)) =
    outline.rows depth := by
  cases outline with
  | nil => rfl
  | item label children next => exact List.dropWhile_cons_of_neg (by simp)

theorem takeWhile_rows :
    (outline.rows depth).takeWhile (fun other => decide (depth < other.1)) = [] := by
  cases outline with
  | nil => rfl
  | item label children next => exact List.takeWhile_cons_of_neg (by simp)

end Outline

open Outline

/-- The depths say which rows are below which. -/
theorem ofRows_rows (h : (outline.rows depth).length ≤ turns) :
    ofRows turns (outline.rows depth) = outline := by
  induction outline generalizing depth turns with
  | nil => cases turns <;> rfl
  | item label children next ih ih' =>
    rw [Outline.rows, List.length_cons, List.length_append] at h
    obtain ⟨turns, rfl⟩ : ∃ t, turns = t + 1 := ⟨turns - 1, by omega⟩
    have hdeeper : ∀ row ∈ children.rows (depth + 1), decide (depth < row.1) = true := by
      intro row hrow
      exact decide_eq_true (depth_le_of_mem_rows hrow)
    rw [Outline.rows, ofRows, List.takeWhile_append_of_pos hdeeper,
      List.dropWhile_append_of_pos hdeeper, takeWhile_rows, dropWhile_rows, List.append_nil,
      ih (by omega), ih' (by omega)]

end Rows

section Text

def indent (depth : Nat) : List Char := List.replicate (2 * depth) ' '

def writeRow (row : Nat × List Char) : List Char := indent row.1 ++ row.2 ++ ['\n']

def readRow (line : List Char) : Nat × List Char :=
  ((line.takeWhile (· == ' ')).length / 2, line.dropWhile (· == ' '))

def writeRows (rows : List (Nat × List Char)) : List Char := rows.flatMap writeRow

/-- Every line ends in a newline. -/
def readRows (text : List Char) : List (Nat × List Char) :=
  ((text.splitOn '\n').dropLast).map readRow

/-- A label that fits in a line and does not look like more blanks. -/
def IsLabel (label : List Char) : Prop := '\n' ∉ label ∧ label.head? ≠ some ' '

instance (label : List Char) : Decidable (IsLabel label) := inferInstanceAs (Decidable (_ ∧ _))

def write (outline : Outline (List Char)) : List Char := writeRows (outline.rows 0)

def read (text : List Char) : Outline (List Char) := ofRows (readRows text).length (readRows text)

variable {row : Nat × List Char} {rows : List (Nat × List Char)} {depth : Nat} {label : List Char}
  {outline : Outline (List Char)}

theorem readRow_append (h : label.head? ≠ some ' ') :
    readRow (indent depth ++ label) = (depth, label) := by
  have hblank : ∀ c ∈ indent depth, (c == ' ') = true := by
    intro c hc
    exact beq_iff_eq.mpr (List.eq_of_mem_replicate hc)
  have hlabel : label.takeWhile (· == ' ') = [] ∧ label.dropWhile (· == ' ') = label := by
    cases label with
    | nil => exact ⟨rfl, rfl⟩
    | cons c rest =>
      have hc : ¬ (c == ' ') = true := fun hc => h (congrArg some (beq_iff_eq.mp hc))
      exact ⟨List.takeWhile_cons_of_neg hc, List.dropWhile_cons_of_neg hc⟩
  rw [readRow, List.takeWhile_append_of_pos hblank, List.dropWhile_append_of_pos hblank, hlabel.1,
    hlabel.2, List.append_nil, indent, List.length_replicate, Nat.mul_div_cancel_left _ (by decide)]

theorem newline_notMem_line (h : IsLabel row.2) : '\n' ∉ indent row.1 ++ row.2 := by
  intro hmem
  rcases List.mem_append.mp hmem with hblank | hlabel
  · exact absurd (List.eq_of_mem_replicate hblank) (by decide)
  · exact h.1 hlabel

theorem splitOn_writeRows (h : ∀ row ∈ rows, IsLabel row.2) :
    (writeRows rows).splitOn '\n' = rows.map (fun row => indent row.1 ++ row.2) ++ [[]] := by
  induction rows with
  | nil => rfl
  | cons row rest ih =>
    have hline := newline_notMem_line (h row List.mem_cons_self)
    rw [writeRows, List.flatMap_cons, writeRow, List.append_assoc _ ['\n'], List.singleton_append,
      List.splitOn_append_cons_self_of_not_mem hline, ← writeRows,
      ih fun other hmem => h other (List.mem_cons_of_mem row hmem)]
    rfl

theorem readRows_writeRows (h : ∀ row ∈ rows, IsLabel row.2) : readRows (writeRows rows) = rows := by
  rw [readRows, splitOn_writeRows h, List.dropLast_concat, List.map_map]
  refine (List.map_congr_left fun row hrow => ?_).trans (List.map_id rows)
  exact readRow_append (h row hrow).2

/-- What has been written is read back. -/
theorem read_write (h : outline.All IsLabel) : read (write outline) = outline := by
  rw [read, write, readRows_writeRows h.rows]
  exact ofRows_rows (Nat.le_refl _)

end Text

end Octiron.Lib.Listing
