import LinearAssignment.Grid
import LinearAssignment.Word

/-!
# Covers

A cover is a set of rows and columns. The number of covered columns is counted along, so that a
complete matching is noticed without a scan; covering a covered column, or uncovering one that is
not covered, changes nothing.
-/

namespace LinearAssignment

/-- The covered rows and columns of an `n × n` problem. -/
structure Cover (n : Nat) where
  /-- Whether each row is covered. -/
  rows : Table n Bool
  /-- Whether each column is covered. -/
  columns : Table n Bool
  /-- How many columns are covered. -/
  columnCount : Nat
deriving DecidableEq, Repr

namespace Cover

variable {n : Nat}

/-- Nothing covered. -/
def empty (n : Nat) : Cover n where
  rows := Vector.replicate n false
  columns := Vector.replicate n false
  columnCount := 0

/-- Covers a row. -/
def coverRow (cover : Cover n) (i : Fin n) : Cover n :=
  { cover with rows := cover.rows.put i true }

/-- Covers a column. -/
def coverColumn (cover : Cover n) (j : Fin n) : Checked (Cover n) :=
  if cover.columns.entry j then pure cover
  else do
    let count ← Word.add cover.columnCount 1
    return { cover with columns := cover.columns.put j true, columnCount := count }

/-- Uncovers a column. -/
def uncoverColumn (cover : Cover n) (j : Fin n) : Checked (Cover n) :=
  if cover.columns.entry j then do
    let count ← Word.sub cover.columnCount 1
    return { cover with columns := cover.columns.put j false, columnCount := count }
  else pure cover

/-- The covered rows in increasing order. -/
def coveredRows (cover : Cover n) : List (Fin n) :=
  (List.finRange n).filter fun i ↦ cover.rows.entry i

/-- The covered columns in increasing order. -/
def coveredColumns (cover : Cover n) : List (Fin n) :=
  (List.finRange n).filter fun j ↦ cover.columns.entry j

/-- The rows that are not covered, in increasing order. -/
def uncoveredRows (cover : Cover n) : List (Fin n) :=
  (List.finRange n).filter fun i ↦ !cover.rows.entry i

/-- The columns that are not covered, in increasing order. -/
def uncoveredColumns (cover : Cover n) : List (Fin n) :=
  (List.finRange n).filter fun j ↦ !cover.columns.entry j

theorem mem_uncoveredRows {cover : Cover n} {i : Fin n} :
    i ∈ cover.uncoveredRows ↔ cover.rows.entry i = false := by
  simp [uncoveredRows]

theorem mem_uncoveredColumns {cover : Cover n} {j : Fin n} :
    j ∈ cover.uncoveredColumns ↔ cover.columns.entry j = false := by
  simp [uncoveredColumns]

end Cover

end LinearAssignment
