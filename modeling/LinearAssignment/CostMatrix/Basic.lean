import LinearAssignment.CostType
import LinearAssignment.Grid
import LinearAssignment.Word

/-!
# Cost matrices

A cost matrix is a square grid together with its size. Row `i` holds the costs of worker `i`, and
column `j` those of task `j`. Asking for an entry outside of the matrix is a fault that names the
position; asking for a row works on the range `i * n .. (i + 1) * n` of all entries, so that a
matrix of size zero has an empty row at every index.
-/

namespace LinearAssignment

/-- The smallest of some costs, or zero if there are none. -/
def leastCost (costs : List Int) : Int :=
  costs.min?.getD 0

/-- A square matrix of costs. -/
structure CostMatrix (α : Type) where
  /-- The number of rows, which is the number of columns. -/
  size : Nat
  /-- The entries. -/
  grid : Grid size α
deriving DecidableEq

namespace CostMatrix

variable {α : Type}

/-- Whether there are no rows. -/
def isEmpty (m : CostMatrix α) : Bool :=
  m.size == 0

/-- The rows from top to bottom. -/
def rows (m : CostMatrix α) : List (List α) :=
  m.grid.rows

/-- All entries in row-major order. -/
def entries (m : CostMatrix α) : List α :=
  m.grid.entries

/-- The entry in row `i` and column `j`. -/
def get (m : CostMatrix α) (i j : Nat) : Checked α :=
  if h : i < m.size ∧ j < m.size then .ok (m.grid.cell ⟨i, h.1⟩ ⟨j, h.2⟩)
  else .error (.position i j)

/-- The matrix with the entry in row `i` and column `j` replaced. -/
def set (m : CostMatrix α) (i j : Nat) (c : α) : Checked (CostMatrix α) :=
  if h : i < m.size ∧ j < m.size then .ok { m with grid := m.grid.put ⟨i, h.1⟩ ⟨j, h.2⟩ c }
  else .error (.position i j)

/-- Checks the range of the entries of row `i`: its bounds must be words, and it must end within
the matrix. -/
def checkRow (m : CostMatrix α) (i : Nat) : Checked Unit := do
  let _ ← Word.mul i m.size
  let next ← Word.add i 1
  let stop ← Word.mul next m.size
  unless stop ≤ m.size * m.size do throw .outOfRange

/-- The entries of row `i`. -/
def row (m : CostMatrix α) (i : Nat) : Checked (List α) := do
  m.checkRow i
  return if h : i < m.size then (Table.entry m.grid ⟨i, h⟩).toList else []

/-! ### Costs -/

/-- The total cost of an assignment, which gives a column for each row. It is added up from the
first row on, and every partial sum has to be a cost of the type. -/
def totalCost (W : CostType) (m : CostMatrix Int) (assignment : List Nat) : Checked Int := do
  unless assignment.length = m.size do
    throw (.assignmentLength assignment.length m.size)
  assignment.zipIdx.foldlM (fun total (j, i) ↦ do W.add total (← m.get i j)) 0

/-- The smallest entry of row `i`, or zero if the row is empty. -/
def rowMinimum (m : CostMatrix Int) (i : Nat) : Checked Int := do
  return leastCost (← m.row i)

/-- The matrix with every entry of row `i` lowered by `c`. -/
def lowerRow (W : CostType) (m : CostMatrix Int) (i : Nat) (c : Int) :
    Checked (CostMatrix Int) := do
  m.checkRow i
  if h : i < m.size then
    let lowered ← Vector.ofFnM fun j ↦ W.sub (m.grid.cell ⟨i, h⟩ j) c
    return { m with grid := Table.put m.grid ⟨i, h⟩ lowered }
  else
    return m

/-! ### Laws -/

theorem get_eq_ok_iff {m : CostMatrix α} {i j : Nat} {c : α} :
    m.get i j = .ok c ↔ ∃ (hi : i < m.size) (hj : j < m.size), m.grid.cell ⟨i, hi⟩ ⟨j, hj⟩ = c := by
  unfold get
  split <;> rename_i h
  · simp [h]
  · simp only [reduceCtorEq, false_iff, not_exists]
    exact fun hi hj _ ↦ h ⟨hi, hj⟩

end CostMatrix

end LinearAssignment
