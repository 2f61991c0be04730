import LinearAssignment.Fault
import LinearAssignment.Grid

/-!
# Stars

The stars are the pairs of a worker and a task that are matched so far, at most one in each row and
in each column. They are kept as two tables, the starred column of each row and the starred row of
each column, so that both can be looked up.
-/

namespace LinearAssignment

/-- The matched pairs of an `n × n` problem. -/
structure Stars (n : Nat) where
  /-- The column of the star in each row. -/
  columnOf : Table n (Option (Fin n))
  /-- The row of the star in each column. -/
  rowOf : Table n (Option (Fin n))
deriving DecidableEq, Repr

namespace Stars

variable {n : Nat}

/-- No stars. -/
def empty (n : Nat) : Stars n where
  columnOf := Vector.replicate n none
  rowOf := Vector.replicate n none

/-- Whether there is a star in row `i` and column `j`. -/
def contains (stars : Stars n) (i j : Fin n) : Bool :=
  stars.columnOf.entry i == some j

/-- Adds a star, whose row and column must be free. -/
def insert (stars : Stars n) (i j : Fin n) : Checked (Stars n) :=
  if (stars.columnOf.entry i).isSome then .error (.rowStarred i)
  else if (stars.rowOf.entry j).isSome then .error (.columnStarred j)
  else .ok ⟨stars.columnOf.put i (some j), stars.rowOf.put j (some i)⟩

/-- Takes a star away, which must be there. -/
def erase (stars : Stars n) (i j : Fin n) : Checked (Stars n) :=
  if stars.contains i j then .ok ⟨stars.columnOf.put i none, stars.rowOf.put j none⟩
  else .error (.notStarred i j)

/-- The number of stars. -/
def size (stars : Stars n) : Nat :=
  stars.columnOf.toList.countP Option.isSome

/-- The stars from the first row to the last. -/
def toList (stars : Stars n) : List (Fin n × Fin n) :=
  (List.finRange n).filterMap fun i ↦ (stars.columnOf.entry i).map fun j ↦ (i, j)

/-- The star of a row is listed exactly with its column. -/
theorem mem_toList {stars : Stars n} {i j : Fin n} :
    (i, j) ∈ stars.toList ↔ stars.columnOf.entry i = some j := by
  simp [toList]

end Stars

end LinearAssignment
