/-!
# Faults

A fault ends a computation that was asked for something that has no answer: an index outside of
its range, arithmetic that leaves a fixed width, a vector that is too long, a solver for no workers.
A fault is not an error that a caller handles; errors of the data (a shape, a line of a file) have
types of their own and are returned as values.

Each fault says what went wrong, and the wording is in one place, `Fault.message`. Several faults
belong to internal checks of the solver; a run that starts from a matrix never meets them.
-/

namespace LinearAssignment

/-- The arithmetic operations that are checked against a fixed width. -/
inductive Operation
  | add
  | subtract
  | multiply
deriving DecidableEq, Repr

/-- The verb of an operation, as messages use it. -/
def Operation.verb : Operation → String
  | add => "add"
  | subtract => "subtract"
  | multiply => "multiply"

/-- The causes for which a computation ends without an answer. -/
inductive Fault
  /-- The exact result of an operation does not fit the width of its operands. -/
  | overflow (op : Operation)
  /-- A vector of more bytes was asked for than any vector has. -/
  | capacity
  /-- An index or a range of indices lies outside of its table. -/
  | outOfRange
  /-- An entry was asked for outside of a cost matrix. -/
  | position (i j : Nat)
  /-- A solver was asked for a matrix without rows. -/
  | noWorkers
  /-- Workers and tasks to be paired differ in number. -/
  | unequalSides (workers tasks : Nat)
  /-- An assignment whose cost is wanted has not one entry per row. -/
  | assignmentLength (entries rows : Nat)
  /-- A buffer for the answer has not one entry per worker. -/
  | bufferLength (entries workers : Nat)
  /-- A second star in a row. -/
  | rowStarred (i : Nat)
  /-- A second star in a column. -/
  | columnStarred (j : Nat)
  /-- A star to be taken away is not there. -/
  | notStarred (i j : Nat)
  /-- A second prime in a row. -/
  | rowPrimed (i : Nat)
  /-- There is no uncovered entry to take a minimum of. -/
  | noUncoveredEntry
  /-- A starred row on an augmenting path has no prime. -/
  | unprimedRow (i : Nat)
  /-- A worker has no task although the problem is solved. -/
  | unassignedWorker
  /-- A search did not end within the number of steps that it was given. -/
  | unfinished
deriving DecidableEq, Repr

namespace Fault

/-- The text of two lengths that had to be equal. -/
def unequal (text : String) (left right : Nat) : String :=
  "assertion `left == right` failed: " ++ text ++
    "\n  left: " ++ toString left ++ "\n right: " ++ toString right

/-- The text of a state that no run reaches. -/
def unreachable (text : String) : String :=
  "internal error: entered unreachable code: " ++ text

/-- The text of a fault. -/
def message : Fault → String
  | overflow op => "attempt to " ++ op.verb ++ " with overflow"
  | capacity => "capacity overflow"
  | outOfRange => "index out of range"
  | position i j => "Invalid matrix position (" ++ toString i ++ "," ++ toString j ++ ")"
  | noWorkers => "Assignment problem must have at least one worker"
  | unequalSides workers tasks =>
    unequal "Number of workers and number of tasks must be equal" workers tasks
  | assignmentLength entries rows =>
    unequal "Assignment must have one entry per row" entries rows
  | bufferLength entries workers =>
    unequal "Assignment buffer must have one entry per worker" entries workers
  | rowStarred i => "Row " ++ toString i ++ " already has a star"
  | columnStarred j => "Column " ++ toString j ++ " already has a star"
  | notStarred i j => "(" ++ toString i ++ "," ++ toString j ++ ") is not starred"
  | rowPrimed i => "Row " ++ toString i ++ " already has a prime"
  | noUncoveredEntry => "No uncovered entry left in step 6"
  | unprimedRow i =>
    unreachable ("Starred row " ++ toString i ++ " without prime on augmenting path")
  | unassignedWorker => unreachable "Unassigned worker in solved problem"
  | unfinished => "search did not end"

end Fault

/-- A computation that gives a value or ends with a fault. -/
abbrev Checked (α : Type) := Except Fault α

end LinearAssignment
