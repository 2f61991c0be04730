import LinearAssignment.CostMatrix.Basic
import LinearAssignment.Solver.Cover
import LinearAssignment.Solver.Primes
import LinearAssignment.Solver.Stars

/-!
# The state of a solver

A solver holds a reduced cost matrix, whose zeros are the pairs that may be matched, the stars that
are matched so far, and the primes and covers with which the next change of the matching is sought.
Its phase says what the next step does. The phase before an augmentation carries the prime from
which the augmenting path starts, so there is no state in which that prime is needed and missing.
-/

namespace LinearAssignment

/-- What the next step of a solver does. -/
inductive Phase (n : Nat)
  /-- Lower every row by its minimum. -/
  | reduce
  /-- Star zeros greedily. -/
  | star
  /-- Cover the columns of the stars. -/
  | cover
  /-- Prime uncovered zeros. -/
  | prime
  /-- Augment the stars along the path from the prime in this row and column. -/
  | augment (row column : Fin n)
  /-- Shift costs to get a new zero. -/
  | shift
  /-- Nothing: the stars are an optimal assignment. -/
  | done
deriving DecidableEq, Repr

/-- The name of a phase. -/
def Phase.name {n : Nat} : Phase n → String
  | reduce => "One"
  | star => "Two"
  | cover => "Three"
  | prime => "Four"
  | augment _ _ => "Five"
  | shift => "Six"
  | done => "Done"

/-- The state of a solver for `n` workers and `n` tasks. -/
structure Solver (n : Nat) where
  /-- The reduced costs. -/
  costs : Grid n Int
  /-- The pairs matched so far. -/
  stars : Stars n
  /-- The primed zeros. -/
  primes : Primes n
  /-- The covered rows and columns. -/
  cover : Cover n
  /-- What the next step does. -/
  phase : Phase n
  /-- The number of steps taken. -/
  steps : Nat
deriving DecidableEq

namespace Solver

variable {n : Nat}

/-- The state before the first step. -/
def initial (costs : Grid n Int) : Solver n where
  costs := costs
  stars := Stars.empty n
  primes := Primes.empty n
  cover := Cover.empty n
  phase := .reduce
  steps := 0

/-- A solver for a cost matrix, which must have a row. -/
def ofMatrix (m : CostMatrix Int) : Checked (Solver m.size) :=
  if m.size = 0 then .error .noWorkers else .ok (initial m.grid)

/-- The reduced costs as a matrix. -/
def matrix (s : Solver n) : CostMatrix Int where
  size := n
  grid := s.costs

/-- Whether the problem is solved. -/
def isDone (s : Solver n) : Bool :=
  s.phase == .done

/-! ### Looking at the marks

Rows and columns are given as numbers here. A row outside of the problem is a fault, and so is a
column whose cover is asked for; a mark in a column outside of the problem is just not there. -/

/-- The entry of a table at a number. -/
def lookUp {α : Type} (table : Table n α) (i : Nat) : Checked α :=
  if h : i < n then .ok (table.entry ⟨i, h⟩) else .error .outOfRange

/-- Whether there is a star in row `i` and column `j`. -/
def isStarred (s : Solver n) (i j : Nat) : Checked Bool := do
  return (← lookUp s.stars.columnOf i).any fun k ↦ k.val == j

/-- Whether there is a prime in row `i` and column `j`. -/
def isPrimed (s : Solver n) (i j : Nat) : Checked Bool := do
  return (← lookUp s.primes.columnOf i).any fun k ↦ k.val == j

/-- Whether row `i` is covered. -/
def isRowCovered (s : Solver n) (i : Nat) : Checked Bool :=
  lookUp s.cover.rows i

/-- Whether column `j` is covered. -/
def isColumnCovered (s : Solver n) (j : Nat) : Checked Bool :=
  lookUp s.cover.columns j

/-- The column of each row, once the problem is solved. -/
def assignment (s : Solver n) : Option (List Nat) :=
  if s.isDone then s.stars.columnOf.toList.mapM fun j ↦ j.map Fin.val else none

end Solver

end LinearAssignment
