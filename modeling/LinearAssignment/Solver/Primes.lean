import LinearAssignment.Fault
import LinearAssignment.Grid

/-!
# Primes

Primes mark zeros at which the matching may be changed, at most one in each row. They are found
while zeros are covered, and are all dropped when the matching has grown.
-/

namespace LinearAssignment

/-- The primed column of each row. -/
structure Primes (n : Nat) where
  /-- The column of the prime in each row. -/
  columnOf : Table n (Option (Fin n))
deriving DecidableEq, Repr

namespace Primes

variable {n : Nat}

/-- No primes. -/
def empty (n : Nat) : Primes n where
  columnOf := Vector.replicate n none

/-- Whether there is a prime in row `i` and column `j`. -/
def contains (primes : Primes n) (i j : Fin n) : Bool :=
  primes.columnOf.entry i == some j

/-- Adds a prime to a row that has none. -/
def insert (primes : Primes n) (i j : Fin n) : Checked (Primes n) :=
  if (primes.columnOf.entry i).isSome then .error (.rowPrimed i)
  else .ok ⟨primes.columnOf.put i (some j)⟩

/-- The primes from the first row to the last. -/
def toList (primes : Primes n) : List (Fin n × Fin n) :=
  (List.finRange n).filterMap fun i ↦ (primes.columnOf.entry i).map fun j ↦ (i, j)

/-- The prime of a row is listed exactly with its column. -/
theorem mem_toList {primes : Primes n} {i j : Fin n} :
    (i, j) ∈ primes.toList ↔ primes.columnOf.entry i = some j := by
  simp [toList]

end Primes

end LinearAssignment
