import LinearAssignment.Solver.Step

/-!
# Runs of the solver

A run repeats steps until the problem is solved. A problem with `n` workers is solved within
`n * n + 2 * n` steps, so `run` is given that many; `history` lists the states that a run goes
through.
-/

namespace LinearAssignment.Solver

variable {n : Nat}

/-- The number of steps within which a problem with `n` workers is solved. -/
def stepBound (n : Nat) : Nat :=
  n * n + 2 * n

/-- The state after at most `fuel` steps, which must be solved. -/
def runFor (W : CostType) : Nat → Solver n → Checked (Solver n)
  | 0, s => if s.isDone then pure s else throw .unfinished
  | fuel + 1, s => if s.isDone then pure s else do runFor W fuel (← s.step W)

/-- The solved state that a run ends in. -/
def run (W : CostType) (s : Solver n) : Checked (Solver n) :=
  s.runFor W (stepBound n)

/-- The states after each of at most `fuel` steps, up to the solved one or to a fault. -/
def historyFor (W : CostType) : Nat → Solver n → List (Solver n)
  | 0, _ => []
  | fuel + 1, s =>
    if s.isDone then []
    else match s.step W with
      | .ok next => next :: historyFor W fuel next
      | .error _ => []

/-- The states that a run goes through after the given one. -/
def history (W : CostType) (s : Solver n) : List (Solver n) :=
  s.historyFor W (stepBound n)

/-- The column of the star in each row, all of which must have one. -/
def starredColumns (s : Solver n) : Checked (List Nat) :=
  s.stars.columnOf.toList.mapM fun
    | some j => pure j.val
    | none => throw .unassignedWorker

/-- Solves the problem and fills a buffer with the column of each row. The buffer must have one
entry per worker, all of which are replaced. -/
def solveInto (W : CostType) (s : Solver n) (buffer : List Nat) :
    Checked (Solver n × List Nat) := do
  unless buffer.length = n do throw (.bufferLength buffer.length n)
  let s ← s.run W
  return (s, ← s.starredColumns)

end LinearAssignment.Solver
