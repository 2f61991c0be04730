import LinearAssignment.CostMatrix.Build
import LinearAssignment.Solver.Message

/-!
# Optimal assignments

Whole answers without a solver in hand: an assignment of least total cost for a matrix, for a cost
function, or for two lists. An assignment lists the column of each row. Problems with at most one
worker need no search, and are answered without one.
-/

namespace LinearAssignment

/-- An assignment of least cost. -/
def assign (W : CostType) (costs : CostMatrix Int) : Checked (List Nat) :=
  match costs.size with
  | 0 => pure []
  | 1 => pure [0]
  | _ => do
    let s ← Solver.ofMatrix costs
    let (_, answer) ← s.solveInto W (List.replicate costs.size 0)
    return answer

/-- An assignment of least cost for the values of a cost function. -/
def assignBy (W : CostType) (n : Nat) (cost : Fin n → Fin n → Int) : Checked (List Nat) := do
  assign W (← CostMatrix.ofFn n cost W.width)

/-- An assignment of least cost for the results of an effectful cost function. It is run on the
cells in row-major order, and a failure of it ends the computation. -/
def assignByM {m : Type → Type} [Monad m] (W : CostType) (n : Nat)
    (cost : Fin n → Fin n → m Int) : ExceptT Fault m (List Nat) := do
  let costs ← CostMatrix.ofFnM n cost W.width
  ExceptT.mk (pure (assign W costs))

/-- An assignment of least cost between two lists, which must be equally long. -/
def assignBetween {A B : Type} (W : CostType) (workers : Array A) (tasks : Array B)
    (cost : Nat → Nat → A → B → Int) : Checked (List Nat) :=
  if h : workers.size = tasks.size then
    assignBy W workers.size (CostMatrix.pairCost workers tasks h cost)
  else
    .error (.unequalSides workers.size tasks.size)

/-- An assignment of least cost between two lists, which must be equally long, for the results of an
effectful cost function. Lists that are not are refused before any cost is asked for. -/
def assignBetweenM {m : Type → Type} [Monad m] {A B : Type} (W : CostType) (workers : Array A)
    (tasks : Array B) (cost : Nat → Nat → A → B → m Int) : ExceptT Fault m (List Nat) :=
  if h : workers.size = tasks.size then
    assignByM W workers.size (CostMatrix.pairCost workers tasks h cost)
  else
    ExceptT.mk (pure (.error (.unequalSides workers.size tasks.size)))

/-- The messages of the search for an assignment. -/
def assignMessages (W : CostType) (costs : CostMatrix Int) : List Message :=
  if costs.size ≤ 1 then []
  else Solver.startMessage costs.size :: (Solver.initial costs.grid).runMessages W

end LinearAssignment
