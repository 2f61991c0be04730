import LinearAssignment.Solver.Basic

/-!
# The steps of the solver

The Hungarian method in six phases. Rows are lowered by their minima (`lowerRows`), zeros are
starred greedily (`starGreedily`), and the columns of the stars are covered (`coverStarred`). While
some column is not covered, uncovered zeros are primed (`primeUncovered`) until one of them lies in
a row without a star, from which the stars are augmented along a path (`augmentAlong`), or none is
left, and then the smallest uncovered cost is shifted (`shiftCosts`).

The two inner searches are bounded by `n + 1` rounds. Each round but the last primes a row that had
no prime, or takes a star off the path, so the bound is never what ends them.
-/

namespace LinearAssignment.Solver

variable {n : Nat}

/-- The costs with every row lowered by its minimum. -/
def lowerRows (W : CostType) (costs : Grid n Int) : Checked (Grid n Int) :=
  Vector.ofFnM fun i ↦
    let least := leastCost (Table.entry costs i).toList
    Vector.ofFnM fun j ↦ W.sub (costs.cell i j) least

/-- Row by row, the first zero in a column without a star is starred. -/
def starGreedily (costs : Grid n Int) (stars : Stars n) : Checked (Stars n) :=
  (List.finRange n).foldlM (fun stars i ↦
    match (List.finRange n).find? fun j ↦ (stars.rowOf.entry j).isNone && costs.cell i j == 0 with
    | some j => stars.insert i j
    | none => pure stars) stars

/-- Covers every column with a star. -/
def coverStarred (stars : Stars n) (cover : Cover n) : Checked (Cover n) :=
  (List.finRange n).foldlM (fun cover j ↦
    if (stars.rowOf.entry j).isSome then cover.coverColumn j else pure cover) cover

/-- The first zero, row by row, that is not covered. -/
def uncoveredZero? (costs : Grid n Int) (cover : Cover n) : Option (Fin n × Fin n) :=
  let columns := cover.uncoveredColumns
  cover.uncoveredRows.findSome? fun i ↦
    (columns.find? fun j ↦ costs.cell i j == 0).map fun j ↦ (i, j)

/-- Primes uncovered zeros. The row of a primed zero is covered in place of the column of its star;
a primed zero in a row without a star ends the search, and so does the lack of uncovered zeros. The
result has the phase that follows. -/
def primeUncovered (costs : Grid n Int) (stars : Stars n) :
    Nat → Primes n → Cover n → Checked (Primes n × Cover n × Phase n)
  | 0, _, _ => throw .unfinished
  | fuel + 1, primes, cover =>
    match uncoveredZero? costs cover with
    | none => pure (primes, cover, .shift)
    | some (i, j) => do
      let primes ← primes.insert i j
      match stars.columnOf.entry i with
      | some k => primeUncovered costs stars fuel primes (← (cover.coverRow i).uncoverColumn k)
      | none => pure (primes, cover, .augment i j)

/-! ### Augmenting paths -/

/-- Two steps of an augmenting path: down a column to the star in it, and along the row of that
star to its prime. -/
structure Hop (n : Nat) where
  /-- The row of the star and of the prime. -/
  row : Fin n
  /-- The column of the star. -/
  starred : Fin n
  /-- The column of the prime. -/
  primed : Fin n
deriving DecidableEq, Repr

/-- The rest of the augmenting path after a prime in a column. -/
def hops (stars : Stars n) (primes : Primes n) : Nat → Fin n → Checked (List (Hop n))
  | 0, _ => throw .unfinished
  | fuel + 1, column =>
    match stars.rowOf.entry column with
    | none => pure []
    | some row =>
      match primes.columnOf.entry row with
      | none => throw (.unprimedRow row)
      | some next => do
        return ⟨row, column, next⟩ :: (← hops stars primes fuel next)

/-- The augmenting path after its first prime, which is in the given column. -/
def augmentingPath (stars : Stars n) (primes : Primes n) (column : Fin n) :
    Checked (List (Hop n)) :=
  hops stars primes (n + 1) column

/-- The number of positions of an augmenting path: its first prime, and two for each hop. -/
def pathLength (path : List (Hop n)) : Nat :=
  1 + 2 * path.length

/-- The stars after the stars of a path have been taken away and its primes starred, in the order
of the path. -/
def augmentAlong (stars : Stars n) (row column : Fin n) (path : List (Hop n)) :
    Checked (Stars n) := do
  let stars ← path.foldlM (fun stars hop ↦ stars.erase hop.row hop.starred) stars
  let stars ← stars.insert row column
  path.foldlM (fun stars hop ↦ stars.insert hop.row hop.primed) stars

/-! ### Shifting costs -/

/-- The costs that are not covered, row by row. -/
def uncoveredCosts (costs : Grid n Int) (cover : Cover n) : List Int :=
  let columns := cover.uncoveredColumns
  cover.uncoveredRows.flatMap fun i ↦ columns.map fun j ↦ costs.cell i j

/-- The smallest cost that is not covered: the amount of a shift. -/
def leastUncovered? (costs : Grid n Int) (cover : Cover n) : Option Int :=
  (uncoveredCosts costs cover).min?

/-- A cost after a shift by `m`: an uncovered one is lowered, and one whose row and column are both
covered is raised as far as the cost type goes. -/
def shiftCost (W : CostType) (m : Int) (rowCovered columnCovered : Bool) (c : Int) :
    Checked Int :=
  match rowCovered, columnCovered with
  | true, true => W.raise m c
  | false, false => W.sub c m
  | _, _ => pure c

/-- The costs shifted by the smallest uncovered one. -/
def shiftCosts (W : CostType) (costs : Grid n Int) (cover : Cover n) : Checked (Grid n Int) :=
  match leastUncovered? costs cover with
  | none => throw .noUncoveredEntry
  | some m => Grid.ofFnM fun i j ↦
    shiftCost W m (cover.rows.entry i) (cover.columns.entry j) (costs.cell i j)

/-! ### One step -/

/-- The state after the work of the current phase, with the phase that follows. -/
def advance (W : CostType) (s : Solver n) : Checked (Solver n) := do
  match s.phase with
  | .reduce =>
    let costs ← lowerRows W s.costs
    return { s with costs, phase := .star }
  | .star =>
    let stars ← starGreedily s.costs s.stars
    return { s with stars, phase := .cover }
  | .cover =>
    let cover ← coverStarred s.stars s.cover
    return { s with cover, phase := if cover.columnCount = n then .done else .prime }
  | .prime =>
    let (primes, cover, phase) ← primeUncovered s.costs s.stars (n + 1) s.primes s.cover
    return { s with primes, cover, phase }
  | .augment row column =>
    let path ← augmentingPath s.stars s.primes column
    let stars ← augmentAlong s.stars row column path
    return { s with stars, primes := .empty n, cover := .empty n, phase := .cover }
  | .shift =>
    let costs ← shiftCosts W s.costs s.cover
    return { s with costs, phase := .prime }
  | .done => return s

/-- One step: the work of the current phase, which is then counted. A solved problem stays as it
is. -/
def step (W : CostType) (s : Solver n) : Checked (Solver n) := do
  if s.isDone then
    return s
  else
    let next ← s.advance W
    let steps ← Word.add s.steps 1
    return { next with steps }

/-- A solved problem does not change. -/
theorem step_of_isDone {W : CostType} {s : Solver n} (h : s.isDone) : s.step W = .ok s := by
  simp [step, h, pure, Except.pure]

end LinearAssignment.Solver
