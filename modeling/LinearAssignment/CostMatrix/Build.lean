import LinearAssignment.CostMatrix.Basic

/-!
# Building cost matrices

A matrix is built from a cost function, which may have effects and may fail, or from data that has
to be square: a list of rows, a flat list with a size, or two lists to be paired. Data that is not
square is refused with a `ShapeError`, which is an answer; a size whose square is not a word is a
fault. Before a cost function is asked for any cost, room is made for all of its costs
(`CostMatrix.reserve`), and that there is none is a fault too. The builders from data need no more
room than the data has.
-/

namespace LinearAssignment

/-- The shape of data that is not a square matrix, as far as it was looked at. -/
structure ShapeError where
  /-- The number of rows. -/
  rows : Nat
  /-- The length of a row, or of the other side. -/
  columns : Nat
deriving DecidableEq, Repr

/-- The text of a shape error. -/
def ShapeError.message (e : ShapeError) : String :=
  "cost matrix must be square, got " ++ toString e.rows ++ " rows and " ++ toString e.columns ++
    " columns"

namespace CostMatrix

variable {α : Type}

/-- Makes room for the entries of a matrix of size `n`, of `width` bytes each. -/
def reserve (n width : Nat) : Checked Unit := do
  Word.reserve (← Word.mul n n) width

/-- The matrix of the values of a cost function. A cost takes `width` bytes. -/
def ofFn (n : Nat) (cost : Fin n → Fin n → α) (width : Nat := 1) : Checked (CostMatrix α) := do
  reserve n width
  return ⟨n, Grid.ofFn cost⟩

/-- The matrix of the results of an effectful cost function, which is run on the cells in row-major
order. If it fails at a cell, no later cell is asked for. A cost takes `width` bytes. -/
def ofFnM {m : Type → Type} [Monad m] (n : Nat) (cost : Fin n → Fin n → m α) (width : Nat := 1) :
    ExceptT Fault m (CostMatrix α) := do
  ExceptT.mk (pure (reserve n width))
  let grid ← ExceptT.lift (Grid.ofFnM cost)
  return ⟨n, grid⟩

/-- The matrix with the given rows. The first row whose length is not the number of rows is
reported. -/
def ofRows (rows : List (List α)) : Except ShapeError (CostMatrix α) :=
  match h : rows.find? fun row ↦ row.length != rows.length with
  | some row => .error ⟨rows.length, row.length⟩
  | none =>
    .ok
      { size := rows.length
        grid := Vector.ofFn fun i ↦ ⟨rows[i].toArray, by
          simpa using List.find?_eq_none.1 h rows[i] (List.getElem_mem i.isLt)⟩ }

/-- The place of an entry in row-major order lies within the entries. -/
theorem index_lt {n : Nat} (i j : Fin n) : i.val * n + j.val < n * n :=
  calc i.val * n + j.val < i.val * n + n := Nat.add_lt_add_left j.isLt _
    _ = (i.val + 1) * n := (Nat.succ_mul i.val n).symm
    _ ≤ n * n := Nat.mul_le_mul_right n i.isLt

/-- The matrix of size `n` with the given entries in row-major order. Data of another length is
refused with the number of whole columns of length `n` that it fills, or with its length if `n` is
zero. -/
def ofEntries (n : Nat) (data : Array α) : ExceptT ShapeError Checked (CostMatrix α) := do
  let _ ← Word.mul n n
  if h : data.size = n * n then
    return ⟨n, Grid.ofFn fun i j ↦
      have := index_lt i j
      data[i.val * n + j.val]⟩
  else
    throw ⟨n, if n = 0 then data.size else data.size / n⟩

/-- The cost of a pair, given by its indices in two equally long lists. -/
def pairCost {A B : Type} (workers : Array A) (tasks : Array B) (h : workers.size = tasks.size)
    (cost : Nat → Nat → A → B → α) (i j : Fin workers.size) : α :=
  cost i j workers[i] tasks[j.val]

/-- The matrix of the costs of all pairs of a worker and a task, of which there must be equally
many. The cost of a pair may depend on their indices too, and takes `width` bytes. -/
def ofPairs {A B : Type} (workers : Array A) (tasks : Array B) (cost : Nat → Nat → A → B → α)
    (width : Nat := 1) : ExceptT ShapeError Checked (CostMatrix α) := do
  if h : workers.size = tasks.size then
    ofFn workers.size (pairCost workers tasks h cost) width
  else
    throw ⟨workers.size, tasks.size⟩

end CostMatrix

end LinearAssignment
