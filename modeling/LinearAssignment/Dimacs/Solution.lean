import LinearAssignment.Dimacs.Entry
import LinearAssignment.Text.Sink

/-!
# Solutions of the assignment problem

The file of a solution has one line `s x` with the total cost and a line `f u v 1` for each worker
node `u` and its task node `v`. With `n` such lines the workers are the nodes `1` to `n` and the
tasks the nodes `n + 1` to `2 * n`; each of them must occur exactly once. The number of lines is
known only at the end, and so the nodes are checked there.
-/

namespace LinearAssignment.Dimacs

/-- A pair of a worker node and a task node. -/
structure Flow where
  /-- The number of its line. -/
  line : Nat
  /-- The worker node. -/
  worker : Nat
  /-- The task node. -/
  task : Nat
deriving DecidableEq, Repr

/-- The value and the pairs that have been read. -/
structure SolutionDraft (α : Type) where
  /-- The value, if its line has been read. -/
  value : Option α
  /-- The pairs in the order of their lines. -/
  flows : Array Flow

namespace SolutionDraft

variable {α : Type}

/-- Nothing read. -/
def empty : SolutionDraft α where
  value := none
  flows := #[]

/-- Reads the line of the value, of which there is only one. -/
def readValue (spelling : Spelling α) (draft : SolutionDraft α) :
    FieldReader (SolutionDraft α) := do
  if draft.value.isSome then .malformed .secondValue
  let value ← .field spelling "solution value"
  .finish
  return { draft with value := some value }

/-- Reads the line of a pair. -/
def readFlow (line : Nat) (draft : SolutionDraft α) : FieldReader (SolutionDraft α) := do
  let worker ← .field .word "worker node"
  let task ← .field .word "task node"
  let flow ← .field .word "flow"
  unless flow = 1 do .invalid (.wrongFlow worker task flow)
  .finish
  return { draft with flows := draft.flows.push { line, worker, task } }

/-- Reads an entry. -/
def readEntry (spelling : Spelling α) (draft : SolutionDraft α) (entry : Entry) :
    Reading (SolutionDraft α) :=
  entry.run <|
    match entry.kind with
    | "s" => draft.readValue spelling
    | "f" => draft.readFlow entry.line
    | kind => .malformed (.unexpectedLine kind)

end SolutionDraft

/-- The tasks that have been assigned so far. -/
structure Matched where
  /-- The task of each worker. -/
  taskOf : Array (Option Nat)
  /-- Whether each task has a worker. -/
  taken : Array Bool
deriving DecidableEq, Repr

/-- No task assigned, for `n` workers. -/
def Matched.empty (n : Nat) : Matched where
  taskOf := Array.replicate n none
  taken := Array.replicate n false

/-- Whether a pair of nodes is a worker and a task, with `n` of each. -/
def isPair (n worker task : Nat) : Checked Bool := do
  if worker < 1 ∨ n < worker ∨ task ≤ n then
    return false
  else
    return task ≤ (← Word.mul 2 n)

/-- Assigns a task to a worker, both of which must be free. -/
def Matched.add (n : Nat) (matched : Matched) (flow : Flow) : Reading Matched := do
  unless ← isPair n flow.worker flow.task do
    throw (.onLine flow.line (.data (.invalidPair flow.worker flow.task)))
  let i ← Word.sub flow.worker 1
  let j ← Word.sub (← Word.sub flow.task n) 1
  if hi : i < matched.taskOf.size then
    if matched.taskOf[i].isSome then
      throw (.onLine flow.line (.data (.workerTwice flow.worker)))
    if hj : j < matched.taken.size then
      if matched.taken[j] then throw (.onLine flow.line (.data (.taskTwice flow.task)))
      return ⟨matched.taskOf.set i (some j), matched.taken.set j true⟩
    else throwThe Fault .outOfRange
  else throwThe Fault .outOfRange

/-- Reads a solution: its value and the task of each worker. -/
def readSolution {α : Type} (spelling : Spelling α) (source : Text.Source) :
    Reading (α × List Nat) := do
  let listing := Listing.ofSource source
  let draft ← listing.entries.foldlM (SolutionDraft.readEntry spelling) .empty
  listing.checkEnd
  match draft.value with
  | none => listing.fail (.format .missingValue)
  | some value =>
    let n := draft.flows.size
    let matched ← draft.flows.foldlM (Matched.add n) (.empty n)
    return (value, matched.taskOf.toList.filterMap id)

/-! ### Writing -/

/-- The line of the task `j` of worker `i`, with `n` workers. -/
def flowLine (n i j : Nat) : Checked String := do
  let worker ← Word.add i 1
  let task ← Word.add (← Word.add n j) 1
  return "f " ++ toString worker ++ " " ++ toString task ++ " 1\n"

/-- The lines of the file of a solution. -/
def solutionLines {α : Type} (spelling : Spelling α) (assignment : List Nat) (value : α) :
    List (Checked String) :=
  pure ("s " ++ spelling.write value ++ "\n") ::
    assignment.zipIdx.map fun (j, i) ↦ flowLine assignment.length i j

/-- Writes a solution to a sink with room for a number of bytes, or for any number. -/
def writeSolution {α : Type} (spelling : Spelling α) (room : Option Nat) (assignment : List Nat)
    (value : α) : ExceptT Text.SinkFull Checked String :=
  Text.deliver room "" (solutionLines spelling assignment value)

end LinearAssignment.Dimacs
