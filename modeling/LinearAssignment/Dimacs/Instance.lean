import LinearAssignment.Dimacs.Entry
import LinearAssignment.Message
import LinearAssignment.Text.Sink

/-!
# Instances of the assignment problem

The file of an instance has a problem line `p asn N M`, a line `n u` for each worker node, and a
line `a u v c` for each arc. The `N` nodes are numbered from one on, half of them are workers and
the others are tasks, and there must be exactly one arc from each worker to each task. Workers and
tasks are numbered separately, each in order of their nodes, so worker nodes may stand anywhere in
the file.

What a line says by itself is checked when it is read; that there are enough lines, which nodes are
workers, and that no arc is repeated is checked after the last line.
-/

namespace LinearAssignment.Dimacs

/-- What the problem line says. -/
structure Header where
  /-- The number of the problem line. -/
  line : Nat
  /-- The number of workers, which is half the number of nodes. -/
  workers : Nat
  /-- The number of arcs. -/
  arcs : Nat
deriving DecidableEq, Repr

/-- The number of nodes. -/
def Header.nodes (header : Header) : Nat :=
  2 * header.workers

/-- Reads the problem line, which must be the first entry. -/
def readHeader (entry : Entry) : Reading Header :=
  entry.run do
    unless entry.kind = "p" do .malformed (.notProblem entry.kind)
    .keyword "asn"
    let nodes ← .field .word "number of nodes"
    let arcs ← .field .word "number of arcs"
    unless nodes % 2 = 0 do .invalid (.oddNodes nodes)
    let workers := nodes / 2
    unless workers * workers = arcs do .invalid (.notComplete workers arcs)
    .finish
    return { line := entry.line, workers, arcs }

/-- An arc of an instance. Its nodes are counted from zero on. -/
structure Arc (α : Type) where
  /-- The number of its line. -/
  line : Nat
  /-- The node that it starts from. -/
  source : Nat
  /-- The node that it ends at. -/
  sink : Nat
  /-- Its cost. -/
  cost : α
deriving DecidableEq, Repr

/-- The worker nodes, counted from zero on, and the arcs that have been read. -/
structure InstanceDraft (α : Type) where
  /-- The worker nodes in the order of their lines. -/
  workers : Array Nat
  /-- The arcs in the order of their lines. -/
  arcs : Array (Arc α)

namespace InstanceDraft

variable {α : Type}

/-- Nothing read. -/
def empty : InstanceDraft α where
  workers := #[]
  arcs := #[]

/-- Checks the number of a node. -/
def checkNode (header : Header) (node : Nat) : FieldReader Unit :=
  unless 1 ≤ node ∧ node ≤ header.nodes do .invalid (.invalidNode node header.nodes)

/-- Reads the line of a worker node. -/
def readWorker (header : Header) (draft : InstanceDraft α) : FieldReader (InstanceDraft α) := do
  let u ← .field .word "node"
  checkNode header u
  if draft.workers.size = header.workers then .invalid (.tooManyWorkers header.workers)
  let node ← Word.sub u 1
  if node ∈ draft.workers then .invalid (.duplicateWorker u)
  .finish
  return { draft with workers := draft.workers.push node }

/-- Reads the line of an arc. -/
def readArc (spelling : Spelling α) (header : Header) (line : Nat) (draft : InstanceDraft α) :
    FieldReader (InstanceDraft α) := do
  let u ← .field .word "source node"
  let v ← .field .word "sink node"
  let cost ← .field spelling "cost"
  checkNode header u
  checkNode header v
  if draft.arcs.size = header.arcs then .invalid (.tooManyArcs header.arcs)
  let source ← Word.sub u 1
  let sink ← Word.sub v 1
  .finish
  return { draft with arcs := draft.arcs.push { line, source, sink, cost } }

/-- Reads an entry after the problem line. -/
def readEntry (spelling : Spelling α) (header : Header) (draft : InstanceDraft α) (entry : Entry) :
    Reading (InstanceDraft α) :=
  entry.run <|
    match entry.kind with
    | "n" => draft.readWorker header
    | "a" => draft.readArc spelling header entry.line
    | kind => .malformed (.unexpectedLine kind)

end InstanceDraft

/-! ### Numbering the nodes -/

/-- What a node stands for: a worker or a task, with its number. -/
inductive Role
  | worker (i : Nat)
  | task (j : Nat)
deriving DecidableEq, Repr

/-- The role of a node. A worker has as its number the number of workers before it, and a task the
number of other nodes before it. -/
def roleOf (workers : Array Nat) (nodes u : Nat) : Checked Role :=
  if u < nodes then
    let before := workers.countP fun w ↦ w < u
    .ok (if u ∈ workers then .worker before else .task (u - before))
  else
    .error .outOfRange

/-- Enters the cost of an arc into the table of all costs, which has the entries of the matrix in
row-major order. -/
def placeArc {α : Type} (header : Header) (workers : Array Nat) (table : Array (Option α))
    (arc : Arc α) : Reading (Array (Option α)) := do
  match ← roleOf workers header.nodes arc.source, ← roleOf workers header.nodes arc.sink with
  | .worker i, .task j =>
    let index ← Word.add (← Word.mul i header.workers) j
    if h : index < table.size then
      if table[index].isSome then
        throw (.onLine arc.line (.data (.duplicateArc (arc.source + 1) (arc.sink + 1))))
      return table.set index (some arc.cost)
    else
      throwThe Fault .outOfRange
  | .task _, _ => throw (.onLine arc.line (.data (.sourceNotWorker (arc.source + 1))))
  | _, .worker _ => throw (.onLine arc.line (.data (.sinkNotTask (arc.sink + 1))))

/-- The matrix of a table in which every cost has been entered. -/
def matrixOfTable {α : Type} (header : Header) (table : Array (Option α)) :
    Reading (CostMatrix α) := do
  match table.mapM id with
  | none => throw (.onLine header.line (.data .incomplete))
  | some costs =>
    (CostMatrix.ofEntries header.workers costs).adapt fun e ↦ .onLine header.line (.data (.shape e))

/-- Reads an instance. -/
def readInstance {α : Type} (spelling : Spelling α) (source : Text.Source) :
    Reading (CostMatrix α) := do
  let listing := Listing.ofSource source
  match listing.entries with
  | [] =>
    listing.checkEnd
    listing.fail (.format .missingProblem)
  | first :: entries =>
    let header ← readHeader first
    let draft ← entries.foldlM (InstanceDraft.readEntry spelling header) .empty
    listing.checkEnd
    unless draft.workers.size = header.workers do
      listing.fail (.data (.wrongWorkers header.workers draft.workers.size))
    unless draft.arcs.size = header.arcs do
      listing.fail (.data (.wrongArcs header.arcs draft.arcs.size))
    let table ← draft.arcs.foldlM (placeArc header draft.workers) (Array.replicate header.arcs none)
    matrixOfTable header table

/-- The message about an instance that has been read. -/
def readMessage {α : Type} (m : CostMatrix α) : Message :=
  ⟨.debug, "Read assignment instance with " ++ toString m.size ++ " workers"⟩

/-! ### Writing -/

/-- The lines of the file of an instance: the first half of the nodes are the workers. -/
def instanceLines {α : Type} (spelling : Spelling α) (m : CostMatrix α) : List String :=
  let n := m.size
  ["p asn " ++ toString (2 * n) ++ " " ++ toString (n * n) ++ "\n"] ++
    ((List.range n).map fun i ↦ "n " ++ toString (i + 1) ++ "\n") ++
    (m.rows.zipIdx.flatMap fun (row, i) ↦ row.zipIdx.map fun (c, j) ↦
      "a " ++ toString (i + 1) ++ " " ++ toString (n + j + 1) ++ " " ++ spelling.write c ++ "\n")

/-- Writes an instance to a sink with room for a number of bytes, or for any number. -/
def writeInstance {α : Type} (spelling : Spelling α) (room : Option Nat) (m : CostMatrix α) :
    ExceptT Text.SinkFull Checked String :=
  Text.deliver room "" ((instanceLines spelling m).map pure)

end LinearAssignment.Dimacs
