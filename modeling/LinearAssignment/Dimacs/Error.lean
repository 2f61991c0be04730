import LinearAssignment.CostMatrix.Build
import LinearAssignment.Numeral
import LinearAssignment.Text.Source

/-!
# Errors of DIMACS files

A file is refused for one of three reasons: it could not be read, a line is not of the form that the
format asks for, or the data does not make sense. An issue says what is wrong with a line, and an
error adds which line it is: the last line read where something is missing at the end of a file.
-/

namespace LinearAssignment.Dimacs

/-- Flaws of form. -/
inductive FormatIssue
  | missingProblem
  | notProblem (kind : String)
  | missingKeyword (keyword : String)
  | wrongKeyword (keyword token : String)
  | missingField (what : String)
  | invalidField (what token : String) (flaw : Numeral.Flaw)
  | extraField (token : String)
  | unexpectedLine (kind : String)
  | secondValue
  | missingValue
deriving DecidableEq, Repr

/-- The text of a flaw of form. -/
def FormatIssue.message : FormatIssue → String
  | missingProblem => "missing problem line"
  | notProblem kind => "expected 'p' line, got '" ++ kind ++ "'"
  | missingKeyword keyword => "missing '" ++ keyword ++ "'"
  | wrongKeyword keyword token => "expected '" ++ keyword ++ "', got '" ++ token ++ "'"
  | missingField what => "missing " ++ what
  | invalidField what token flaw =>
    "invalid " ++ what ++ " '" ++ token ++ "': " ++ flaw.message
  | extraField token => "unexpected field '" ++ token ++ "' at end of line"
  | unexpectedLine kind => "unexpected '" ++ kind ++ "' line"
  | secondValue => "solution value given twice"
  | missingValue => "missing solution value"

/-- Flaws of meaning. -/
inductive DataIssue
  | oddNodes (nodes : Nat)
  | notComplete (workers arcs : Nat)
  | invalidNode (node nodes : Nat)
  | tooManyWorkers (workers : Nat)
  | duplicateWorker (node : Nat)
  | tooManyArcs (arcs : Nat)
  | wrongWorkers (expected actual : Nat)
  | wrongArcs (expected actual : Nat)
  | sourceNotWorker (node : Nat)
  | sinkNotTask (node : Nat)
  | duplicateArc (source sink : Nat)
  | incomplete
  | shape (e : ShapeError)
  | wrongFlow (worker task flow : Nat)
  | invalidPair (worker task : Nat)
  | workerTwice (node : Nat)
  | taskTwice (node : Nat)
deriving DecidableEq, Repr

/-- The text of a flaw of meaning. -/
def DataIssue.message : DataIssue → String
  | oddNodes nodes => "number of nodes must be even, got " ++ toString nodes
  | notComplete workers arcs =>
    "complete instance with " ++ toString workers ++ " workers must have " ++ toString workers ++
      "^2 arcs, got " ++ toString arcs
  | invalidNode node nodes =>
    "invalid node id " ++ toString node ++ " (must be in 1..=" ++ toString nodes ++ ")"
  | tooManyWorkers workers =>
    "too many worker nodes (expected exactly " ++ toString workers ++ ")"
  | duplicateWorker node => "duplicate worker node " ++ toString node
  | tooManyArcs arcs => "too many arcs (expected exactly " ++ toString arcs ++ ")"
  | wrongWorkers expected actual =>
    "expected " ++ toString expected ++ " worker nodes, got " ++ toString actual
  | wrongArcs expected actual =>
    "expected " ++ toString expected ++ " arcs, got " ++ toString actual
  | sourceNotWorker node => "source node " ++ toString node ++ " is not a worker"
  | sinkNotTask node => "sink node " ++ toString node ++ " is not a task"
  | duplicateArc source sink =>
    "duplicate arc (" ++ toString source ++ "," ++ toString sink ++ ")"
  | incomplete => "incomplete instance"
  | shape e => e.message
  | wrongFlow worker task flow =>
    "flow on (" ++ toString worker ++ "," ++ toString task ++ ") must be 1, got " ++
      toString flow
  | invalidPair worker task =>
    "invalid assignment (" ++ toString worker ++ "," ++ toString task ++ ")"
  | workerTwice node => "worker " ++ toString node ++ " assigned twice"
  | taskTwice node => "task " ++ toString node ++ " assigned twice"

/-- A flaw of a line. -/
inductive Issue
  /-- The line has not the right form. -/
  | format (issue : FormatIssue)
  /-- The data on the line does not make sense. -/
  | data (issue : DataIssue)
deriving DecidableEq, Repr

/-- Why a file is refused. -/
inductive Error
  /-- The file could not be read. -/
  | unreadable (e : Text.ReadError)
  /-- A line is flawed, or what should have come up to this line is missing. -/
  | onLine (line : Nat) (issue : Issue)
deriving DecidableEq, Repr

namespace Error

/-- The line that an error names. -/
def line? : Error → Option Nat
  | unreadable _ => none
  | onLine line _ => some line

/-- The text of an error. -/
def message : Error → String
  | unreadable e => e.message
  | onLine line (.format issue) =>
    "Format error on line " ++ toString line ++ ": " ++ issue.message
  | onLine line (.data issue) =>
    "Data error on line " ++ toString line ++ ": " ++ issue.message

end Error

/-- The reading of a file: a value, an error of the file, or a fault. -/
abbrev Reading (α : Type) := ExceptT Error Checked α

end LinearAssignment.Dimacs
