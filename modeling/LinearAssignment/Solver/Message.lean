import LinearAssignment.Message
import LinearAssignment.Solver.Run

/-!
# Messages of a run

What a solver reports can be read off its states: `stepMessages` compares the states before and
after a step. So a step need not keep a log, and a log is made only where one is wanted.
-/

namespace LinearAssignment

namespace Solver

variable {n : Nat}

/-- The message of a new solver. -/
def startMessage (n : Nat) : Message :=
  ⟨.debug, "New assignment problem with " ++ toString n ++ " workers"⟩

/-- What a phase reports about its work. -/
def phaseMessages (before after : Solver n) : List Message :=
  match before.phase with
  | .star =>
    [⟨.trace, "Initial matching has " ++ toString after.stars.size ++ " of " ++ toString n ++
      " pairs"⟩]
  | .augment _ column =>
    match augmentingPath before.stars before.primes column with
    | .ok path => [⟨.trace, "Augmenting along path of length " ++ toString (pathLength path)⟩]
    | .error _ => []
  | _ => []

/-- The messages of one step. -/
def stepMessages (before after : Solver n) : List Message :=
  if before.isDone then []
  else
    phaseMessages before after ++
      [⟨.trace, "Step " ++ toString before.steps ++ ": " ++ before.phase.name ++ " -> " ++
        after.phase.name⟩] ++
      if after.isDone then
        [⟨.debug, "Solved assignment problem with " ++ toString n ++ " workers in " ++
          toString after.steps ++ " steps"⟩]
      else []

/-- The messages of a run through the given states, from the state before them. -/
def messagesAlong (s : Solver n) : List (Solver n) → List Message
  | [] => []
  | next :: states => stepMessages s next ++ next.messagesAlong states

/-- The messages of a run. -/
def runMessages (W : CostType) (s : Solver n) : List Message :=
  s.messagesAlong (s.history W)

end Solver

end LinearAssignment
