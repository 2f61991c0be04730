import LinearAssignment.Assign
import LinearAssignment.CostMatrix.Json
import LinearAssignment.Dimacs.Instance
import LinearAssignment.Dimacs.Solution
import LinearAssignment.Proofs.Optimality
import LinearAssignment.Proofs.Certificate
import LinearAssignment.Proofs.Clamping
import LinearAssignment.Proofs.Faults
import LinearAssignment.Proofs.Marks
import LinearAssignment.Proofs.PhaseSequence
import LinearAssignment.Proofs.Dimacs.Fields
import LinearAssignment.Proofs.Dimacs.Items
import LinearAssignment.Proofs.Dimacs.CostTable
import LinearAssignment.Proofs.Numerals
import LinearAssignment.Proofs.Dimacs.CompleteInstance
import LinearAssignment.Proofs.Dimacs.InstanceRoundTrip
import LinearAssignment.Proofs.Rescaling
import LinearAssignment.Proofs.Dimacs.Pairing
import LinearAssignment.Proofs.Dimacs.SolutionItems
import LinearAssignment.Proofs.Dimacs.CompleteSolution
import LinearAssignment.Proofs.Dimacs.SolutionRoundTrip
import LinearAssignment.Proofs.Dimacs.Totality
import LinearAssignment.Proofs.Dimacs.LineByLine
import LinearAssignment.Proofs.Dimacs.Prefixes
import LinearAssignment.Proofs.Dimacs.SkippedLines
import LinearAssignment.Proofs.CostMatrix.Edits
import LinearAssignment.Proofs.Json.Matrices
import LinearAssignment.Proofs.Json.RoundTrip
import LinearAssignment.Proofs.MaximumMatching
import LinearAssignment.Proofs.Growth
import LinearAssignment.Proofs.Progress
import LinearAssignment.Proofs.TotalShift
import LinearAssignment.Proofs.ReversedOrder
import LinearAssignment.Proofs.TotalCost
import LinearAssignment.Proofs.Dimacs.DeferredErrors
import LinearAssignment.Proofs.CallOrder
import LinearAssignment.Proofs.GreedyStart
import LinearAssignment.Proofs.CostMatrix.Refusals
