import DefiniteAssignment.Main
import DefiniteAssignment.Proofs.BitSet.Iteration
import DefiniteAssignment.Proofs.CommandLine.ModuleHistory
import DefiniteAssignment.Proofs.Dominance.Preorder
import DefiniteAssignment.Proofs.Dominance.Queries
import DefiniteAssignment.Proofs.Dominance.Termination
import DefiniteAssignment.Proofs.Flow.Events
import DefiniteAssignment.Proofs.Flow.LoopHeads
import DefiniteAssignment.Proofs.Flow.Monotone
import DefiniteAssignment.Proofs.Flow.PathMeets
import DefiniteAssignment.Proofs.Flow.Resuming
import DefiniteAssignment.Proofs.Flow.SinglePass
import DefiniteAssignment.Proofs.Flow.StartingAbove
import DefiniteAssignment.Proofs.Flow.Trail
import DefiniteAssignment.Proofs.Grammar.Layout
import DefiniteAssignment.Proofs.Grammar.Positions
import DefiniteAssignment.Proofs.Grammar.Stopping
import DefiniteAssignment.Proofs.Graph.DepthFirst
import DefiniteAssignment.Proofs.Graph.OrderLaws
import DefiniteAssignment.Proofs.Guarantee.CompactReport
import DefiniteAssignment.Proofs.Guarantee.Inheritance
import DefiniteAssignment.Proofs.Guarantee.Limits
import DefiniteAssignment.Proofs.Guarantee.PlainProblem
import DefiniteAssignment.Proofs.TestFile.Extents
import DefiniteAssignment.Proofs.TestFile.RoundTrip
import DefiniteAssignment.Proofs.TestFile.WholeDump
