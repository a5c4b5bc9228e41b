import StackTree.Main
import StackTree.Machine.Run
import StackTree.Script
import StackTree.Term
import StackTree.Proofs.Ownership.Sound
import StackTree.Proofs.Ownership.Alloc
import StackTree.Proofs.Ownership.Reach
import StackTree.Proofs.Ownership.Refusals
import StackTree.Proofs.Ownership.Footprint
import StackTree.Machine.Stack
import StackTree.Proofs.FlatCode.Build
import StackTree.Proofs.FlatCode.RoundTrip
import StackTree.Proofs.FlatCode.Structured
import StackTree.Proofs.Machine.Observing
import StackTree.Proofs.Machine.Swapping
import StackTree.Proofs.Nesting.Meaning
import StackTree.Proofs.Coherence
import StackTree.Proofs.Nesting.Order
import StackTree.Proofs.Nesting.Repetition
import StackTree.Proofs.Nesting.Conservation
import StackTree.Proofs.Machine.Reordering
import StackTree.Proofs.Folding.Arithmetic
import StackTree.Proofs.Folding.OnTrees
import StackTree.Proofs.Folding.Simulation
import StackTree.Proofs.Folding.Bodies
import StackTree.Proofs.Folding.Meaning
import StackTree.Proofs.Processing
import StackTree.Proofs.Nesting.Boundaries
import StackTree.Proofs.Nesting.Locality
import StackTree.Proofs.Nesting.Stalls
import StackTree.Proofs.Nesting.Exchange
import StackTree.Proofs.Nesting.Filling
import StackTree.Proofs.Folding.NormalForm
import StackTree.Proofs.FlatCode.Faithful
import StackTree.Proofs.Spans
import StackTree.Proofs.Json.RoundTrip
import StackTree.Proofs.Json.Pretty
import StackTree.Proofs.Json.Fields
import StackTree.Proofs.FlatCode.Reading
import StackTree.Proofs.FlatCode.Documents
import StackTree.Proofs.Text.Pieces
import StackTree.Proofs.Text.Sinks
import StackTree.Proofs.Text.Unambiguous
import StackTree.Proofs.Nesting.PendingPops
import StackTree.Proofs.Nesting.WorkingStack
import StackTree.Proofs.Settings
import StackTree.Proofs.Command.Files
import StackTree.Proofs.Command.Arguments
import StackTree.Proofs.Command.Sources
import StackTree.Proofs.Command.Reports
import StackTree.Proofs.Command.FileByFile
