import Retrace.Text.Quoted
import Retrace.Text.Integer
import Retrace.Datum
import Retrace.Datum.Json
import Retrace.Fault
import Retrace.Failure.Violation
import Retrace.Number.Update
import Retrace.Program.Inverse
import Retrace.Source.Printer
import Retrace.Source.Parser
import Retrace.Memory.Overlap
import Retrace.Eval.Expr
import Retrace.Legality.Check
import Retrace.Symbolic.Verify
import Retrace.Registration
import Retrace.Run.Invocation
import Retrace.Text.Newline
import Retrace.Settings.File
import Retrace.Command.Value
import Retrace.Command.Perform
import Retrace.Main
import Retrace.Proofs.Actions
import Retrace.Proofs.Heap
import Retrace.Proofs.Frame
import Retrace.Proofs.Evaluation
import Retrace.Proofs.Dependence
import Retrace.Proofs.Statement
import Retrace.Proofs.Confinement
import Retrace.Proofs.Scoping
import Retrace.Proofs.Undo
import Retrace.Proofs.RoundTrip
import Retrace.Proofs.Poison
import Retrace.Proofs.Relaxation
import Retrace.Proofs.Arena
import Retrace.Proofs.Termination
import Retrace.Proofs.Agreement
import Retrace.Proofs.Inversion
import Retrace.Proofs.Lexing
import Retrace.Proofs.Layout
import Retrace.Proofs.Printing
import Retrace.Proofs.Grammar
import Retrace.Proofs.Recognition
import Retrace.Proofs.Parsing
import Retrace.Proofs.Reprinting
import Retrace.Proofs.Descent
import Retrace.Proofs.Rejection
import Retrace.Proofs.Legality
import Retrace.Proofs.Aliasing
import Retrace.Proofs.Registry
import Retrace.Proofs.Blame
import Retrace.Proofs.InverseLegality
import Retrace.Proofs.Involution
import Retrace.Proofs.Regularity
import Retrace.Proofs.Conclusion
import Retrace.Proofs.Models
import Retrace.Proofs.Encoding
import Retrace.Proofs.Footprint
import Retrace.Proofs.Effects
import Retrace.Proofs.Following
import Retrace.Proofs.Stepwise
import Retrace.Proofs.Facts
import Retrace.Proofs.Growth
import Retrace.Proofs.Paths
import Retrace.Proofs.Assertions
import Retrace.Proofs.Verification
import Retrace.Proofs.Encodability
import Retrace.Proofs.Admission
import Retrace.Proofs.Overflow
