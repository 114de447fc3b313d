import DynLisp.ChainMap.Cursor
import DynLisp.Main
import DynLisp.Value.Convert
import DynLisp.Value.Debug
import DynLisp.Value.Identity
import DynLisp.Proofs.Evaluation.Congruence
import DynLisp.Proofs.Evaluation.Frames
import DynLisp.Proofs.Evaluation.Applications
import DynLisp.Proofs.Evaluation.Endless
import DynLisp.Proofs.Evaluation.NestedCalls
import DynLisp.Proofs.Evaluation.Termination
import DynLisp.Proofs.Reading.Acceptance
import DynLisp.Proofs.Reading.Readable
import DynLisp.Proofs.Reading.RoundTrip
import DynLisp.Proofs.ChainMap.Lookup
import DynLisp.Proofs.ChainMap.WellFormed
import DynLisp.Proofs.ChainMap.FiniteMap
import DynLisp.Proofs.Evaluation.DepthLimit
import DynLisp.Proofs.Evaluation.Visibility
import DynLisp.Proofs.Scope.Bindings
import DynLisp.Proofs.Text.ByteOrder
import DynLisp.Proofs.Scope.Changes
import DynLisp.Proofs.Reading.Finality
import DynLisp.Proofs.Repl.Lines
import DynLisp.Proofs.Session.Procedures
import DynLisp.Proofs.Evaluation.Equivalences
import DynLisp.Proofs.Evaluation.OperandCounts
import DynLisp.Proofs.Session.Implementations
import DynLisp.Proofs.Evaluation.Independence
import DynLisp.Proofs.Session.FullSink
import DynLisp.Proofs.Builtin.Arithmetic
import DynLisp.Proofs.Builtin.Division
import DynLisp.Proofs.Builtin.Order
import DynLisp.Proofs.Reading.Concatenation
import DynLisp.Proofs.Value.Equality
import DynLisp.Proofs.ChainMap.Iteration
import DynLisp.Proofs.Evaluation.Misshapen
import DynLisp.Proofs.Reading.Tokens
import DynLisp.Proofs.Reading.Comments
import DynLisp.Proofs.Reading.WhiteSpace
import DynLisp.Proofs.Reading.SingleDatum
import DynLisp.Proofs.Reading.Positions
import DynLisp.Proofs.Reading.Contexts
import DynLisp.Proofs.Number.SignificantDigits
import DynLisp.Proofs.Number.DecimalText
import DynLisp.Proofs.Number.DisplayedForm
import DynLisp.Proofs.Reading.Descent
import DynLisp.Proofs.Reading.DescentAgreement
