import ScalarOps.Reader
import ScalarOps.Text
import ScalarOps.Expression
import ScalarOps.Transcript
import ScalarOps.Proofs.WordRing
import ScalarOps.Proofs.IntegerTree
import ScalarOps.Proofs.Binary64.Rounding
import ScalarOps.Proofs.Binary64.Number
import ScalarOps.Proofs.Comparison
import ScalarOps.Proofs.Decimal.Nearest
import ScalarOps.Proofs.Decimal.Digits
import ScalarOps.Proofs.Decimal.Reading
import ScalarOps.Proofs.Decimal.Shortest
import ScalarOps.Proofs.Binary64.Text
import ScalarOps.Proofs.Failure
import ScalarOps.Proofs.RoundTrip
import ScalarOps.Proofs.Application
import ScalarOps.Proofs.ShortCircuit
import ScalarOps.Proofs.Selector
import ScalarOps.Proofs.Equality
import ScalarOps.Proofs.Binary64.Arithmetic
import ScalarOps.Proofs.FloorDivision
import ScalarOps.Proofs.FlooredRemainder
import ScalarOps.Proofs.MixedArithmetic
import ScalarOps.Proofs.ShortestText
import ScalarOps.Proofs.TextForm
import ScalarOps.Proofs.Transcript
import ScalarOps.Proofs.DivisionSteps
import ScalarOps.Proofs.Calculation
import ScalarOps.Proofs.ShiftLaws
import ScalarOps.Proofs.BitArithmetic
import ScalarOps.Proofs.Binary64.Power
import ScalarOps.Proofs.IntegerPower
import ScalarOps.Proofs.Mirror
import ScalarOps.Proofs.LogicalLaws
import ScalarOps.Proofs.FailureText
import ScalarOps.Proofs.Promotion
import ScalarOps.Proofs.Difference
import ScalarOps.Proofs.Negation
