import RomanArithmetic.Trace
import RomanArithmetic.Language
import RomanArithmetic.Expr
import RomanArithmetic.OperatorStack
import RomanArithmetic.Proofs.FurthestFailure
import RomanArithmetic.Proofs.Rendering
import RomanArithmetic.Proofs.Cutting
import RomanArithmetic.Proofs.Replacement
import RomanArithmetic.Proofs.Outcomes
import RomanArithmetic.Proofs.TwoStacks
import RomanArithmetic.Proofs.OneToOne
import RomanArithmetic.Proofs.TreeShape
import RomanArithmetic.Proofs.Subexpressions
import RomanArithmetic.Proofs.SharedBeginning
import RomanArithmetic.Proofs.Attempts
import RomanArithmetic.Proofs.Bracketed
import RomanArithmetic.Proofs.LongestNumeral
import RomanArithmetic.Proofs.Magnitude
import RomanArithmetic.Proofs.Monotonicity
import RomanArithmetic.Proofs.DigitForms
import RomanArithmetic.Proofs.Folding
import RomanArithmetic.Proofs.Messages
import RomanArithmetic.Proofs.Steps
import RomanArithmetic.Proofs.Traces
import RomanArithmetic.Proofs.Repetitions
import RomanArithmetic.Proofs.Patterns
