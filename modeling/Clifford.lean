import Clifford.Algebra
import Clifford.Benchmark.Arguments
import Clifford.Benchmark.Formula
import Clifford.Benchmark.Run
import Clifford.Blade
import Clifford.Checksum
import Clifford.Code.Basic
import Clifford.Code.Instruction
import Clifford.Code.Lowering
import Clifford.Code.Program
import Clifford.Code.Sharing
import Clifford.Code.Spans
import Clifford.Deferred
import Clifford.Entity.Basic
import Clifford.Entity.Kind
import Clifford.Entity.Reading
import Clifford.Entity.Stored
import Clifford.Error
import Clifford.Formula.Expr
import Clifford.Formula.Operand
import Clifford.Formula.Operator
import Clifford.Formula.Reduce
import Clifford.Log.Level
import Clifford.Main
import Clifford.Metric
import Clifford.Metric.BladeProduct
import Clifford.Metric.Signature
import Clifford.Multivector.Arena
import Clifford.Multivector.Arithmetic
import Clifford.Multivector.Basic
import Clifford.Multivector.Canonical
import Clifford.Multivector.Collate
import Clifford.Multivector.Frame
import Clifford.Multivector.Monomial
import Clifford.Multivector.Product
import Clifford.Numeric.Arithmetic
import Clifford.Numeric.Dense
import Clifford.Numeric.Placement
import Clifford.Numeric.Precision
import Clifford.Opcode
import Clifford.Plan.Basic
import Clifford.Plan.Evaluate
import Clifford.Plan.Machine
import Clifford.Plan.Operation
import Clifford.Planner
import Clifford.Planner.Compute
import Clifford.Planner.Session
import Clifford.Position
import Clifford.Proofs.Blade.Bits
import Clifford.Proofs.Blade.Twist
import Clifford.Proofs.Code.Emit
import Clifford.Proofs.Code.Unfold
import Clifford.Proofs.Metric.Coefficient
import Clifford.Proofs.Metric.Pair
import Clifford.Proofs.Metric.Walk
import Clifford.Proofs.Multivector.Bilinear
import Clifford.Proofs.Multivector.Canonical
import Clifford.Proofs.Multivector.Collate
import Clifford.Proofs.Multivector.Frame
import Clifford.Proofs.Multivector.Laurent
import Clifford.Proofs.Multivector.NullBasis
import Clifford.Proofs.Multivector.Order
import Clifford.Proofs.Multivector.Powers
import Clifford.Proofs.Multivector.Product
import Clifford.Proofs.Multivector.Reading
import Clifford.Proofs.Multivector.Ring
import Clifford.Proofs.Multivector.Sum
import Clifford.Proofs.Multivector.Transport
import Clifford.Proofs.Multivector.Unique
import Clifford.Proofs.Rational.Exact
import Clifford.Proofs.Rational.LowestTerms
import Clifford.Proofs.Result
import Clifford.Rational.Arithmetic
import Clifford.Rational.Binary64
import Clifford.Rational.Gate
import Clifford.Rational.Literal
import Clifford.Rational.LowestTerms
import Clifford.Rational.SternBrocot
import Clifford.Tensor.Basic
import Clifford.Tensor.Broadcast
import Clifford.Tensor.Nested
import Clifford.Text.Numeral
import Clifford.Text.Scientific
import Clifford.Proofs.Code.Hoisting
import Clifford.Proofs.Code.Lowering
import Clifford.Proofs.Multivector.Denotes
import Clifford.Proofs.Multivector.Fresh
import Clifford.Proofs.Plan.Exact
import Clifford.Proofs.Plan.Machine
import Clifford.Proofs.Code.Arity
import Clifford.Proofs.Code.Complete
import Clifford.Proofs.Multivector.Closed
import Clifford.Proofs.Multivector.Negation
import Clifford.Proofs.Plan.Meaning
import Clifford.Proofs.Planner.Leaves
import Clifford.Proofs.Planner.Meaning
import Clifford.Proofs.Outcome
import Clifford.Proofs.Code.Inspection
import Clifford.Proofs.Multivector.Concur
import Clifford.Proofs.Plan.Acceptance
import Clifford.Proofs.Plan.Lockstep
import Clifford.Proofs.Planner.Acceptance
import Clifford.Proofs.Code.Isolation
import Clifford.Proofs.Code.Layout
import Clifford.Proofs.Code.Signature
import Clifford.Proofs.Failure
import Clifford.Proofs.Multivector.Built
import Clifford.Proofs.Multivector.Domain
import Clifford.Proofs.Plan.Built
import Clifford.Proofs.Plan.Discipline
import Clifford.Proofs.Plan.Domain
import Clifford.Proofs.Plan.Numbering
import Clifford.Proofs.Plan.Step
import Clifford.Proofs.Planner.Cache
import Clifford.Proofs.Planner.Domain
import Clifford.Proofs.Planner.Numbering
import Clifford.Proofs.Rational.Parents
import Clifford.Proofs.Rational.Rounding
import Clifford.Proofs.Rational.Closeness
import Clifford.Proofs.Rational.Growth
import Clifford.Proofs.Dense.Evaluation
import Clifford.Proofs.Dense.Agreement
import Clifford.Proofs.Tensor.Index
import Clifford.Proofs.Tensor.Broadcast
import Clifford.Proofs.Tensor.Row
import Clifford.Proofs.RowWise
import Clifford.Proofs.Plan.Rows
import Clifford.Proofs.Dense.Rows
import Clifford.Proofs.Plan.Batch
import Clifford.Proofs.Multivector.LinearMerge
import Clifford.Proofs.Multivector.Totals
import Clifford.Proofs.Code.Closed
import Clifford.Proofs.Code.Order
import Clifford.Proofs.Code.Like
import Clifford.Proofs.Code.Integral
import Clifford.Proofs.Code.Sums
import Clifford.Proofs.Multivector.Scaling
import Clifford.Proofs.Planner.Scaling
import Clifford.Proofs.Blade.Grade
import Clifford.Proofs.Blade.Complement
import Clifford.Proofs.Metric.Inversions
import Clifford.Proofs.Multivector.Bladewise
import Clifford.Proofs.Multivector.Image
import Clifford.Proofs.Multivector.Reversal
import Clifford.Proofs.Multivector.Dual
import Clifford.Proofs.Multivector.Regressive
import Clifford.Proofs.Multivector.Meeting
import Clifford.Proofs.Multivector.GradePart
import Clifford.Proofs.Multivector.PartProduct
import Clifford.Proofs.Multivector.Contraction
import Clifford.Proofs.Multivector.Lattice
import Clifford.Proofs.Multivector.Quotient
import Clifford.Proofs.Multivector.ValueRing
import Clifford.Proofs.Multivector.Versor
import Clifford.Proofs.Multivector.RoundTrip
import Clifford.Proofs.Multivector.SignedComplement
import Clifford.Proofs.Multivector.VectorValue
import Clifford.Proofs.Multivector.ConformalPoint
import Clifford.Proofs.Multivector.PolynomialValue
import Clifford.Proofs.Plan.SingleRow
import Clifford.Proofs.Benchmark.Symbolic
import Clifford.Proofs.Benchmark.Exact
import Clifford.Proofs.Rational.ErrorBound
import Clifford.Proofs.Rational.Sign
import Clifford.Proofs.Rational.Settling
import Clifford.Proofs.Rational.Tree
import Clifford.Proofs.Multivector.Projection
import Clifford.Proofs.Tensor.Stages
import Clifford.Proofs.Plan.Shapes
import Clifford.Proofs.Code.Spans
import Clifford.Proofs.Code.Matching
