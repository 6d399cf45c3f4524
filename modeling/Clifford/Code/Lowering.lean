import Clifford.Code.Instruction
import Clifford.Formula.Expr
import Clifford.Multivector.Monomial

/-! Lowering of formulas: nested sums and wedges are flattened, like operands of a sum merged. -/

namespace Clifford

/-- Lists are ordered entry by entry, and a proper beginning comes first. -/
def compareLists {α : Type} (compare : α → α → Ordering) : List α → List α → Ordering
  | [], [] => .eq
  | [], _ :: _ => .lt
  | _ :: _, [] => .gt
  | a :: as, b :: bs => (compare a b).then (compareLists compare as bs)

namespace Code

/-- Code is ordered by fingerprint and then by shape. -/
def compare (a b : Code) : Ordering :=
  (Ord.compare a.checksum b.checksum).then
    (compareLists (compareLists compareRat) a.shape b.shape)

/-- Adds code to the first one that computes the same up to the multiplier. -/
def insertLike (code : Code) : List Code → Result (List Code)
  | [] => .ok [code]
  | c :: rest =>
    if c.stem = code.stem then do return c.withScale (← gatedAdd c.scale code.scale) :: rest
    else do return c :: (← insertLike code rest)

/-- Merges operands of a sum that are alike, and sorts those that do not cancel. -/
def mergeLike (operands : List Code) : Result (List Code) := do
  let merged ← operands.foldlM (fun merged code => insertLike code merged) []
  return (merged.filter fun c => c.scale ≠ 0).mergeSort fun a b => (compare a b).isLE

/-- An operation on operands, which is left out unless there are two of them at least. -/
def gather (op : VariadicOp) (total : Rat) : List Code → Result Code
  | [] => .ok zero
  | [code] => code.rescale total
  | codes => .ok (node (.variadic op codes.length) total codes)

/-- An operation on one operand: double reversion cancels, and zero is its own reverse and dual. -/
def unary (op : UnaryOp) (arg : Code) : Result Code :=
  match op, arg with
  | .reverse, node (.unary .reverse) scale operands =>
    match operands with
    | [inner] => inner.rescale scale
    | _ => .ok (node (.unary op) 1 [arg])
  | _, _ =>
    if arg.isZero && !op.isTranscendental then .ok arg else .ok (node (.unary op) 1 [arg])

/-- A multiple of a constant, which is zero for a multiplier of zero. -/
def constant (kind : ConstantKind) (element : Nat) (q : Rat) : Code :=
  if kind = .zero || q = 0 then zero else leaf (.constant kind element) q

end Code

/-- What a formula lowers to as code of its own, as part of a sum under a multiplier, and as part
of a wedge. -/
structure Lowering where
  code : Result Code
  addends : Rat → Result (List (Rat × Result Code))
  factors : Result (Rat × List (Result Code))

namespace Lowering

/-- A formula that enters sums and wedges as a whole. -/
def whole (code : Result Code) : Lowering where
  code := code
  addends q := .ok [(q, code)]
  factors := .ok (1, [code])

/-- A multiple of a formula, which passes its multiplier on to what it enters. -/
def scaled (q : Rat) (arg : Lowering) : Lowering where
  code := do (← arg.code).rescale q
  addends p := do arg.addends (← gatedMul p q)
  factors := do
    let (total, codes) ← arg.factors
    return (← gatedMul q total, codes)

/-- The code of a sum of multiples. -/
def sumCode (addends : List (Rat × Result Code)) : Result Code := do
  let operands ← addends.mapM fun (q, code) => do (← code).rescale q
  Code.gather .sum 1 (← Code.mergeLike (operands.filter fun code => !code.isZero))

/-- A sum, whose addends join a sum around it. -/
def sum (args : List Lowering) : Lowering :=
  let addends (q : Rat) := do return (← args.mapM fun arg => arg.addends q).flatten
  let code := do sumCode (← addends 1)
  { whole code with addends }

/-- The code of a multiple of a wedge, which vanishes with any of its factors. -/
def wedgeCode (total : Rat) (factors : List (Result Code)) : Result Code := do
  let operands ← factors.mapM id
  if operands.any Code.isZero then return Code.zero else Code.gather .wedge total operands

/-- Joins the factors of a wedge to those before them. -/
def joinFactors (joined : Rat × List (Result Code)) (arg : Lowering) :
    Result (Rat × List (Result Code)) := do
  let (total, codes) ← arg.factors
  return (← gatedMul joined.1 total, joined.2 ++ codes)

/-- A wedge, whose factors join a wedge around it. -/
def wedge (args : List Lowering) : Lowering :=
  let factors := args.foldlM joinFactors (1, [])
  let code := do
    let (total, codes) ← factors
    wedgeCode total codes
  { whole code with factors }

end Lowering

namespace Expr

mutual

/-- The lowering of a formula. -/
def lowering : Expr → Lowering
  | leaf index => .whole (.ok (Code.leaf (.input index) 1))
  | constant kind element q => .whole (.ok (Code.constant kind element q))
  | scaled q arg => (lowering arg).scaled q
  | unary op arg => .whole do Code.unary op (← (lowering arg).code)
  | binary op left right => .whole do
    return .node (.binary op) 1 [← (lowering left).code, ← (lowering right).code]
  | variadic .sum args => .sum (lowerings args)
  | variadic .wedge args => .wedge (lowerings args)
  | component arg element => .whole do return .node (.component element) 1 [← (lowering arg).code]
  | foreign kind => .whole (.error (.notLowerable kind))

/-- The lowerings of several formulas. -/
def lowerings : List Expr → List Lowering
  | [] => []
  | e :: rest => lowering e :: lowerings rest

end

/-- The code of a formula. -/
def lower (e : Expr) : Result Code := e.lowering.code

end Expr

end Clifford
