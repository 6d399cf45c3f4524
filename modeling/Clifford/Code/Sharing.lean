import Clifford.Code.Basic

/-! Sharing of equal computations: which trees are computed once, into a temporary of their own. -/

namespace Clifford

/-- Whether the operand at a position divides the other one. -/
def Head.dividesBy (head : Head) (position : Nat) : Bool :=
  head = .binary .divide && position = 1

namespace Code

/-- Whether code can be shared: an operator always, and a projection where it is a divisor. -/
def isCandidate (divisor : Bool) (code : Code) : Bool :=
  code.head.isOperator || (divisor && code.head.isComponent)

mutual

/-- The stems that can be shared, operands before the operation, with repetitions. -/
def candidates (divisor : Bool) : Code → List Code
  | node head scale operands =>
    candidatesOf head 0 operands
      ++ if (node head scale operands).isCandidate divisor then [node head 1 operands] else []

/-- The stems that can be shared among operands from a position on. -/
def candidatesOf (head : Head) (position : Nat) : List Code → List Code
  | [] => []
  | code :: rest =>
    candidates (head.dividesBy position) code ++ candidatesOf head (position + 1) rest

end

mutual

/-- Adds the stems that code refers to in front of those seen before, where a stem that has been
seen is referred to once more and not looked into again. -/
def references (divisor : Bool) : Code → List Code → List Code
  | node head scale operands, seen =>
    let stem := node head 1 operands
    if (node head scale operands).isCandidate divisor then
      if seen.contains stem then stem :: seen else referencesOf head 0 operands (stem :: seen)
    else referencesOf head 0 operands seen

/-- Adds the stems that operands from a position on refer to. -/
def referencesOf (head : Head) (position : Nat) : List Code → List Code → List Code
  | [], seen => seen
  | code :: rest, seen =>
    referencesOf head (position + 1) rest (references (head.dividesBy position) code seen)

end

/-- The stems of a divisor or argument that has to be computed on its own. -/
def isolated (divisor : Bool) (code : Code) : List Code :=
  if code.isCandidate divisor then [code.stem] else []

/-- The stems that have to be computed on their own for a node: a quotient with its divisor, and a
transcendental function with its argument. -/
def requirements : Code → List Code
  | node (.binary .divide) scale [dividend, divisor] =>
    (node (.binary .divide) scale [dividend, divisor]).stem :: divisor.isolated true
  | node (.unary op) scale [arg] =>
    if op.isTranscendental then (node (.unary op) scale [arg]).stem :: arg.isolated false else []
  | _ => []

end Code

namespace Sharing

/-- The stems of several trees that can be shared, in the order of their first occurrence. -/
def classes (roots : List Code) : List Code :=
  (roots.flatMap (Code.candidates false)).eraseDups

/-- All references to stems from several trees. -/
def references (roots : List Code) : List Code :=
  roots.foldl (fun seen root => root.references false seen) []

/-- The stems that are computed into temporaries: those that have to be, and with elimination of
common subexpressions also those referred to more than once. -/
def hoisted (eliminate : Bool) (roots : List Code) : List Code :=
  let all := classes roots
  let required := all.flatMap Code.requirements
  let referred := references roots
  all.filter fun stem => required.contains stem || (eliminate && 1 < referred.count stem)

end Sharing

end Clifford
