/-! Operation codes shared by formulas and compiled instructions. -/

namespace Clifford

/-- The operations of formulas and of the code they compile to. -/
inductive Opcode
  | input
  | load
  | operand
  | store
  | constant
  | reverse
  | dual
  | sqrt
  | sin
  | cos
  | tan
  | exp
  | log
  | sum
  | geometric
  | exterior
  | contract
  | inner
  | divide
  | component
deriving DecidableEq, Repr

namespace Opcode

/-- Every operation, in the order of its number. -/
def all : List Opcode :=
  [input, load, operand, store, constant, reverse, dual, sqrt, sin, cos, tan, exp, log, sum,
    geometric, exterior, contract, inner, divide, component]

/-- The number of an operation, which orders and fingerprints compiled code. -/
def number : Opcode → Nat
  | input => 0
  | load => 1
  | operand => 2
  | store => 3
  | constant => 4
  | reverse => 5
  | dual => 6
  | sqrt => 7
  | sin => 8
  | cos => 9
  | tan => 10
  | exp => 11
  | log => 12
  | sum => 13
  | geometric => 14
  | exterior => 15
  | contract => 16
  | inner => 17
  | divide => 18
  | component => 19

/-- The mnemonic of an operation in capitals. -/
def mnemonic : Opcode → String
  | input => "ID"
  | load => "CSE"
  | operand => "SE"
  | store => "NOOP"
  | constant => "CONST"
  | reverse => "REV"
  | dual => "PD"
  | sqrt => "SQRT"
  | sin => "SIN"
  | cos => "COS"
  | tan => "TAN"
  | exp => "EXP"
  | log => "LOG"
  | sum => "SUM"
  | geometric => "GP"
  | exterior => "EP"
  | contract => "LC"
  | inner => "SIP"
  | divide => "DIV"
  | component => "COMP"

/-- The written name of an operation. -/
def name (op : Opcode) : String := op.mnemonic.toLower

/-- The operation of a written name. -/
def ofName? (text : String) : Option Opcode := all.find? (·.name = text)

/-- An operation as it stands in messages about its arity. -/
def display (op : Opcode) : String :=
  "<Op." ++ op.mnemonic ++ ": " ++ toString op.number ++ ">"

end Opcode

end Clifford
