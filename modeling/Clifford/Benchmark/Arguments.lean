import Clifford.Benchmark.Run
import Clifford.Text.Scientific

/-! The command line of benchmarks: settings written `key=value`, and the text of a summary. -/

namespace Clifford.Benchmark

/-- A decimal number, written with an optional point and exponent. -/
def parseFloat? (text : String) : Option Float :=
  let (mantissa, exponent) := match (text.map Char.toLower).splitOn "e" with
    | [m] => (m, some 0)
    | [m, e] => (m, (if e.startsWith "+" then (e.drop 1).toString else e).toInt?)
    | _ => ("", none)
  let negative := mantissa.startsWith "-"
  let digits := if negative then (mantissa.drop 1).toString else mantissa
  let number? := match digits.splitOn "." with
    | [whole] => whole.toNat?.map (·, 0)
    | [whole, fraction] => (whole ++ fraction).toNat?.map (·, fraction.length)
    | _ => none
  match number?, exponent with
  | some (number, places), some e =>
    let shift : Int := e - places
    let value := Float.ofScientific number (shift < 0) shift.natAbs
    some (if negative then -value else value)
  | _, _ => none

/-- A truth value. -/
def parseBool? (text : String) : Option Bool :=
  match text.map Char.toLower with
  | "true" => some true
  | "false" => some false
  | _ => none

/-- Settings with one of them replaced, or nothing for an unknown key or value. -/
def Settings.set? (s : Settings) (key value : String) : Option Settings :=
  match key with
  | "name" => some { s with task := value }
  | "formula" => some { s with formula := value }
  | "seed" => value.toInt?.map fun seed => { s with seed }
  | "log_level" => some s
  | "algebra.device" => some { s with device := value }
  | "algebra.dtype" => some { s with precision := value }
  | "compiler.cse" => (parseBool? value).map fun eliminate => { s with eliminate }
  | "run.batch" => value.toNat?.map fun batch => { s with batch }
  | "run.iterations" => value.toNat?.map fun iterations => { s with iterations }
  | "run.tolerance" => (parseFloat? value).map fun tolerance => { s with tolerance }
  | _ => none

/-- Settings from arguments, where a wrong argument is given back. -/
def Settings.ofArguments (arguments : List String) : Except String Settings :=
  arguments.foldlM (fun s argument =>
    match argument.splitOn "=" with
    | [key, value] => match s.set? key value with
      | some s => .ok s
      | none => .error argument
    | _ => .error argument) {}

/-- The text of a summary. -/
def Summary.display (s : Summary) : String :=
  let number (x : Float) := Text.Scientific.ofFloat ⟨3, 0⟩ x
  s.formula ++ ": max abs error " ++ (if s.maxError = 0 then "0" else number s.maxError)
    ++ " (mean " ++ (if s.meanError = 0 then "0" else number s.meanError) ++ "), "
    ++ (if s.passed then "passed" else "failed")

end Clifford.Benchmark
