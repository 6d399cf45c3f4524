import Clifford.Benchmark.Arguments

/-! The command line: runs a benchmark on normally distributed numbers and prints its summary. -/

open Clifford

/-- A number above zero, up to one. -/
def uniform : IO Float := do
  return Float.ofNat ((← IO.rand 0 0x3FFFFFFF) + 1) / Float.ofNat 0x40000000

/-- A normally distributed number, from a radius and an angle in the plane. -/
def normal : IO Float := do
  let radius := Float.sqrt (-2 * Float.log (← uniform))
  return radius * Float.cos (2 * Arithmetic.pi * (← uniform))

/-- Runs the benchmark that the arguments describe. -/
def main (arguments : List String) : IO UInt32 := do
  match Benchmark.Settings.ofArguments arguments with
  | .error argument =>
    IO.eprintln ("unknown setting: " ++ argument)
    return 2
  | .ok settings =>
    IO.setRandSeed settings.seed.toNat
    let numbers ← (Array.range settings.drawCount).mapM fun _ => normal
    match settings.run (numbers.getD · 0) with
    | .ok summary =>
      IO.println summary.display
      return if summary.passed then 0 else 1
    | .error cause =>
      IO.eprintln cause.message
      return 2
