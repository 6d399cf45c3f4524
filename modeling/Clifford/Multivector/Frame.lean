import Clifford.Metric
import Clifford.Multivector.Collate

/-! Changes of basis between the vectors of a marked pair and the orthogonal vectors they span. -/

namespace Clifford

/-- Two vectors expressed over two others, a row for each. -/
structure PairMatrix where
  lowLow : Rat
  lowHigh : Rat
  highLow : Rat
  highHigh : Rat

namespace PairMatrix

/-- The matrix that changes nothing. -/
def identity : PairMatrix := ⟨1, 0, 0, 1⟩

/-- The factor of a blade that holds both vectors. -/
def determinant (m : PairMatrix) : Result Rat := do
  gatedSub (← gatedMul m.lowLow m.highHigh) (← gatedMul m.lowHigh m.highLow)

end PairMatrix

namespace Metric

/-- The null vectors over the orthogonal ones: `e_o = (e₋ - e₊) / 2` and `e_inf = e₋ + e₊`. -/
def toDiagonal : Metric → PairMatrix
  | null _ _ _ => ⟨-1 / 2, 1 / 2, 1, 1⟩
  | _ => .identity

/-- The orthogonal vectors over the null ones. -/
def toWorking : Metric → PairMatrix
  | null _ _ _ => ⟨-1, 1 / 2, 1, 1 / 2⟩
  | _ => .identity

/-- The images of a blade: only its part in the pair changes, since the pair is highest. -/
def pairImages (m : Metric) (matrix : PairMatrix) (blade : Nat) : Result (List (Nat × Rat)) :=
  let low := Blade.vector m.pair.1
  let high := Blade.vector m.pair.2
  match blade.testBit m.pair.1, blade.testBit m.pair.2 with
  | false, false => .ok [(blade, 1)]
  | true, false => .ok [(blade, matrix.lowLow), (blade ^^^ low ^^^ high, matrix.lowHigh)]
  | false, true => .ok [(blade ^^^ high ^^^ low, matrix.highLow), (blade, matrix.highHigh)]
  | true, true => do return [(blade, ← matrix.determinant)]

/-- The images of all monomials of a term. -/
def termImages (m : Metric) (matrix : PairMatrix) (t : Term) : Result (List Entry) := do
  let images ← m.pairImages matrix t.element
  let copies ← (images.filter fun image => image.2 ≠ 0).mapM fun (blade, factor) =>
    t.monomials.mapM fun mono => do
      return Entry.of blade (← gatedMul mono.coefficient factor) mono.powers
  return copies.flatten

/-- A multivector with every blade replaced by its images. -/
def changeBasis (m : Metric) (matrix : PairMatrix) (a : Multivector) : Result Multivector := do
  let images ← a.terms.mapM (m.termImages matrix)
  collate images.flatten a.op a.opScale

/-- A multivector over the orthogonal basis. -/
def diagonalize (m : Metric) (a : Multivector) : Result Multivector :=
  if m.isDiagonal then .ok a else m.changeBasis m.toDiagonal a

/-- A multivector over the working basis. -/
def undiagonalize (m : Metric) (a : Multivector) : Result Multivector :=
  if m.isDiagonal then .ok a else m.changeBasis m.toWorking a

end Metric

end Clifford
