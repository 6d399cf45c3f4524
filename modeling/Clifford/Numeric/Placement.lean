import Clifford.Numeric.Precision

/-! Where plans are evaluated: a device by name, and the precision that evaluation has on it. -/

namespace Clifford

/-- A device by name, with the precision of evaluation on it. -/
structure Placement where
  device : String
  precision : Precision
deriving DecidableEq, Repr

namespace Placement

/-- The name of the device that a request stands for, where the choice may be left open. -/
def resolve (device : String) : String := if device = "auto" then "cpu" else device

/-- Whether a device has numbers of double precision. -/
def hasDouble (device : String) : Bool := device ≠ "mps"

/-- A device with a precision by name, which falls back to single where double is missing. -/
def ofNames (device precision : String) : Result Placement := do
  let device := resolve device
  let precision ← Precision.ofText precision
  return ⟨device, if hasDouble device then precision else .single⟩

end Placement

end Clifford
