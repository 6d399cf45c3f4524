import Clifford.Tensor.Basic

/-! Broadcasting: shapes are aligned at their ends, and dimensions of size one are repeated. -/

namespace Clifford

/-- The common size of two dimensions, of which one may be repeated. -/
def broadcastSize (m n : Nat) : Result Nat :=
  if m = n then .ok m else if m = 1 then .ok n else if n = 1 then .ok m
  else .error .shapeMismatch

/-- The common shape of two shapes given from the last dimension on. -/
def broadcastReversed : List Nat → List Nat → Result (List Nat)
  | [], ns => .ok ns
  | ms, [] => .ok ms
  | m :: ms, n :: ns => do return (← broadcastSize m n) :: (← broadcastReversed ms ns)

/-- The common shape of two shapes. -/
def broadcastShape (a b : List Nat) : Result (List Nat) := do
  return (← broadcastReversed a.reverse b.reverse).reverse

/-- The common shape of several shapes. -/
def broadcastShapes (shapes : List (List Nat)) : Result (List Nat) :=
  shapes.foldlM broadcastShape []

/-- Repeats entries along every dimension of size one, for shapes of one length. -/
def repeatEntries {α : Type} : List Nat → List Nat → List α → List α
  | m :: ms, n :: ns, entries =>
    let slices := (Tensor.chunks (Tensor.count ms) m entries).map (repeatEntries ms ns)
    if m = n then slices.flatten else (List.replicate n slices.flatten).flatten
  | _, _, entries => entries

/-- Repeats entries of one shape to fill another that it broadcasts to. -/
def broadcastEntries {α : Type} (source target : List Nat) (entries : List α) : List α :=
  repeatEntries (List.replicate (target.length - source.length) 1 ++ source) target entries

end Clifford
