import Clifford.Tensor.Basic

/-! Nested lists as the written form of tensors. -/

namespace Clifford

/-- An entry, or a list of slices. -/
inductive Nested (α : Type)
  | entry (x : α)
  | slices (xs : List (Nested α))

namespace Nested

variable {α : Type}

/-- Joins slices of one shape. -/
def join : List (Tensor α) → Result (Tensor α)
  | [] => .ok ⟨[0], []⟩
  | first :: rest =>
    if rest.all (·.shape = first.shape) then
      .ok ⟨(rest.length + 1) :: first.shape, (first :: rest).flatMap (·.entries)⟩
    else .error .raggedTensor

mutual

/-- The tensor of nested lists, in which all slices of a list need one shape. -/
def toTensor : Nested α → Result (Tensor α)
  | entry x => .ok ⟨[], [x]⟩
  | slices xs => do join (← toTensors xs)

/-- The tensors of several slices. -/
def toTensors : List (Nested α) → Result (List (Tensor α))
  | [] => .ok []
  | x :: rest => do return (← toTensor x) :: (← toTensors rest)

end

/-- The nested lists of entries under a shape. -/
def ofEntries : List Nat → List α → Nested α
  | [], x :: _ => entry x
  | [], [] => slices []
  | m :: ms, entries => slices ((Tensor.chunks (Tensor.count ms) m entries).map (ofEntries ms))

/-- The nested lists of a tensor. -/
def ofTensor (t : Tensor α) : Nested α := ofEntries t.shape t.entries

end Nested

end Clifford
