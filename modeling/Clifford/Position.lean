/-! Positions in a sequence, where a negative position counts from the end. -/

namespace Clifford

/-- The index that a signed position names in a sequence of the given length. -/
def position? (length : Nat) (i : Int) : Option Nat :=
  if 0 ≤ i then
    if i.toNat < length then some i.toNat else none
  else if (-i).toNat ≤ length then some (length - (-i).toNat) else none

/-- The entry at a signed position. -/
def entryAt? {α : Type} (xs : List α) (i : Int) : Option α :=
  match position? xs.length i with
  | some k => xs[k]?
  | none => none

end Clifford
