import Clifford.Metric
import Clifford.Position

/-! The products of two basis blades: a walk that moves the left factors into the right blade. -/

namespace Clifford

/-- The products of blades. -/
inductive BladeProduct
  | geometric
  | exterior
  | contract
  | symmetricInner
deriving DecidableEq, Repr

namespace BladeProduct

/-- Every product. -/
def all : List BladeProduct := [geometric, exterior, contract, symmetricInner]

/-- The written name of a product. -/
def name : BladeProduct → String
  | geometric => "geometric"
  | exterior => "exterior"
  | contract => "contract"
  | symmetricInner => "symmetric_inner"

/-- The product of a written name. -/
def ofName? (text : String) : Option BladeProduct := all.find? (·.name = text)

/-- Whether a product depends on the squares of the basis vectors. -/
def usesMetric : BladeProduct → Bool
  | exterior => false
  | _ => true

/-- The factors of the left blade move into the right one from the highest on, each contracting
with its partner or else taking its place; nothing is left when a contraction is zero. -/
def geometricWalk (m : Metric) (left right swaps : Nat) : Option (Nat × Nat) :=
  if nonzero : left = 0 then some (right, swaps)
  else
    have := Blade.dropTop_lt nonzero
    let index := Blade.top left
    match m.partner? index right with
    | none =>
      geometricWalk m (Blade.dropTop left) (right ||| Blade.vector index)
        (swaps + Blade.countBelow right index)
    | some (partner, product) =>
      if product = 0 then none
      else
        geometricWalk m (Blade.dropTop left) (right ^^^ Blade.vector partner)
          (swaps + Blade.countBelow right partner + if product < 0 then 1 else 0)
termination_by left

/-- The factors of the left blade take their places in the right one. -/
def exteriorWalk (left right swaps : Nat) : Nat × Nat :=
  if nonzero : left = 0 then (right, swaps)
  else
    have := Blade.dropTop_lt nonzero
    let index := Blade.top left
    exteriorWalk (Blade.dropTop left) (right ||| Blade.vector index)
      (swaps + Blade.countBelow right index)
termination_by left

/-- Every factor of the left blade contracts with a partner in the right one. -/
def contractWalk (m : Metric) (left right swaps : Nat) : Option (Nat × Nat) :=
  if nonzero : left = 0 then some (right, swaps)
  else
    have := Blade.dropTop_lt nonzero
    match m.partner? (Blade.top left) right with
    | none => none
    | some (partner, product) =>
      if product = 0 then none
      else
        contractWalk m (Blade.dropTop left) (right ^^^ Blade.vector partner)
          (swaps + Blade.countBelow right partner + if product < 0 then 1 else 0)
termination_by left

/-- The signed blade at the end of a walk. -/
def signed : Option (Nat × Nat) → Nat × Int
  | some (blade, swaps) => (blade, Blade.swapSign swaps)
  | none => (0, 0)

/-- The geometric product of two blades as a blade with a sign. -/
def geometricProduct (m : Metric) (left right : Nat) : Nat × Int :=
  if left = 0 then (right, 1)
  else if right = 0 then (left, 1)
  else signed (geometricWalk m left right 0)

/-- The product of two blades as a blade and a multiplier of minus one, zero or one. -/
def compute (kind : BladeProduct) (m : Metric) (left right : Nat) : Nat × Int :=
  match kind with
  | geometric => geometricProduct m left right
  | exterior =>
    if left &&& right ≠ 0 then (0, 0) else signed (some (exteriorWalk left right 0))
  | contract =>
    if left = 0 then (right, 1)
    else if Blade.grade right < Blade.grade left then (0, 0)
    else signed (contractWalk m left right 0)
  | symmetricInner =>
    if left = 0 ∨ right = 0 then (0, 0)
    else
      let (blade, sign) := geometricProduct m left right
      let gap := (Blade.grade left - Blade.grade right) + (Blade.grade right - Blade.grade left)
      if sign = 0 ∨ Blade.grade blade ≠ gap then (0, 0) else (blade, sign)

/-- The product of two blades of the space, always taken over the orthogonal basis. -/
def entry (kind : BladeProduct) (m : Metric) (left right : Nat) : Result (Nat × Int) :=
  if left < m.dim ∧ right < m.dim then .ok (kind.compute m.base left right)
  else .error .indexRange

/-- The product at two positions of the table, where negative ones count from the end. -/
def entryAt (kind : BladeProduct) (m : Metric) (left right : Int) : Result (Nat × Int) :=
  match position? m.dim left, position? m.dim right with
  | some left, some right => kind.entry m left right
  | _, _ => .error .indexRange

/-- All products of the space, a row for each left blade. -/
def table (kind : BladeProduct) (m : Metric) : List (List (Nat × Int)) :=
  (List.range m.dim).map fun left =>
    (List.range m.dim).map fun right => kind.compute m.base left right

end BladeProduct

end Clifford
