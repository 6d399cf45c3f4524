import Clifford.Proofs.Code.Closed
import Clifford.Proofs.Code.Emit

/-! Arities: every node of lowered code has as many operands as its operation takes, and an operator has
one at least. -/

namespace Clifford

namespace Code

/-- A tree in which every node has as many operands as its operation takes, and every operator one at
least. -/
inductive WellFormed : Code → Prop
  | node {head : Head} {scale : Rat} {operands : List Code}
      (count : operands.length = head.arity) (operated : head.isOperator = true → operands ≠ [])
      (below : ∀ code ∈ operands, WellFormed code) : WellFormed (node head scale operands)

variable {code : Code} {codes : List Code} {q : Rat}

/-- The root has as many operands as its operation takes. -/
theorem WellFormed.count (wellFormed : code.WellFormed) :
    code.operands.length = code.head.arity := by
  obtain ⟨count, -, -⟩ := wellFormed
  exact count

/-- An operator has operands. -/
theorem WellFormed.operated (wellFormed : code.WellFormed) (operator : code.head.isOperator = true) :
    code.operands ≠ [] := by
  obtain ⟨-, operated, -⟩ := wellFormed
  exact operated operator

/-- The operands are well-formed. -/
theorem WellFormed.parts (wellFormed : code.WellFormed) : ∀ c ∈ code.operands, c.WellFormed := by
  obtain ⟨-, -, below⟩ := wellFormed
  exact below

/-- An operation without operands. -/
theorem wellFormed_leaf {head : Head} (count : head.arity = 0) (leaf : head.isOperator = false) :
    (Code.leaf head q).WellFormed :=
  .node count.symm (by simp [leaf]) (by simp)

/-- The multiplier of a tree plays no part. -/
theorem WellFormed.withScale (wellFormed : code.WellFormed) : (code.withScale q).WellFormed := by
  -- The new node has the same operation over the same operands.
  exact .node wellFormed.count wellFormed.operated wellFormed.parts

/-- Every way of building code keeps it well-formed. -/
theorem closed_wellFormed : Closed WellFormed where
  -- Each way of building states its operands, so that counting them is all there is to do.
  leaf _ := wellFormed_leaf
  withScale _ := WellFormed.withScale
  parts := WellFormed.parts
  unary _ _ below := .node rfl (by simp) fun _ inside => List.mem_singleton.mp inside ▸ below
  binary _ _ _ left right := .node rfl (by simp) fun _ inside => by
    rcases List.mem_pair.mp inside with rfl | rfl
    · exact left
    · exact right
  component _ _ below := .node rfl (by simp) fun _ inside => List.mem_singleton.mp inside ▸ below
  wedge _ _ several below := .node rfl (fun _ => List.ne_nil_of_length_pos (by omega)) below
  sum _ several below := .node rfl (fun _ => List.ne_nil_of_length_pos (by omega)) below

end Code

namespace Expr

/-- The code that formulas lower to is well-formed. -/
theorem wellFormed_of_lower {roots : List Expr} {codes : List Code}
    (lowered : roots.mapM lower = .ok codes) : ∀ code ∈ codes, code.WellFormed := by
  intro code inside
  -- Every tree is the code of one of the formulas.
  obtain ⟨e, -, made⟩ := Result.exists_of_mem_mapM lowered inside
  exact lower_gives Code.closed_wellFormed made

end Expr

end Clifford
