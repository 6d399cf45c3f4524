import Clifford.Proofs.Multivector.Ring

/-! Reversals: the reversal of a geometric product is the product of the reversals in the opposite
order, over any basis. -/

namespace Clifford

open Finsupp

namespace Blade

/-- Reversing the blade of a product exchanges the factors of its structure coefficient. -/
theorem reversionSign_twist (square : Nat → Int) {n a b : Nat} (left : a < 2 ^ n)
    (right : b < 2 ^ n) :
    reversionSign (a ^^^ b) * twist square n a b =
      reversionSign a * reversionSign b * twist square n b a := by
  -- The common vectors contract alike in either order.
  have squares : sharedSquares square n a b = sharedSquares square n b a :=
    Finset.prod_congr rfl fun i _ => by rw [Bool.and_comm]
  rw [twist, twist, ← mul_assoc, reversionSign_xor left right, squares, mul_assoc]

end Blade

namespace Reading

variable {M : Type} [AddCommGroup M] [Module Rat M] {r : Reading M}

/-- Factors that commute may be exchanged together with the blades of the structure constants. -/
theorem twisted_flip (commutative : ∀ x y, r.mul x y = r.mul y x) (factor : Nat → Nat → Int)
    (x y : Nat →₀ M) : r.twisted factor x y = r.twisted (fun a b => factor b a) y x := by
  -- Products of single blades are exchanged, and both sides are linear in either factor.
  induction x using Finsupp.induction_linear with
  | zero => simp
  | add x x' left right => simp [left, right]
  | single a u =>
    induction y using Finsupp.induction_linear with
    | zero => simp
    | add y y' left right => simp [left, right]
    | single b v => rw [twisted_single, twisted_single, commutative, Nat.xor_comm]

/-- Laurent polynomials commute. -/
theorem laurent_mul_comm (x y : (Nat →₀ Rat) →₀ Rat) : laurent.mul x y = laurent.mul y x := by
  -- Monomials commute.
  induction x using Finsupp.induction_linear with
  | zero => simp
  | add x x' left right => simp [left, right]
  | single e p =>
    induction y using Finsupp.induction_linear with
    | zero => simp
    | add y y' left right => simp [left, right]
    | single f q => rw [laurent_mul_single, laurent_mul_single, add_comm, mul_comm]

/-- The linear map that multiplies the value on every blade by the sign of its reversal. -/
noncomputable def reversal : (Nat →₀ M) →ₗ[Rat] (Nat →₀ M) :=
  bladewise fun e => (Blade.reversionSign e : Rat)

/-- The sign of a reversal depends on the grade alone. -/
theorem gradewise_reversionSign : Gradewise fun e => (Blade.reversionSign e : Rat) := by
  intro a b same
  simp only [Blade.reversionSign, same]

/-- The reversal of a geometric product of values is the product of the reversals in the opposite
order. -/
theorem reversal_clifford {m : Metric} (commutative : ∀ x y, r.mul x y = r.mul y x) {x y : Nat →₀ M}
    (left : x ∈ spaceValues M m.dim) (right : y ∈ spaceValues M m.dim) :
    reversal (r.clifford .geometric m x y) =
      r.clifford .geometric m (reversal y) (reversal x) := by
  -- On two blades a reversal exchanges the factors.
  have law : ∀ a < m.dim, ∀ b < m.dim,
      (Blade.reversionSign (a ^^^ b) : Rat) *
          (BladeProduct.geometric.coefficient m.signature a b : Rat) =
        Blade.reversionSign a * Blade.reversionSign b *
          BladeProduct.geometric.coefficient m.signature b a := by
    intro a insideA b insideB
    rw [m.dim_eq_two_pow] at insideA insideB
    simp only [BladeProduct.coefficient, BladeProduct.keeps, if_true]
    exact_mod_cast Blade.reversionSign_twist _ insideA insideB
  -- Reversals commute with the change of basis, since both of its vectors have the same grade.
  calc reversal (r.clifford .geometric m x y)
      = m.unframed (reversal (r.twisted (BladeProduct.geometric.coefficient m.signature)
          (m.framed x) (m.framed y))) :=
        (Metric.frame_bladewise gradewise_reversionSign _).symm
    _ = m.unframed (r.twisted (fun a b => BladeProduct.geometric.coefficient m.signature b a)
          (reversal (m.framed x)) (reversal (m.framed y))) := by
        rw [reversal, r.bladewise_twisted law (Metric.framed_mem left) (Metric.framed_mem right)]
    _ = m.unframed (r.twisted (BladeProduct.geometric.coefficient m.signature)
          (m.framed (reversal y)) (m.framed (reversal x))) := by
        rw [twisted_flip commutative, reversal, Metric.framed,
          Metric.frame_bladewise gradewise_reversionSign,
          Metric.frame_bladewise gradewise_reversionSign]
    _ = r.clifford .geometric m (reversal y) (reversal x) := rfl

/-- Reversing a value twice changes nothing. -/
theorem reversal_reversal (x : Nat →₀ M) : reversal (reversal x) = x := by
  rw [reversal, bladewise_bladewise]
  -- Every sign is its own inverse.
  have units : (fun e => (Blade.reversionSign e : Rat) * Blade.reversionSign e) = fun _ => 1 := by
    funext e
    rcases Blade.reversionSign_cast e with one | minus <;> simp [*]
  rw [units, bladewise_const, one_smul]

end Reading

namespace Multivector.Polynomial

variable {dim k : Nat} {a : Multivector}

/-- Polynomials have a reversal, whose value is the reversal of their value. -/
theorem exists_reverse (polynomial : a.Polynomial dim k) :
    ∃ b, a.reverse = .ok b ∧ b.Polynomial dim k ∧
      Reading.laurent.read b = Reading.reversal (Reading.laurent.read a) := by
  have required := requirePlain_eq_ok polynomial.plain.1
  obtain ⟨b, made⟩ : ∃ b, a.reverse = .ok b := ⟨_, by rw [reverse, required]; rfl⟩
  -- A reversal is taken for all plain multivectors, and it multiplies by units.
  obtain ⟨-, rfl⟩ := reverse_eq_ok made
  refine ⟨_, made, polynomial.rescaled (fun e => Dyadic.intCast _) fun e => ?_, read_rescaled _ _ _⟩
  rcases Blade.reversionSign_cast e with one | minus <;> simp [*]

end Multivector.Polynomial

namespace Algebra

/-- The reversal of a geometric product is the product of the reversals in the opposite order, and
reversing twice changes nothing. -/
theorem reverse_geometric (A : Algebra) {a b : Multivector} (left : a.Integral A.dim)
    (right : b.Integral A.dim) :
    (∃ c, (do (← A.geometric a b).reverse) = .ok c ∧
      (do A.geometric (← b.reverse) (← a.reverse)) = .ok c) ∧
    (do (← a.reverse).reverse) = .ok a := by
  -- Both sides are polynomials with the same value.
  obtain ⟨a', runA, polyA, valueA⟩ := left.polynomial.exists_reverse
  obtain ⟨b', runB, polyB, valueB⟩ := right.polynomial.exists_reverse
  constructor
  · obtain ⟨c, runC, polyC, valueC⟩ :=
      left.polynomial.exists_product (m := A.metric) .geometric right.polynomial (by decide)
    obtain ⟨d, runD, polyD, valueD⟩ := polyC.exists_reverse
    obtain ⟨e, runE, polyE, valueE⟩ :=
      polyB.exists_product (m := A.metric) .geometric polyA (by decide)
    -- Two polynomials with the same value are the same multivector.
    have same : e = d := by
      refine polyE.eq_of_read polyD ?_
      rw [valueE, valueA, valueB, valueD, valueC, Reading.reversal_clifford Reading.laurent_mul_comm]
      · exact Reading.laurent.read_mem_spaceValues left.toWhole.over
      · exact Reading.laurent.read_mem_spaceValues right.toWhole.over
    exact ⟨d, by rw [geometric, runC, Result.ok_bind, runD],
      by rw [runB, Result.ok_bind, runA, Result.ok_bind, geometric, runE, same]⟩
  · obtain ⟨a'', again, polyA', valueA'⟩ := polyA.exists_reverse
    have same : a'' = a := polyA'.eq_of_read left.polynomial (by
      rw [valueA', valueA, Reading.reversal_reversal])
    rw [runA, Result.ok_bind, again, same]

/-- The product of `2 * x * e_o + 3 * y² * e₁ ∧ e_inf` and `x⁻¹ * e_inf - e_o ∧ e_inf` in a conformal
algebra. -/
theorem reverse_geometric_conformal :
    let A : Algebra := { metric := .null ⟨2, 1, 0, by decide⟩ (by decide) (by decide) }
    let a : Multivector := { terms := [⟨2, [⟨2, [⟨0, 1⟩]⟩]⟩, ⟨5, [⟨3, [⟨1, 2⟩]⟩]⟩] }
    let b : Multivector := { terms := [⟨4, [⟨1, [⟨0, -1⟩]⟩]⟩, ⟨6, [⟨-1, []⟩]⟩] }
    a.Integral A.dim ∧ b.Integral A.dim ∧
      (∃ c, (do (← A.geometric a b).reverse) = .ok c ∧
        (do A.geometric (← b.reverse) (← a.reverse)) = .ok c) ∧
      (do (← a.reverse).reverse) = .ok a := by
  intro A a b
  have left : a.Integral A.dim := by decide +kernel
  have right : b.Integral A.dim := by decide +kernel
  exact ⟨left, right, reverse_geometric A left right⟩

end Algebra

end Clifford
