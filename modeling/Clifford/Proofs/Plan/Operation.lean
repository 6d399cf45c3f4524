import Clifford.Proofs.Multivector.Fresh

/-! The operators of formulas on symbolic multivectors denote those on dense vectors, and the results
of functions without a polynomial form are fresh indeterminates on the blades that they reach. -/

namespace Clifford

variable {A : Algebra} {F : Functions A.dim} {ρ : Nat → Rat} {bound : Nat} {a b c : Multivector}
  {x y z : Dense}

/-- The number of blades of an algebra is a power of two. -/
theorem Algebra.dim_eq_two_pow (A : Algebra) : A.dim = 2 ^ A.n := A.metric.dim_eq_two_pow

/-- Every algebra has the scalar blade. -/
theorem Algebra.dim_pos (A : Algebra) : 0 < A.dim := by
  -- A power of two is positive.
  rw [A.dim_eq_two_pow]
  exact Nat.two_pow_pos _

/-- A constant denotes its coefficients and has unit coefficients. -/
theorem ConstantKind.denotes {kind : ConstantKind} {element : Nat}
    (dense : kind.dense element A.dim = some x) (value : kind.value element = .ok a) :
    a.Denotes F ρ bound x ∧ a.HasUnits := by
  -- The circle number and the base have no rational coefficients.
  cases kind with
  | zero =>
    cases dense
    cases value
    refine ⟨.zero, fun e inside => ?_⟩
    simp [Multivector.entries, Multivector.zero] at inside
  | basis =>
    cases value
    obtain ⟨inside, done⟩ := Option.ite_none_right_eq_some.mp dense
    cases done
    refine ⟨.basis inside (.one 0), fun e member => ?_⟩
    obtain rfl : e = ⟨element, ⟨1, []⟩⟩ := by
      simpa [Multivector.entries, Multivector.basis, Term.entries] using member
    exact .inl rfl
  | pi => cases dense
  | e => cases dense

/-- An operator of one operand that is not computed on dense multivectors denotes its result. -/
theorem UnaryOp.denotes {op : UnaryOp} (symbolic : RotorFunction.ofUnaryOp? op = none)
    (arg : a.Denotes F ρ bound x) (dense : op.dense A F x = some y) (value : op.apply A a = .ok b) :
    b.Denotes F ρ bound y := by
  -- Each operator has a lemma of its own for what it denotes.
  cases op with
  | reverse =>
    cases dense
    exact arg.reversed value
  | dual =>
    cases dense
    have power := A.dim_eq_two_pow
    show b.Denotes F ρ bound (x.dual A.n A.dim)
    generalize A.dim = dim at F arg power ⊢
    subst power
    exact arg.dualized value
  | sqrt => exact arg.deferred (by decide) value dense
  | sin => exact arg.deferred (by decide) value dense
  | cos => exact arg.deferred (by decide) value dense
  | tan => exact arg.deferred (by decide) value dense
  | exp => cases symbolic
  | log => cases symbolic

/-- An operator of two operands denotes its result, where a divisor has unit coefficients. -/
theorem BinaryOp.denotes (diagonal : A.metric.isDiagonal = true) {op : BinaryOp}
    (left : a.Denotes F ρ bound x) (right : b.Denotes F ρ bound y)
    (units : op = .divide → b.HasUnits) (dense : op.dense A x y = some z)
    (value : op.apply A a b = .ok c) : c.Denotes F ρ bound z := by
  -- All products are bilinear in the coefficients, and a quotient needs a divisor with unit
  -- coefficients.
  cases op with
  | geometric =>
    cases dense
    exact left.multiplied diagonal right value
  | contract =>
    cases dense
    exact left.multiplied diagonal right value
  | inner =>
    cases dense
    exact left.multiplied diagonal right value
  | divide =>
    obtain ⟨⟨-, nonzero⟩, done⟩ := Option.ite_none_right_eq_some.mp dense
    cases done
    exact left.divided right (units rfl) nonzero value

/-- Two operands of an operator of any number of them denote their combination. -/
theorem VariadicOp.denotes_combine (diagonal : A.metric.isDiagonal = true) {op : VariadicOp}
    (left : a.Denotes F ρ bound x) (right : b.Denotes F ρ bound y)
    (value : op.combine A a b = .ok c) : c.Denotes F ρ bound (op.combineDense A x y) := by
  cases op with
  | sum => exact left.added right value
  | wedge => exact left.multiplied diagonal right value

/-- An operator of any number of operands denotes its result. -/
theorem VariadicOp.denotes (diagonal : A.metric.isDiagonal = true) {op : VariadicOp}
    {args : List Multivector} {xs : List Dense}
    (each : List.Forall₂ (Multivector.Denotes F ρ bound) args xs) (dense : op.dense A xs = some x)
    (value : op.apply A args = .ok b) : b.Denotes F ρ bound x := by
  -- The operands are combined from the left.
  cases each with
  | nil => cases dense
  | @cons first y args xs start rest =>
    cases dense
    change args.foldlM (op.combine A) first = .ok b at value
    induction rest generalizing first y with
    | nil =>
      cases value
      exact start
    | cons second _ ih =>
      rw [List.foldlM_cons] at value
      obtain ⟨next, combined, later⟩ := Result.bind_eq_ok.mp value
      exact ih (denotes_combine diagonal start second combined) later

namespace RotorFunction

/-- The blades that the result of a function can have coefficients on. -/
def blades (function : RotorFunction) (dim : Nat) : List Nat :=
  (List.range dim).filter function.reaches

/-- The blades that a function can reach increase. -/
theorem pairwise_blades (function : RotorFunction) (dim : Nat) :
    (function.blades dim).Pairwise (· < ·) := List.pairwise_lt_range.filter _

/-- The symbolic result of a function is a fresh indeterminate on each blade that it reaches. -/
theorem block_eq (function : RotorFunction) (A : Algebra) (id : Nat) :
    function.block A id = .ok (Multivector.fresh id (function.blades A.dim)) := by
  -- The blades are listed in order, so that each gets the next id.
  have increasing := function.pairwise_blades A.dim
  rw [← Multivector.ofElements_eq_fresh increasing]
  cases function <;> rfl

/-- A function that takes an argument has one on blades that the result reaches. -/
theorem reached {function : RotorFunction} (arg : a.Denotes F ρ bound x) {u : Unit}
    (required : function.requireArgument a = .ok u) (value : F.rotor function x = some y) {blade : Nat}
    (nonzero : y blade ≠ 0) : blade ∈ function.blades A.dim := by
  -- An exponential asks for a bivector, and then its result is even.
  have bivector : function = .exp → ∀ b, x b ≠ 0 → Blade.grade b = 2 := by
    rintro rfl b present
    have stored : b ∈ a.elements := by
      by_contra missing
      exact present (arg.absent missing)
    rw [requireArgument] at required
    split at required
    · cases required
    · split at required
      · cases required
      · rename_i only
        by_contra other
        exact only (List.any_eq_true.mpr ⟨b, stored, by simpa using other⟩)
  obtain ⟨inside, reaches⟩ := F.rotor_reaches function x y bivector value blade nonzero
  exact List.mem_filter.mpr ⟨List.mem_range.mpr inside, reaches⟩

end RotorFunction

end Clifford
