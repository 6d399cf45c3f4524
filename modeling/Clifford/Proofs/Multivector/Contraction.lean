import Clifford.Proofs.Multivector.Concur
import Clifford.Proofs.Multivector.PartProduct
import Clifford.Proofs.Multivector.Ring

/-! The left contraction: it undoes the exterior product one factor at a time, and together they make up
the geometric product with a vector. -/

namespace Clifford

open Finsupp

namespace Algebra

/-- Contracting by an exterior product contracts by its second factor and then by the first. -/
theorem contract_wedge (A : Algebra) {a b c : Multivector} (first : a.Integral A.dim)
    (second : b.Integral A.dim) (third : c.Integral A.dim) :
    ∃ d, (do A.contract (← A.wedge a b) c) = .ok d ∧
      (do A.contract a (← A.contract b c)) = .ok d :=
  polynomial_regroup BladeProduct.regroups_contract first.polynomial second.polynomial
    third.polynomial

/-- Contractions of `(z³ - 2) * e_o ∧ e_inf + 5 * x * e₁ ∧ e_o ∧ e_inf` by `e_inf - 3 * y⁻¹` and
`e₂ + 2 * x * e_o` in a conformal algebra. -/
theorem contract_wedge_conformal :
    let A : Algebra := { metric := .null ⟨3, 1, 0, by decide⟩ (by decide) (by decide) }
    let a : Multivector := { terms := [⟨2, [⟨1, []⟩]⟩, ⟨4, [⟨2, [⟨0, 1⟩]⟩]⟩] }
    let b : Multivector := { terms := [⟨0, [⟨-3, [⟨1, -1⟩]⟩]⟩, ⟨8, [⟨1, []⟩]⟩] }
    let c : Multivector := { terms := [⟨12, [⟨-2, []⟩, ⟨1, [⟨2, 3⟩]⟩]⟩, ⟨13, [⟨5, [⟨0, 1⟩]⟩]⟩] }
    (a.Integral A.dim ∧ b.Integral A.dim ∧ c.Integral A.dim) ∧
      ∃ d, (do A.contract (← A.wedge a b) c) = .ok d ∧
        (do A.contract a (← A.contract b c)) = .ok d := by
  intro A a b c
  have first : a.Integral A.dim := by decide +kernel
  have second : b.Integral A.dim := by decide +kernel
  have third : c.Integral A.dim := by decide +kernel
  exact ⟨⟨first, second, third⟩, contract_wedge A first second third⟩

end Algebra

namespace BladeProduct

variable {m : Metric} {e f : Nat}

/-- The structure coefficients of a vector are split between the contraction and the exterior product. -/
theorem coefficient_vector (s : Signature) (single : Blade.grade e = 1) (f : Nat) :
    geometric.coefficient s e f = contract.coefficient s e f + exterior.coefficient s e f := by
  -- A vector is within a blade or apart from it, and only one of the products keeps it then.
  have nonzero : e ≠ 0 := fun zero => by simp [Blade.grade_eq_zero.mpr zero] at single
  rcases Blade.within_or_apart single f with within | apart
  · -- A vector that the blade holds is contracted with it.
    have kept : contract.keeps e f = true := by simpa [keeps] using within
    have dropped : ¬exterior.keeps e f = true := by simpa [keeps, within] using nonzero
    rw [coefficient_of_keeps kept, coefficient_of_not_keeps dropped, add_zero]
  · -- A vector that it lacks is joined to it.
    have kept : exterior.keeps e f = true := by simpa [keeps] using apart
    have dropped : ¬contract.keeps e f = true := by simpa [keeps, apart] using nonzero.symm
    rw [coefficient_of_keeps kept, coefficient_of_not_keeps dropped, zero_add]

/-- A vector of the pair that meets a blade holding it over the other basis has a structure coefficient
with it. -/
theorem coefficient_of_image (single : Blade.grade e = 1) (touching : m.touches e = true)
    (within : e &&& f = e) {p q : Nat} (left : m.imageFactor e p ≠ 0) (right : m.imageFactor f q ≠ 0)
    (nonzero : geometric.coefficient m.signature p q ≠ 0) :
    geometric.coefficient m.signature e f ≠ 0 := by
  cases m with
  | diagonal s => simp [Metric.touches, Metric.isDiagonal] at touching
  | paired s two_le =>
    -- This metric has a single basis, where every blade is its only image.
    rw [Metric.image_eq rfl left, Metric.image_eq rfl right] at nonzero
    exact nonzero
  | null s negative positive =>
    -- Either vector of a null pair stands for one that squares to one or to minus one.
    obtain ⟨low, high⟩ := Metric.squares_null negative positive
    obtain ⟨i, held, inside, square⟩ : ∃ i, e.testBit i = true ∧ i < s.n ∧
        Metric.squares s i ≠ 0 := by
      have pair := Metric.pair_eq (m := .null s negative positive) rfl
      rcases (Metric.touches_iff rfl).mp touching with held | held
      · exact ⟨_, held, by change _ < Metric.n (.null s negative positive); omega, by rw [low]; decide⟩
      · exact ⟨_, held, by change _ < Metric.n (.null s negative positive); omega, by rw [high]; decide⟩
    have shared := (Blade.and_eq_left_iff e f).mp within i held
    rw [Blade.eq_vector single held, coefficient, if_pos (by rfl)]
    refine mul_ne_zero (Blade.paritySign_ne_zero _) ?_
    rwa [show (Metric.null s negative positive).signature = s from rfl,
      Blade.sharedSquares_vector _ inside, if_pos shared]

/-- A vector that meets a blade meets it in the contraction or in the exterior product. -/
theorem Meets.contract_or_exterior (single : Blade.grade e = 1)
    (meet : BladeProduct.geometric.Meets m e f) :
    BladeProduct.contract.Meets m e f ∨ BladeProduct.exterior.Meets m e f := by
  rcases Blade.within_or_apart single f with within | apart
  · have kept : BladeProduct.contract.keeps e f = true := by simpa [keeps] using within
    left
    rw [Meets, show BladeProduct.geometric.usesMetric = true from rfl] at meet
    rw [Meets, show BladeProduct.contract.usesMetric = true from rfl]
    split at meet <;> rename_i framed
    · -- Images that meet in the geometric product need not be kept by the contraction, but the blades
      -- themselves are.
      obtain ⟨p, q, left, right, nonzero⟩ := meet
      have touching : m.touches e = true := by simp_all
      rw [if_pos framed]
      refine ⟨e, f, m.imageFactor_self_ne_zero e, m.imageFactor_self_ne_zero f, ?_⟩
      rw [coefficient_of_keeps kept]
      exact coefficient_of_image single touching within left right nonzero
    · rwa [if_neg framed, coefficient_of_keeps kept]
  · right
    rw [Meets, if_neg (by simp [usesMetric]), coefficient, if_pos (by simpa [keeps] using apart),
      Blade.twist, Blade.sharedSquares_disjoint _ _ apart, mul_one]
    exact Blade.paritySign_ne_zero _

end BladeProduct

namespace Reading

variable {M : Type} [AddCommGroup M] [Module Rat M] (r : Reading M)

/-- The geometric product of values by vectors is the sum of their contraction and exterior product. -/
theorem clifford_vector (m : Metric) (x y : Nat →₀ M) :
    r.clifford .geometric m (gradeValue 1 x) y =
      r.clifford .contract m (gradeValue 1 x) y + r.clifford .exterior m (gradeValue 1 x) y := by
  have twisted (x y : Nat →₀ M) :
      r.twisted (BladeProduct.geometric.coefficient m.signature) (gradeValue 1 x) y =
        r.twisted (BladeProduct.contract.coefficient m.signature) (gradeValue 1 x) y +
          r.twisted (BladeProduct.exterior.coefficient m.signature) (gradeValue 1 x) y := by
    -- All products are linear in both factors.
    induction x using Finsupp.induction_linear with
    | zero => simp
    | add x x' left right =>
      simp only [map_add, LinearMap.add_apply, left, right]
      abel
    | single e u =>
      induction y using Finsupp.induction_linear with
      | zero => simp
      | add y y' left right =>
        simp only [map_add, left, right]
        abel
      | single f v =>
        by_cases vector : Blade.grade e = 1
        · simp only [gradeValue, bladewise_single, if_pos vector, one_smul, twisted_single,
            BladeProduct.coefficient_vector m.signature vector, Int.cast_add, add_smul]
        · simp [gradeValue, vector]
  -- The change of basis takes vectors to vectors.
  have commutes : m.framed (gradeValue 1 x) = gradeValue 1 (m.framed x) :=
    Metric.frame_bladewise (gradewise_gradeValue 1) x
  rw [clifford_apply, clifford_apply, clifford_apply, commutes, twisted, map_add]

end Reading

namespace Multivector

variable {dim : Nat} {a : Multivector}

/-- Whole multivectors correspond to themselves. -/
theorem Whole.renamed (whole : a.Whole dim) : a.Renamed dim Eq a :=
  renamed_self (fun e inside => by
    obtain ⟨t, member, rfl⟩ := List.mem_map.mp inside
    exact whole.bounded t member) whole.canonical.ordered (by simp [isPlain, whole.plain.1])
    fun _ _ _ _ => rfl

end Multivector

namespace Algebra

variable {A : Algebra} {v b : Multivector}

/-- The geometric product of a vector and a multivector returns if both its contraction and its exterior
product do. -/
theorem geometric_returns (left : v.Whole A.dim) (vector : v.OfGrade 1) (right : b.Whole A.dim)
    (contraction : ∃ c, A.contract v b = .ok c) (exterior : ∃ c, A.wedge v b = .ok c) :
    ∃ c, A.geometric v b = .ok c := by
  have small := A.metric.slack_exact
  -- Terms that meet have already been multiplied in one of the two parts.
  refine BladeProduct.exists_product_of_meets .geometric left.over right.over left.plain.1
    right.plain.1 small fun s first t second meet => ?_
  rcases meet.contract_or_exterior (vector _ (List.mem_map_of_mem first)) with meet | meet
  · exact (BladeProduct.product_returns_iff left.over right.over left.plain.1 right.plain.1 small).mp
      contraction s first t second meet
  · exact (BladeProduct.product_returns_iff left.over right.over left.plain.1 right.plain.1 small).mp
      exterior s first t second meet

/-- Where the geometric product returns, so does every other product. -/
theorem product_returns (kind : BladeProduct) (left : v.Whole A.dim) (right : b.Whole A.dim)
    (returns : ∃ c, A.geometric v b = .ok c) : ∃ c, kind.product A.metric v b = .ok c := by
  have small := A.metric.slack_exact
  refine BladeProduct.exists_product_of_meets kind left.over right.over left.plain.1
    right.plain.1 small fun s first t second meet => ?_
  exact (BladeProduct.product_returns_iff left.over right.over left.plain.1 right.plain.1 small).mp
    returns s first t second meet.geometric

/-- The geometric product of a vector and a multivector, where it returns, is the sum of their
contraction and their exterior product. -/
theorem geometric_eq_add (left : v.Whole A.dim) (vector : v.OfGrade 1) (right : b.Whole A.dim)
    {c : Multivector} (returned : A.geometric v b = .ok c) :
    (do (← A.contract v b).add (← A.wedge v b)) = .ok c := by
  have small := A.metric.slack_exact
  have read {kind : BladeProduct} {d : Multivector} (product : kind.product A.metric v b = .ok d) :=
    BladeProduct.product_product (r := Reading.free) left.over right.over small
      (fun _ _ _ _ => Reading.multiplies_free _ _) product
  -- Both parts return, and so does their sum.
  obtain ⟨inner, contraction⟩ := product_returns .contract left right ⟨c, returned⟩
  obtain ⟨outer, exterior⟩ := product_returns .exterior left right ⟨c, returned⟩
  obtain ⟨inSpace, plain, represents⟩ := read returned
  obtain ⟨overInner, plainInner, valueInner⟩ := read contraction
  obtain ⟨overOuter, plainOuter, valueOuter⟩ := read exterior
  obtain ⟨sum, added, overSum, plainSum, -, valueSum⟩ :=
    Multivector.exists_add small overInner overOuter plainInner.1 plainOuter.1
  have same : Reading.free.read sum = Reading.free.read c := by
    have split := Reading.free.clifford_vector A.metric (Reading.free.read v) (Reading.free.read b)
    rw [vector.read_eq] at split
    calc Reading.free.read sum
        = Reading.free.read inner + Reading.free.read outer := valueSum Reading.free
      _ = Reading.free.clifford .contract A.metric (Reading.free.read v) (Reading.free.read b) +
            Reading.free.clifford .exterior A.metric (Reading.free.read v) (Reading.free.read b) :=
          congrArg₂ (· + ·) valueInner.value valueOuter.value
      _ = Reading.free.clifford .geometric A.metric (Reading.free.read v) (Reading.free.read b) :=
          split.symm
      _ = Reading.free.read c := represents.value.symm
  -- Both are canonical, so that equal values leave nothing to choose.
  have terms := Reading.freeProbe.terms_eq overSum.canonical inSpace.canonical
    (fun _ _ => trivial) (fun _ _ => trivial) same
  rw [contract, contraction, Result.ok_bind, wedge, exterior, Result.ok_bind, added,
    plainSum.eq_of_terms plain terms]

/-- The geometric product of a vector and a multivector is the sum of their contraction and their
exterior product: both are the same multivector, or both overflow, which they do not where all monomials
can be multiplied. -/
theorem geometric_vector (A : Algebra) {v b : Multivector} (left : v.Whole A.dim)
    (vector : v.OfGrade 1) (right : b.Whole A.dim) :
    A.geometric v b = (do (← A.contract v b).add (← A.wedge v b)) ∧
      ((∀ x ∈ v.entries, ∀ y ∈ b.entries, Multipliable x.monomial.powers y.monomial.powers) →
        ∃ c, A.geometric v b = .ok c) := by
  have outcome (kind : BladeProduct) : kind.product A.metric v b = .error .quotientOverflow ∨
      ∃ c, kind.product A.metric v b = .ok c ∧ c.Renamed A.metric.dim Eq c :=
    (BladeProduct.product_concur keepsOrder_eq left.renamed right.renamed).of_self
  refine ⟨?_, fun multipliable => BladeProduct.exists_product .geometric left.over right.over
    left.plain.1 right.plain.1 A.metric.slack_exact multipliable⟩
  rcases outcome .geometric with overflow | ⟨c, returned, -⟩
  · -- Then one of the parts overflows as well.
    rw [geometric, overflow, contract, wedge]
    rcases outcome .contract with overflowInner | ⟨inner, contraction, -⟩
    · rw [overflowInner, Result.error_bind]
    · rcases outcome .exterior with overflowOuter | ⟨outer, exterior, -⟩
      · rw [contraction, Result.ok_bind, overflowOuter, Result.error_bind]
      · obtain ⟨c, returned⟩ := geometric_returns left vector right ⟨inner, contraction⟩
          ⟨outer, exterior⟩
        rw [geometric, overflow] at returned
        cases returned
  · exact Eq.trans returned (geometric_eq_add left vector right returned).symm

/-- The product of `2 * x * e_o + 3 * y² * e₁` and `x⁻¹ * e_inf - e_o ∧ e_inf + 5` in a conformal
algebra. -/
theorem geometric_vector_conformal :
    let A : Algebra := { metric := .null ⟨2, 1, 0, by decide⟩ (by decide) (by decide) }
    let v : Multivector := { terms := [⟨1, [⟨3, [⟨1, 2⟩]⟩]⟩, ⟨2, [⟨2, [⟨0, 1⟩]⟩]⟩] }
    let b : Multivector :=
      { terms := [⟨0, [⟨5, []⟩]⟩, ⟨4, [⟨1, [⟨0, -1⟩]⟩]⟩, ⟨6, [⟨-1, []⟩]⟩] }
    (v.Whole A.dim ∧ v.OfGrade 1 ∧ b.Whole A.dim) ∧
      A.geometric v b = (do (← A.contract v b).add (← A.wedge v b)) ∧
      ∃ c, A.geometric v b = .ok c := by
  intro A v b
  have left : v.Whole A.dim := by decide +kernel
  have right : b.Whole A.dim := by decide +kernel
  have vector : v.OfGrade 1 := by decide +kernel
  have integers : ∀ e ∈ v.entries ++ b.entries, ∀ p ∈ e.monomial.powers, p.degree.den = 1 := by
    decide
  obtain ⟨same, returns⟩ := geometric_vector A left vector right
  exact ⟨⟨left, vector, right⟩, same, returns fun x first y second => multipliable_of_whole
    (fun p inside => Dyadic.zero_iff.mpr (integers x (List.mem_append_left _ first) p inside))
    fun q inside => Dyadic.zero_iff.mpr (integers y (List.mem_append_right _ second) q inside)⟩

end Algebra

end Clifford
