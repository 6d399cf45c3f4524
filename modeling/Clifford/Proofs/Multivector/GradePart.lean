import Clifford.Proofs.Blade.Complement
import Clifford.Proofs.Multivector.Bilinear
import Clifford.Proofs.Multivector.Operators

/-! Parts of one grade: every product of values is the sum of parts of geometric products of parts,
where two blades contribute exactly if the grade of their product is the one that is taken. -/

namespace Clifford

open Finsupp

namespace BladeProduct

/-- A product keeps the blades whose grade is a function of the grades of both factors. -/
def KeepsGrade (kind : BladeProduct) (n : Nat) (grade : Nat → Nat → Option Nat) : Prop :=
  ∀ a < 2 ^ n, ∀ b < 2 ^ n, kind.keeps a b = true ↔
    grade (Blade.grade a) (Blade.grade b) = some (Blade.grade (a ^^^ b))

/-- The exterior product keeps the sum of the grades. -/
theorem keepsGrade_exterior (n : Nat) : exterior.KeepsGrade n fun r s => some (r + s) := by
  intro a _ b _
  -- The grade of a product is the sum of both grades but for twice what the blades share.
  have total := Blade.grade_xor_add a b
  have none := Blade.grade_eq_zero (a := a &&& b)
  simp only [keeps, decide_eq_true_eq, Option.some.injEq]
  omega

/-- The contraction keeps the difference of the grades. -/
theorem keepsGrade_contract (n : Nat) :
    contract.KeepsGrade n fun r s => if r ≤ s then some (s - r) else none := by
  intro a left b right
  -- The left blade is within the right one exactly if the product loses all of it.
  have within := Blade.missing_eq_zero left b
  have whole := Blade.grade_xor left right
  have first := Blade.grade_eq_add left b
  have second := Blade.grade_eq_add right a
  rw [Nat.and_comm] at second
  simp only [keeps, decide_eq_true_eq]
  split
  · rw [Option.some.injEq]
    omega
  · simp only [reduceCtorEq, iff_false]
    omega

/-- The symmetric inner product keeps the gap between the grades of blades that are not scalar. -/
theorem keepsGrade_symmetricInner (n : Nat) : symmetricInner.KeepsGrade n fun r s =>
    if 1 ≤ r ∧ 1 ≤ s then some ((r - s) + (s - r)) else none := by
  intro a left b right
  -- The product has the gap between the grades if one of the blades is within the other.
  have gap := grade_xor_eq_gap left right
  have scalarLeft := Blade.grade_eq_zero (a := a)
  have scalarRight := Blade.grade_eq_zero (a := b)
  simp only [keeps, decide_eq_true_eq]
  split
  · rw [Option.some.injEq, eq_comm (b := Blade.grade (a ^^^ b)), gap]
    omega
  · simp only [reduceCtorEq, iff_false]
    omega

end BladeProduct

/-- The grades of two factors in a space with the grade of their product that is taken. -/
def gradeTriples (grade : Nat → Nat → Option Nat) (n : Nat) : List (Nat × Nat × Nat) :=
  ((List.range (n + 1)).product (List.range (n + 1))).filterMap fun p =>
    (grade p.1 p.2).map fun k => (p.1, p.2, k)

/-- The grades of two factors and of their product are in the list if it is the one that is taken. -/
theorem mem_gradeTriples {grade : Nat → Nat → Option Nat} {n r s k : Nat} :
    (r, s, k) ∈ gradeTriples grade n ↔ r ≤ n ∧ s ≤ n ∧ grade r s = some k := by
  simp [gradeTriples, and_assoc]

/-- Every combination of grades is in the list once. -/
theorem nodup_gradeTriples (grade : Nat → Nat → Option Nat) (n : Nat) :
    (gradeTriples grade n).Nodup := by
  -- A combination is determined by the grades of its factors.
  refine (List.nodup_range.product List.nodup_range).filterMap ?_
  rintro ⟨r, s⟩ ⟨r', s'⟩ p left right
  simp only [Option.mem_def, Option.map_eq_some_iff] at left right
  obtain ⟨k, -, rfl⟩ := left
  obtain ⟨k', -, same⟩ := right
  simp_all

section Values

variable {M : Type} [AddCommGroup M] [Module Rat M] {dim : Nat}

/-- The part of one grade of a value. -/
noncomputable def gradeValue (k : Nat) : (Nat →₀ M) →ₗ[Rat] (Nat →₀ M) :=
  bladewise fun e => if Blade.grade e = k then 1 else 0

/-- Whether a blade is in a part depends on its grade alone. -/
theorem gradewise_gradeValue (k : Nat) :
    Gradewise fun e => if Blade.grade e = k then (1 : Rat) else 0 := by
  intro a b same
  simp only [same]

/-- A value that is its part of one grade lies on blades of that grade. -/
theorem grade_of_gradeValue {k blade : Nat} {x : Nat →₀ M} (single : gradeValue k x = x)
    (nonzero : x blade ≠ 0) : Blade.grade blade = k := by
  -- The part of one grade vanishes on all other blades.
  by_contra other
  rw [← single, gradeValue, bladewise_apply, if_neg other, zero_smul] at nonzero
  exact nonzero rfl

/-- The sum of parts of products of parts, for some grades of both factors and of their product. -/
noncomputable def partSum (mul : (Nat →₀ M) →ₗ[Rat] (Nat →₀ M) →ₗ[Rat] (Nat →₀ M))
    (triples : List (Nat × Nat × Nat)) : (Nat →₀ M) →ₗ[Rat] (Nat →₀ M) →ₗ[Rat] (Nat →₀ M) :=
  (triples.map fun p =>
    (mul.compl₁₂ (gradeValue p.1) (gradeValue p.2.1)).compr₂ (gradeValue p.2.2)).sum

/-- The sum of parts of the products of two values. -/
theorem partSum_apply (mul : (Nat →₀ M) →ₗ[Rat] (Nat →₀ M) →ₗ[Rat] (Nat →₀ M))
    (triples : List (Nat × Nat × Nat)) (x y : Nat →₀ M) :
    partSum mul triples x y = (triples.map fun p =>
      gradeValue p.2.2 (mul (gradeValue p.1 x) (gradeValue p.2.1 y))).sum := by
  -- A sum of maps is applied summand by summand.
  rw [partSum]
  induction triples with
  | nil => simp
  | cons p rest ih => simp [ih]

namespace Reading

variable (r : Reading M) {m : Metric}

/-- On single blades only their own grades contribute to a sum of parts of twisted products. -/
theorem partSum_single (factor : Nat → Nat → Int) {triples : List (Nat × Nat × Nat)}
    (nodup : triples.Nodup) (a b : Nat) (u v : M) :
    partSum (r.twisted factor) triples (single a u) (single b v) =
      if (Blade.grade a, Blade.grade b, Blade.grade (a ^^^ b)) ∈ triples then
        r.twisted factor (single a u) (single b v)
      else 0 := by
  -- A part of the product is the whole product or nothing.
  have summand (p : Nat × Nat × Nat) : gradeValue p.2.2
      (r.twisted factor (gradeValue p.1 (single a u)) (gradeValue p.2.1 (single b v))) =
      if p = (Blade.grade a, Blade.grade b, Blade.grade (a ^^^ b)) then
        r.twisted factor (single a u) (single b v)
      else 0 := by
    obtain ⟨g, h, k⟩ := p
    simp only [gradeValue, bladewise_single, map_smul, LinearMap.smul_apply, r.twisted_single,
      Prod.mk.injEq]
    by_cases first : g = Blade.grade a
    · by_cases second : h = Blade.grade b
      · by_cases third : k = Blade.grade (a ^^^ b)
        · simp [first, second, third]
        · simp [third, Ne.symm third]
      · simp [second, Ne.symm second]
    · simp [first, Ne.symm first]
  -- At most one combination of grades is the one of the two blades.
  simp only [partSum_apply, summand]
  rw [← List.sum_toFinset _ nodup, Finset.sum_ite_eq']
  simp only [List.mem_toFinset]

/-- A twisted product is the sum of the parts that it keeps of the geometric one. -/
theorem twisted_eq_partSum {kind : BladeProduct} {grade : Nat → Nat → Option Nat}
    (law : kind.KeepsGrade m.n grade) {x y : Nat →₀ M} (left : x ∈ spaceValues M m.dim)
    (right : y ∈ spaceValues M m.dim) :
    r.twisted (kind.coefficient m.signature) x y =
      partSum (r.twisted (BladeProduct.geometric.coefficient m.signature))
        (gradeTriples grade m.n) x y := by
  -- Both sides are linear in either factor, and two single blades have one part if it is kept.
  refine map₂_eq_of_single (fun a insideA u b insideB v => ?_) left right
  rw [m.dim_eq_two_pow] at insideA insideB
  -- The grades of two blades are in the list exactly if the product keeps them.
  have present : (Blade.grade a, Blade.grade b, Blade.grade (a ^^^ b)) ∈ gradeTriples grade m.n ↔
      kind.keeps a b = true := by
    have first := Blade.grade_add_lacking insideA
    have second := Blade.grade_add_lacking insideB
    rw [mem_gradeTriples, law a insideA b insideB]
    exact ⟨fun all => all.2.2, fun kept => ⟨by omega, by omega, kept⟩⟩
  rw [r.partSum_single _ (nodup_gradeTriples grade m.n), r.twisted_single]
  by_cases kept : kind.keeps a b = true
  · rw [if_pos (present.mpr kept), r.twisted_single, BladeProduct.coefficient_of_keeps kept]
  · rw [if_neg (mt present.mp kept), BladeProduct.coefficient_of_not_keeps kept, Int.cast_zero,
      zero_smul]

/-- A product of values is the sum of the parts that it keeps of the geometric product. -/
theorem clifford_eq_partSum {kind : BladeProduct} {grade : Nat → Nat → Option Nat}
    (law : kind.KeepsGrade m.n grade) {x y : Nat →₀ M} (left : x ∈ spaceValues M m.dim)
    (right : y ∈ spaceValues M m.dim) :
    r.clifford kind m x y = partSum (r.clifford .geometric m) (gradeTriples grade m.n) x y := by
  -- Parts of one grade commute with the change of basis.
  have commutes (matrix : PairMatrix) (k : Nat) (v : Nat →₀ M) :
      m.frame matrix (gradeValue k v) = gradeValue k (m.frame matrix v) :=
    Metric.frame_bladewise (gradewise_gradeValue k) v
  rw [r.clifford_apply, r.twisted_eq_partSum law (Metric.framed_mem left) (Metric.framed_mem right),
    partSum_apply, partSum_apply, map_list_sum, List.map_map]
  congr 1
  refine List.map_congr_left fun p _ => ?_
  rw [Function.comp_apply, r.clifford_apply, Metric.unframed, Metric.framed, commutes, commutes,
    commutes]

end Reading

end Values

end Clifford
