import Clifford.Proofs.Multivector.GradePart
import Clifford.Proofs.Multivector.Meeting
import Clifford.Proofs.Multivector.NullBasis

/-! Every product is a sum of grade parts of geometric products of grade parts, wherever these return. -/

namespace Clifford

open Finsupp

namespace Multivector

/-- The terms of one grade. -/
def part (a : Multivector) (grade : Nat) : Multivector :=
  { a with terms := a.terms.filter fun t => Blade.grade t.element = grade }

variable {dim k : Nat} {a : Multivector}

/-- The part of one grade is selected exactly. -/
theorem selectGrade_eq (inSpace : a.Over dim k) (small : k ≤ exactBits) (grade : Nat) :
    a.selectGrade grade = .ok (a.part grade) := by
  -- The copy of a term multiplies its coefficients by one.
  have copied : ∀ t ∈ a.terms, copyTerm t 1 t.element = .ok [t] := fun t member => by
    rw [copyTerm, if_neg one_ne_zero, scaleMonomials_eq_ok small (Dyadic.one 0) fun m inside =>
      inSpace.dyadic_term member ⟨t.element, m⟩ (List.mem_map_of_mem inside)]
    simp
  have chosen : (a.terms.filter fun t => (Blade.grade t.element : Int) = grade) =
      (a.part grade).terms := List.filter_congr fun t _ => by simp
  have copies : (a.part grade).terms.mapM (fun t => copyTerm t 1 t.element) =
      .ok ((a.part grade).terms.map fun t => [t]) :=
    Result.mapM_ok fun t member => copied t (List.mem_filter.mp member).1
  rw [selectGrade, chosen, copies, Result.ok_bind, ← List.flatMap_def, List.flatMap_singleton']
  rfl

/-- The entries of a part are entries of the multivector. -/
theorem entries_part {grade : Nat} {e : Entry} (inside : e ∈ (a.part grade).entries) :
    e ∈ a.entries := by
  obtain ⟨t, member, entry⟩ := List.mem_flatMap.mp inside
  exact mem_entries (List.mem_filter.mp member).1 entry

/-- The part of one grade lies in the space. -/
theorem Over.part (inSpace : a.Over dim k) (grade : Nat) : (a.part grade).Over dim k where
  canonical := ⟨fun t member => inSpace.canonical.terms t (List.mem_filter.mp member).1,
    inSpace.canonical.ordered.sublist (List.filter_sublist.map _)⟩
  bounded t member := inSpace.bounded t (List.mem_filter.mp member).1
  dyadic e inside := inSpace.dyadic e (entries_part inside)

/-- The value of a part of one grade is the part of the value. -/
theorem read_part {M : Type} [AddCommGroup M] [Module Rat M] (r : Reading M) (a : Multivector)
    (grade : Nat) : r.read (a.part grade) = gradeValue grade (r.read a) := by
  -- Terms of another grade contribute nothing to either side.
  rw [r.read_eq_sum, r.read_eq_sum, part]
  dsimp only
  induction a.terms with
  | nil => simp
  | cons t rest ih =>
    rw [List.map_cons, List.sum_cons, map_add, ← ih, gradeValue, bladewise_single, List.filter_cons]
    by_cases same : Blade.grade t.element = grade <;> simp [same]

/-- All blades of a multivector have the same grade. -/
def OfGrade (grade : Nat) (a : Multivector) : Prop := ∀ e ∈ a.elements, Blade.grade e = grade

instance {grade : Nat} {a : Multivector} : Decidable (a.OfGrade grade) :=
  inferInstanceAs (Decidable (∀ e ∈ a.elements, Blade.grade e = grade))

/-- A multivector of one grade is its part of that grade. -/
theorem OfGrade.part_eq (single : a.OfGrade k) : a.part k = a := by
  -- No term is left out.
  have every : a.terms.filter (fun t => Blade.grade t.element = k) = a.terms :=
    List.filter_eq_self.mpr fun t member => by simpa using single _ (List.mem_map_of_mem member)
  rw [part, every]

/-- The value of a multivector of one grade is its part of that grade. -/
theorem OfGrade.read_eq {M : Type} [AddCommGroup M] [Module Rat M] (r : Reading M)
    (single : a.OfGrade k) : gradeValue k (r.read a) = r.read a := by
  rw [← read_part, single.part_eq]

end Multivector

/-- Geometric products of multivectors with whole coefficients are exact. -/
theorem Metric.slack_exact (m : Metric) : 0 + 0 + m.slack ≤ exactBits := by
  have := m.slack_small
  omega

namespace Algebra

variable (A : Algebra)

/-- The part of the grade `p.2.2` of the geometric product of parts of the grades `p.1` and `p.2.1`. -/
def partProduct (a b : Multivector) (p : Nat × Nat × Nat) : Result Multivector := do
  (← A.geometric (← a.selectGrade p.1) (← b.selectGrade p.2.1)).selectGrade p.2.2

/-- The sum over all grades `r` and `s` of the parts of grade `grade r s`, if there is one to take, of
the geometric products of the parts of grades `r` and `s`. -/
def sumOfParts (grade : Nat → Nat → Option Nat) (a b : Multivector) : Result Multivector :=
  (gradeTriples grade A.n).foldlM (fun sum p => do sum.add (← A.partProduct a b p)) .zero

variable {A} {a b c : Multivector}

/-- A part of a product of parts represents the part of the product of parts of the values. -/
theorem partProduct_spec (left : a.Whole A.dim) (right : b.Whole A.dim) (p : Nat × Nat × Nat)
    (returned : A.partProduct a b p = .ok c) :
    (∃ d, A.geometric (a.part p.1) (b.part p.2.1) = .ok d) ∧
      c.Over A.dim A.metric.slack ∧ c.Plain ∧
      Reading.free.read c = gradeValue p.2.2 (Reading.free.clifford .geometric A.metric
        (gradeValue p.1 (Reading.free.read a)) (gradeValue p.2.1 (Reading.free.read b))) := by
  have small := A.metric.slack_exact
  -- Parts of the factors and of the product are taken exactly.
  rw [partProduct, Multivector.selectGrade_eq left.over (by decide), Result.ok_bind,
    Multivector.selectGrade_eq right.over (by decide), Result.ok_bind] at returned
  obtain ⟨d, product, selected⟩ := Result.bind_eq_ok.mp returned
  obtain ⟨inSpace, plain, represents⟩ := BladeProduct.product_product (r := Reading.free)
    (left.over.part p.1) (right.over.part p.2.1) small
    (fun _ _ _ _ => Reading.multiplies_free _ _) product
  rw [Multivector.selectGrade_eq inSpace small] at selected
  cases selected
  refine ⟨⟨d, product⟩, (inSpace.part p.2.2).mono (by omega), plain, ?_⟩
  rw [Multivector.read_part, Reading.read, represents.value, ← Multivector.read_part,
    ← Multivector.read_part]
  rfl

/-- A part of a product of parts returns if the product of the parts does. -/
theorem exists_partProduct (left : a.Whole A.dim) (right : b.Whole A.dim) {p : Nat × Nat × Nat}
    (returns : ∃ d, A.geometric (a.part p.1) (b.part p.2.1) = .ok d) :
    ∃ c, A.partProduct a b p = .ok c := by
  have small := A.metric.slack_exact
  obtain ⟨d, product⟩ := returns
  obtain ⟨inSpace, -⟩ := BladeProduct.product_product (r := Reading.trivial)
    (left.over.part p.1) (right.over.part p.2.1) small
    (fun _ _ _ _ => Reading.multiplies_trivial _ _) product
  -- The part of the product is selected exactly.
  refine ⟨d.part p.2.2, ?_⟩
  rw [partProduct, Multivector.selectGrade_eq left.over (by decide), Result.ok_bind,
    Multivector.selectGrade_eq right.over (by decide), Result.ok_bind, product, Result.ok_bind,
    Multivector.selectGrade_eq inSpace small]

section Sum

variable {dim k : Nat} {α : Type} {part : α → Result Multivector} {parts : List α}
  {init sum : Multivector} {value : α → Nat →₀ (List Power →₀ Rat)}

/-- Every part of a sum that returns does so. -/
theorem parts_of_sum (returned : parts.foldlM (fun sum p => do sum.add (← part p)) init = .ok sum) :
    ∀ p ∈ parts, ∃ c, part p = .ok c := by
  -- Every step of the sum asks for its part.
  induction parts generalizing init with
  | nil => simp
  | cons p rest ih =>
    rw [List.foldlM_cons] at returned
    obtain ⟨next, step, later⟩ := Result.bind_eq_ok.mp returned
    obtain ⟨c, first, -⟩ := Result.bind_eq_ok.mp step
    exact List.forall_mem_cons.mpr ⟨⟨c, first⟩, ih later⟩

/-- Parts of a space have a sum there, whose value is the sum of their values. -/
theorem exists_sum (small : k ≤ exactBits)
    (each : ∀ p ∈ parts, ∃ c, part p = .ok c ∧ c.Over dim k ∧ c.Plain ∧
      Reading.free.read c = value p)
    (inSpace : init.Over dim k) (plain : init.Plain) :
    ∃ sum, parts.foldlM (fun sum p => do sum.add (← part p)) init = .ok sum ∧ sum.Over dim k ∧
      sum.Plain ∧ Reading.free.read sum = Reading.free.read init + (parts.map value).sum := by
  -- One part after the other is added, and with it its value.
  induction parts generalizing init with
  | nil => exact ⟨init, rfl, inSpace, plain, by simp⟩
  | cons p rest ih =>
    obtain ⟨⟨c, first, overC, plainC, valueC⟩, others⟩ := List.forall_mem_cons.mp each
    obtain ⟨next, added, overNext, plainNext, -, valueNext⟩ :=
      Multivector.exists_add small inSpace overC plain.1 plainC.1
    obtain ⟨sum, run, overSum, plainSum, valueSum⟩ := ih others overNext plainNext
    refine ⟨sum, ?_, overSum, plainSum, ?_⟩
    · rw [List.foldlM_cons, first, Result.ok_bind, added, Result.ok_bind, run]
    · rw [valueSum, valueNext Reading.free, valueC, List.map_cons, List.sum_cons, add_assoc]

end Sum

/-- Where all parts return, their sum represents the sum of the parts of the products of the values. -/
theorem exists_sumOfParts {grade : Nat → Nat → Option Nat} (left : a.Whole A.dim)
    (right : b.Whole A.dim)
    (parts : ∀ p ∈ gradeTriples grade A.n, ∃ c, A.partProduct a b p = .ok c) :
    ∃ sum, A.sumOfParts grade a b = .ok sum ∧ sum.Over A.dim A.metric.slack ∧ sum.Plain ∧
      Reading.free.read sum = partSum (Reading.free.clifford .geometric A.metric)
        (gradeTriples grade A.n) (Reading.free.read a) (Reading.free.read b) := by
  have small := A.metric.slack_exact
  have zero : Multivector.zero.Over A.dim A.metric.slack :=
    ⟨⟨by simp [Multivector.zero], List.Pairwise.nil⟩, by simp [Multivector.zero],
      by simp [Multivector.zero, Multivector.entries, DyadicEntries]⟩
  -- The sum starts from nothing.
  obtain ⟨sum, run, inSpace, plain, value⟩ := exists_sum (small.trans' (by omega))
    (fun p member => (parts p member).imp fun c returned =>
      ⟨returned, (partProduct_spec left right p returned).2⟩) zero ⟨rfl, rfl⟩
  refine ⟨sum, run, inSpace, plain, ?_⟩
  rw [value, partSum_apply, show Reading.free.read Multivector.zero = 0 from rfl, zero_add]

/-- A product of two multivectors is a sum of grade parts of geometric products of grade parts: where
the sum returns, the product does and is equal, and both return when all monomials can be multiplied. -/
structure IsSumOfParts (A : Algebra) (grade : Nat → Nat → Option Nat)
    (mul : Multivector → Multivector → Result Multivector) (a b : Multivector) : Prop where
  of_sum : ∀ c, A.sumOfParts grade a b = .ok c → mul a b = .ok c
  returns : (∀ x ∈ a.entries, ∀ y ∈ b.entries, Multipliable x.monomial.powers y.monomial.powers) →
    ∃ c, A.sumOfParts grade a b = .ok c

/-- A product returns where all geometric products of the parts that it takes do. -/
theorem product_returns_of_parts {kind : BladeProduct} {grade : Nat → Nat → Option Nat}
    (law : kind.KeepsGrade A.n grade) (left : a.Whole A.dim) (right : b.Whole A.dim)
    (parts : ∀ p ∈ gradeTriples grade A.n,
      ∃ d, A.geometric (a.part p.1) (b.part p.2.1) = .ok d) :
    ∃ c, kind.product A.metric a b = .ok c := by
  have small := A.metric.slack_exact
  refine BladeProduct.exists_product_of_meets kind left.over right.over left.plain.1 right.plain.1
    small fun s first t second meet => ?_
  -- The grades of terms that meet are among those that the product takes.
  obtain ⟨p, q, insideP, insideQ, gradeP, gradeQ, kept⟩ :=
    meet.exists_keeps (left.bounded s first) (right.bounded t second)
  rw [A.metric.dim_eq_two_pow] at insideP insideQ
  have taken := (law p insideP q insideQ).mp kept
  have boundP := Blade.grade_add_lacking insideP
  have boundQ := Blade.grade_add_lacking insideQ
  have member : (Blade.grade s.element, Blade.grade t.element, Blade.grade (p ^^^ q)) ∈
      gradeTriples grade A.n :=
    mem_gradeTriples.mpr ⟨by rw [← gradeP, n]; omega, by rw [← gradeQ, n]; omega,
      by rwa [gradeP, gradeQ] at taken⟩
  -- Their parts have a geometric product, in which the terms meet as well.
  exact (BladeProduct.product_returns_iff (left.over.part _) (right.over.part _) left.plain.1
    right.plain.1 small).mp (parts _ member) s (List.mem_filter.mpr ⟨first, by simp⟩) t
      (List.mem_filter.mpr ⟨second, by simp⟩) meet.geometric

/-- Products that keep a grade that depends on the grades of both factors are sums of parts. -/
theorem isSumOfParts {kind : BladeProduct} {grade : Nat → Nat → Option Nat}
    (law : kind.KeepsGrade A.n grade) (left : a.Whole A.dim) (right : b.Whole A.dim) :
    A.IsSumOfParts grade (kind.product A.metric) a b := by
  have small := A.metric.slack_exact
  constructor
  · -- Where the sum returns, all parts do, and with them the product.
    intro c returned
    have parts := parts_of_sum returned
    obtain ⟨c', again, inSpace, plain, value⟩ := exists_sumOfParts left right parts
    obtain rfl := Except.ok.inj (returned.symm.trans again)
    obtain ⟨d, product⟩ := product_returns_of_parts law left right fun p member =>
      (parts p member).elim fun _ part => (partProduct_spec left right p part).1
    obtain ⟨inSpace', plain', represents⟩ := BladeProduct.product_product (r := Reading.free)
      left.over right.over small (fun _ _ _ _ => Reading.multiplies_free _ _) product
    have same : Reading.free.read d = Reading.free.read c :=
      calc Reading.free.read d
          = Reading.free.clifford kind A.metric (Reading.free.read a) (Reading.free.read b) :=
            represents.value
        _ = partSum (Reading.free.clifford .geometric A.metric) (gradeTriples grade A.n)
              (Reading.free.read a) (Reading.free.read b) :=
            Reading.free.clifford_eq_partSum law (Reading.free.read_mem_spaceValues left.over)
              (Reading.free.read_mem_spaceValues right.over)
        _ = Reading.free.read c := value.symm
    have terms := Reading.freeProbe.terms_eq inSpace'.canonical inSpace.canonical
      (fun _ _ => trivial) (fun _ _ => trivial) same
    exact plain'.eq_of_terms plain terms ▸ product
  · -- Monomials of the parts are monomials of the factors.
    intro multipliable
    have parts : ∀ p ∈ gradeTriples grade A.n, ∃ c, A.partProduct a b p = .ok c := fun p _ =>
      exists_partProduct left right <|
        BladeProduct.exists_product .geometric (left.over.part _) (right.over.part _) left.plain.1
          right.plain.1 small fun x first y second => multipliable x
            (Multivector.entries_part first) y (Multivector.entries_part second)
    exact (exists_sumOfParts left right parts).imp fun _ sum => sum.1

/-- The exterior product takes the parts of the sum of the grades, the contraction those of their
difference, and the symmetric inner product those of the gap between grades other than zero. -/
theorem products_sumOfParts (A : Algebra) {a b : Multivector} (left : a.Whole A.dim)
    (right : b.Whole A.dim) :
    A.IsSumOfParts (fun r s => some (r + s)) A.wedge a b ∧
      A.IsSumOfParts (fun r s => if r ≤ s then some (s - r) else none) A.contract a b ∧
      A.IsSumOfParts (fun r s => if 1 ≤ r ∧ 1 ≤ s then some ((r - s) + (s - r)) else none) A.inner
        a b :=
  ⟨isSumOfParts (BladeProduct.keepsGrade_exterior A.n) left right,
    isSumOfParts (BladeProduct.keepsGrade_contract A.n) left right,
    isSumOfParts (BladeProduct.keepsGrade_symmetricInner A.n) left right⟩

/-- The products of `1 + 2 * x * e_o + 3 * y² * e₁ ∧ e_inf` and `x⁻¹ * e_inf - e_o ∧ e_inf` in a
conformal algebra. -/
theorem products_sumOfParts_conformal :
    let A : Algebra := { metric := .null ⟨2, 1, 0, by decide⟩ (by decide) (by decide) }
    let a : Multivector :=
      { terms := [⟨0, [⟨1, []⟩]⟩, ⟨2, [⟨2, [⟨0, 1⟩]⟩]⟩, ⟨5, [⟨3, [⟨1, 2⟩]⟩]⟩] }
    let b : Multivector := { terms := [⟨4, [⟨1, [⟨0, -1⟩]⟩]⟩, ⟨6, [⟨-1, []⟩]⟩] }
    (a.Whole A.dim ∧ b.Whole A.dim) ∧
      A.IsSumOfParts (fun r s => some (r + s)) A.wedge a b ∧
      A.IsSumOfParts (fun r s => if r ≤ s then some (s - r) else none) A.contract a b ∧
      A.IsSumOfParts (fun r s => if 1 ≤ r ∧ 1 ≤ s then some ((r - s) + (s - r)) else none) A.inner
        a b ∧
      (∃ c, A.wedge a b = .ok c) ∧ (∃ c, A.contract a b = .ok c) ∧ ∃ c, A.inner a b = .ok c := by
  intro A a b
  have left : a.Whole A.dim := by decide +kernel
  have right : b.Whole A.dim := by decide +kernel
  have integers : ∀ e ∈ a.entries ++ b.entries, ∀ p ∈ e.monomial.powers, p.degree.den = 1 := by
    decide
  have multipliable : ∀ x ∈ a.entries, ∀ y ∈ b.entries,
      Multipliable x.monomial.powers y.monomial.powers := fun x first y second =>
    multipliable_of_whole
      (fun p inside => Dyadic.zero_iff.mpr (integers x (List.mem_append_left _ first) p inside))
      fun q inside => Dyadic.zero_iff.mpr (integers y (List.mem_append_right _ second) q inside)
  -- Integer degrees always multiply, so that all three products return.
  obtain ⟨wedge, contract, inner⟩ := products_sumOfParts A left right
  exact ⟨⟨left, right⟩, wedge, contract, inner,
    (wedge.returns multipliable).imp wedge.of_sum, (contract.returns multipliable).imp contract.of_sum,
    (inner.returns multipliable).imp inner.of_sum⟩

/-- The sum of the parts may fail where the product does not: the exterior product of two multiples of
one vector is zero, and the part of grade two of their geometric product needs a degree that is too
large. -/
theorem products_sumOfParts_overflow :
    let A : Algebra := { metric := .diagonal ⟨2, 0, 0, by decide⟩ }
    let a : Multivector := { terms := [⟨1, [⟨1, [⟨0, 2 ^ 1030 / 31⟩]⟩]⟩] }
    let b : Multivector := { terms := [⟨1, [⟨1, [⟨1, 2 ^ 1030 / 37⟩]⟩]⟩] }
    (a.Whole A.dim ∧ b.Whole A.dim) ∧ A.wedge a b = .ok .zero ∧
      A.sumOfParts (fun r s => some (r + s)) a b = .error .quotientOverflow := by
  intro A a b
  exact ⟨⟨by decide +kernel, by decide +kernel⟩, by decide +kernel, by decide +kernel⟩

end Algebra

end Clifford
