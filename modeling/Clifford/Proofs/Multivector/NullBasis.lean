import Clifford.Proofs.Multivector.Bilinear

/-! Agreement of the two ways to multiply over a marked pair: the product over the working basis,
which looks most blades up directly, goes over into the product over the orthogonal basis. -/

namespace Clifford

open Finsupp

/-- A plain canonical multivector of a space with whole coefficients. -/
structure Multivector.Whole (dim : Nat) (a : Multivector) : Prop where
  plain : a.Plain
  canonical : a.Canonical
  bounded : ∀ t ∈ a.terms, t.element < dim
  integers : ∀ e ∈ a.entries, e.monomial.coefficient.den = 1

instance {a : Multivector} : Decidable a.Plain :=
  inferInstanceAs (Decidable (a.op = .identity ∧ a.opScale = 1))

instance {dim : Nat} {a : Multivector} : Decidable (a.Whole dim) :=
  decidable_of_iff (a.Plain ∧ a.checkCanonical "" = .ok () ∧ (∀ t ∈ a.terms, t.element < dim) ∧
      ∀ e ∈ a.entries, e.monomial.coefficient.den = 1)
    ⟨fun ⟨plain, checked, bounded, integers⟩ =>
        ⟨plain, (a.checkCanonical_eq_ok "").mp checked, bounded, integers⟩,
      fun whole => ⟨whole.plain, (a.checkCanonical_eq_ok "").mpr whole.canonical, whole.bounded,
        whole.integers⟩⟩

/-- Whole coefficients are exact. -/
theorem Multivector.Whole.over {dim : Nat} {a : Multivector} (whole : a.Whole dim) : a.Over dim 0 :=
  ⟨whole.canonical, whole.bounded, fun e inside => Dyadic.zero_iff.mpr (whole.integers e inside)⟩

namespace Metric

variable {m : Metric} {kind : BladeProduct} {a b c : Multivector}

/-- Over the orthogonal basis a product halves nothing. -/
theorem slack_base : m.base.slack = 0 := rfl

/-- Over the orthogonal basis nothing is framed. -/
theorem framed_base {M : Type} [AddCommGroup M] [Module Rat M] (x : Nat →₀ M) :
    m.base.framed x = x := frame_identity x

/-- The product of values over the orthogonal basis. -/
theorem clifford_base {M : Type} [AddCommGroup M] [Module Rat M] (r : Reading M)
    (x y : Nat →₀ M) :
    r.clifford kind m.base x y = r.twisted (kind.coefficient m.signature) x y := by
  have same := r.framed_clifford kind m.base x y
  rwa [framed_base, framed_base, framed_base] at same

/-- Both ways to multiply, as far as they return, represent the same value. -/
theorem product_agrees (left : a.Over m.dim 0) (right : b.Over m.dim 0) {a' b' d e : Multivector}
    (product : kind.product m a b = .ok c) (image : m.diagonalize c = .ok d)
    (imageLeft : m.diagonalize a = .ok a') (imageRight : m.diagonalize b = .ok b')
    (base : kind.product m.base a' b' = .ok e) : d = e := by
  -- Halving by the change of basis leaves room below the threshold.
  have small := m.slack_small
  have multiplies {u v : Multivector} : ∀ x ∈ u.entries, ∀ y ∈ v.entries,
      Reading.free.Multiplies x.monomial.powers y.monomial.powers :=
    fun _ _ _ _ => Reading.multiplies_free _ _
  -- The way over the working basis multiplies first and changes the basis after that.
  obtain ⟨fast, plainFast, fastValue⟩ :=
    BladeProduct.product_product left right (by omega) multiplies product
  obtain ⟨d', changed, fastImage⟩ := exists_diagonalize fast (by omega)
  obtain rfl : d = d' := by simpa [image] using changed
  obtain ⟨a'', changed, leftImage⟩ := exists_diagonalize left (by decide)
  obtain rfl : a' = a'' := by simpa [imageLeft] using changed
  obtain ⟨b'', changed, rightImage⟩ := exists_diagonalize right (by decide)
  obtain rfl : b' = b'' := by simpa [imageRight] using changed
  -- The way over the orthogonal basis starts from the images of both factors.
  obtain ⟨slow, plainSlow, slowValue⟩ :=
    BladeProduct.product_product (m := m.base) leftImage.inSpace rightImage.inSpace
      (by rw [slack_base]; decide) multiplies base
  -- Values are carried over in one step, so the way does not matter for them.
  have values : Reading.free.read d = Reading.free.read e := by
    rw [fastImage.value, Reading.read, fastValue.value]
    refine (Reading.free.framed_clifford kind m _ _).trans ?_
    rw [Reading.read, slowValue.value, clifford_base]
    congr 1
    · congr 1
      exact (leftImage.value Reading.free).symm
    · exact (rightImage.value Reading.free).symm
  -- Canonical multivectors with the same values for free indeterminates have the same terms.
  have terms := Reading.freeProbe.terms_eq fastImage.inSpace.canonical slow.canonical
    (fun _ _ => trivial) (fun _ _ => trivial) values
  have plain : d.Plain := ⟨fastImage.deferred.1.trans plainFast.1,
    fastImage.deferred.2.trans plainFast.2⟩
  exact plain.eq_of_terms plainSlow terms

/-- A product over the working basis, written over the orthogonal basis. -/
def productThenDiagonalize (kind : BladeProduct) (m : Metric) (a b : Multivector) :
    Result Multivector := do m.diagonalize (← kind.product m a b)

/-- A product of multivectors that are written over the orthogonal basis. -/
def diagonalizeThenProduct (kind : BladeProduct) (m : Metric) (a b : Multivector) :
    Result Multivector := do kind.product m.base (← m.diagonalize a) (← m.diagonalize b)

/-- The product over the working basis goes over into the product over the orthogonal basis: both ways
agree wherever they return, and they return when all monomials can be multiplied. -/
theorem diagonalize_product (kind : BladeProduct) (m : Metric) {a b : Multivector}
    (left : a.Whole m.dim) (right : b.Whole m.dim) :
    (∀ fast slow, productThenDiagonalize kind m a b = .ok fast →
      diagonalizeThenProduct kind m a b = .ok slow → fast = slow) ∧
    ((∀ x ∈ a.entries, ∀ y ∈ b.entries, Multipliable x.monomial.powers y.monomial.powers) →
      ∃ c, productThenDiagonalize kind m a b = .ok c ∧ diagonalizeThenProduct kind m a b = .ok c) := by
  have agree : ∀ fast slow, productThenDiagonalize kind m a b = .ok fast →
      diagonalizeThenProduct kind m a b = .ok slow → fast = slow := by
    intro fast slow first second
    obtain ⟨c, product, image⟩ := Result.bind_eq_ok.mp first
    obtain ⟨a', imageLeft, rest⟩ := Result.bind_eq_ok.mp second
    obtain ⟨b', imageRight, base⟩ := Result.bind_eq_ok.mp rest
    exact product_agrees left.over right.over product image imageLeft imageRight base
  -- Where all monomials can be multiplied, each of the five operations returns.
  refine ⟨agree, fun multipliable => ?_⟩
  have small := m.slack_small
  obtain ⟨c, product⟩ := BladeProduct.exists_product kind left.over right.over left.plain.1
    right.plain.1 (by omega) multipliable
  obtain ⟨inSpace, -⟩ := BladeProduct.product_product (r := Reading.trivial) left.over right.over
    (by omega) (fun _ _ _ _ => Reading.multiplies_trivial _ _) product
  obtain ⟨fast, image, -⟩ := exists_diagonalize inSpace (by omega)
  obtain ⟨a', imageLeft, changedLeft⟩ := exists_diagonalize left.over (by decide)
  obtain ⟨b', imageRight, changedRight⟩ := exists_diagonalize right.over (by decide)
  obtain ⟨slow, base⟩ := BladeProduct.exists_product kind (m := m.base)
    changedLeft.inSpace changedRight.inSpace (changedLeft.deferred.1.trans left.plain.1)
    (changedRight.deferred.1.trans right.plain.1) (by rw [slack_base]; decide) fun x first y second => by
      -- The change of basis makes no new monomials.
      obtain ⟨x', given, same⟩ := changedLeft.source x first
      obtain ⟨y', given', same'⟩ := changedRight.source y second
      rw [← same, ← same']
      exact multipliable x' given y' given'
  have first : productThenDiagonalize kind m a b = .ok fast := by
    rw [productThenDiagonalize, product, Result.ok_bind, image]
  have second : diagonalizeThenProduct kind m a b = .ok slow := by
    rw [diagonalizeThenProduct, imageLeft, Result.ok_bind, imageRight, Result.ok_bind, base]
  exact ⟨fast, first, agree fast slow first second ▸ second⟩

/-- The product of `2 * x * e_o + 3 * y² * e₁ ∧ e_inf` and `x⁻¹ * e_inf - e_o ∧ e_inf` is the same
either way. -/
theorem diagonalize_product_mixed :
    let m : Metric := .null ⟨2, 1, 0, by decide⟩ (by decide) (by decide)
    let a : Multivector := { terms := [⟨2, [⟨2, [⟨0, 1⟩]⟩]⟩, ⟨5, [⟨3, [⟨1, 2⟩]⟩]⟩] }
    let b : Multivector := { terms := [⟨4, [⟨1, [⟨0, -1⟩]⟩]⟩, ⟨6, [⟨-1, []⟩]⟩] }
    a.Whole m.dim ∧ b.Whole m.dim ∧
      ∃ c, productThenDiagonalize .geometric m a b = .ok c ∧
        diagonalizeThenProduct .geometric m a b = .ok c := by
  intro m a b
  have left : a.Whole m.dim := by decide +kernel
  have right : b.Whole m.dim := by decide +kernel
  have integers : ∀ e ∈ a.entries ++ b.entries, ∀ p ∈ e.monomial.powers, p.degree.den = 1 := by
    decide
  refine ⟨left, right, (diagonalize_product .geometric m left right).2 fun x first y second => ?_⟩
  -- Whole degrees can always be added.
  exact multipliable_of_whole
    (fun p inside => Dyadic.zero_iff.mpr (integers x (List.mem_append_left _ first) p inside))
    fun q inside => Dyadic.zero_iff.mpr (integers y (List.mem_append_right _ second) q inside)

/-- A monomial on the vector of the origin spreads over both orthogonal vectors. -/
theorem diagonalize_origin {powers : List Power} {key : MonomialKey}
    (keyed : MonomialKey.ofPowers powers = .ok key) :
    let m : Metric := .null ⟨1, 1, 0, by decide⟩ (by decide) (by decide)
    m.diagonalize { terms := [⟨1, [⟨1, powers⟩]⟩] } =
      .ok { terms := [⟨1, [⟨-1 / 2, powers⟩]⟩, ⟨2, [⟨1 / 2, powers⟩]⟩] } := by
  intro m
  -- The key exists by hypothesis, so it only has to be carried through the sort and the merge.
  obtain ⟨degree, sum, made⟩ := Result.bind_eq_ok.mp keyed
  cases made
  have left : gatedMul 1 (-1 / 2) = .ok (-1 / 2) := by decide +kernel
  have right : gatedMul 1 2⁻¹ = .ok 2⁻¹ := by decide +kernel
  -- The origin is half the difference of both orthogonal vectors.
  have images : m.termImages m.toDiagonal ⟨1, [⟨1, powers⟩]⟩ =
      .ok [Entry.of 1 (-1 / 2) powers, Entry.of 2 (1 / 2) powers] := by
    have single : m.pairImages m.toDiagonal 1 = .ok [(1, -1 / 2), (2, 1 / 2)] := by decide +kernel
    rw [termImages, single, Result.ok_bind]
    simp [left, right]
  have keys : [Entry.of 1 (-1 / 2) powers, Entry.of 2 (1 / 2) powers].mapM KeyedEntry.ofEntry =
      .ok [⟨1, ⟨degree, powers⟩, -1 / 2⟩, ⟨2, ⟨degree, powers⟩, 1 / 2⟩] := by
    simp [KeyedEntry.ofEntry, Entry.of, keyed]
  have sorted : [(⟨1, ⟨degree, powers⟩, -1 / 2⟩ : KeyedEntry), ⟨2, ⟨degree, powers⟩, 1 / 2⟩].Pairwise
      fun a b => (KeyedEntry.compare a b).isLE := by
    simp [KeyedEntry.compare, compare, compareOfLessAndEq]
  have collated := collateTerms_of_sorted keys sorted
  rw [diagonalize, if_neg (by decide), changeBasis, List.mapM_cons, images]
  simp only [List.mapM_nil, Result.ok_bind, Result.pure_eq_ok, List.flatten_cons, List.flatten_nil,
    List.append_nil, collate, collated]
  simp [KeyedEntry.merge, KeyedEntry.sumRuns, KeyedEntry.alike, KeyedEntry.group,
    KeyedEntry.monomial]

/-- Both ways do not agree on every input: the exterior product of two multiples of `e_o` is zero over
the working basis and overflows over the orthogonal basis when the sum of their degrees is too large. -/
theorem diagonalize_product_overflow :
    let m : Metric := .null ⟨1, 1, 0, by decide⟩ (by decide) (by decide)
    let a : Multivector := { terms := [⟨1, [⟨1, [⟨0, 2 ^ 1030 / 31⟩]⟩]⟩] }
    let b : Multivector := { terms := [⟨1, [⟨1, [⟨0, 2 ^ 1030 / 37⟩]⟩]⟩] }
    a.Whole m.dim ∧ b.Whole m.dim ∧
      productThenDiagonalize .exterior m a b = .ok .zero ∧
      diagonalizeThenProduct .exterior m a b = .error .quotientOverflow := by
  intro m a b
  -- Each of the degrees is small enough on its own.
  refine ⟨by decide +kernel, by decide +kernel, by decide +kernel, ?_⟩
  have first : MonomialKey.ofPowers [⟨0, 2 ^ 1030 / 31⟩] = .ok ⟨2 ^ 1030 / 31, [⟨0, 2 ^ 1030 / 31⟩]⟩ := by
    decide +kernel
  have second : MonomialKey.ofPowers [⟨0, 2 ^ 1030 / 37⟩] =
      .ok ⟨2 ^ 1030 / 37, [⟨0, 2 ^ 1030 / 37⟩]⟩ := by
    decide +kernel
  rw [diagonalizeThenProduct, diagonalize_origin first, Result.ok_bind, diagonalize_origin second,
    Result.ok_bind]
  decide +kernel

end Metric

end Clifford
