import Clifford.Proofs.Multivector.Image
import Clifford.Proofs.Multivector.Transport

/-! The products of multivectors over any metric: what they return represents the twisted product over
the orthogonal basis, and they return where the powers of their factors can be multiplied. -/

namespace Clifford

open Finsupp

section Value

variable {M : Type} [AddCommGroup M] [Module Rat M]

/-- The product of values over the working basis. -/
noncomputable def Reading.clifford (r : Reading M) (kind : BladeProduct) (m : Metric) :
    (Nat →₀ M) →ₗ[Rat] (Nat →₀ M) →ₗ[Rat] (Nat →₀ M) :=
  ((r.twisted (kind.coefficient m.signature)).compl₁₂ m.framed m.framed).compr₂ m.unframed

variable (r : Reading M) (kind : BladeProduct) (m : Metric)

/-- The product of values is taken over the orthogonal basis. -/
theorem Reading.clifford_apply (x y : Nat →₀ M) :
    r.clifford kind m x y =
      m.unframed (r.twisted (kind.coefficient m.signature) (m.framed x) (m.framed y)) := rfl

/-- Over the orthogonal basis the product of values is twisted. -/
theorem Reading.framed_clifford (x y : Nat →₀ M) :
    m.framed (r.clifford kind m x y) =
      r.twisted (kind.coefficient m.signature) (m.framed x) (m.framed y) := by
  rw [r.clifford_apply, Metric.framed_unframed]

variable {r kind m}

/-- Blades that are looked up directly multiply alike over either basis. -/
theorem Reading.clifford_single {a b : Nat}
    (aside : (kind.usesMetric && m.touches a && m.touches b) = false) (x y : M) :
    r.clifford kind m (single a x) (single b y) =
      r.twisted (kind.coefficient m.signature) (single a x) (single b y) := by
  suffices same : m.framed (r.twisted (kind.coefficient m.signature) (single a x) (single b y)) =
      r.twisted (kind.coefficient m.signature) (m.framed (single a x)) (m.framed (single b y)) by
    rw [r.clifford_apply, ← same, Metric.unframed_framed]
  -- A pair that one factor does not touch is carried through, and an exterior product keeps both
  -- vectors.
  unfold Metric.framed
  cases marked : m.isDiagonal with
  | true => simp only [(Metric.matrices_of_diagonal marked).1, Metric.frame_identity]
  | false =>
    cases left : m.touches a with
    | false =>
      obtain ⟨low, high⟩ := Metric.untouched marked left
      exact Metric.frame_twisted_right r x y marked low high
    | true =>
      cases right : m.touches b with
      | false =>
        obtain ⟨low, high⟩ := Metric.untouched marked right
        exact Metric.frame_twisted_left r x y marked low high
      | true =>
        have exterior : kind = .exterior := by
          rw [left, right, Bool.and_true, Bool.and_true] at aside
          cases kind <;> simp [BladeProduct.usesMetric] at aside ⊢
        rw [exterior]
        exact Metric.frame_exterior r x y marked

/-- Products of values of a space are values of the space. -/
theorem Reading.clifford_mem (r : Reading M) (kind : BladeProduct) {m : Metric} {x y : Nat →₀ M}
    (left : x ∈ spaceValues M m.dim) (right : y ∈ spaceValues M m.dim) :
    r.clifford kind m x y ∈ spaceValues M m.dim :=
  Metric.unframed_mem (r.twisted_mem _ (Metric.framed_mem left) (Metric.framed_mem right))

end Value

/-- How many times a product halves coefficients beyond those of its factors. -/
def Metric.slack (m : Metric) : Nat := if m.isDiagonal then 0 else 3

/-- A product halves coefficients at most three times. -/
theorem Metric.slack_le (m : Metric) : m.slack ≤ 3 := by
  rw [slack]
  split <;> decide

/-- Products of whole coefficients are exact, and can still be halved. -/
theorem Metric.slack_small (m : Metric) : m.slack + 1 ≤ exactBits := by
  have := m.slack_le
  rw [exactBits]
  omega

/-- A product of terms that touch a pair halves coefficients three times. -/
theorem Metric.slack_of_touches {m : Metric} {blade : Nat} (touching : m.touches blade = true) :
    m.slack = 3 := by
  have marked : m.isDiagonal = false := by
    rw [touches, Bool.and_eq_true] at touching
    simpa using touching.1
  rw [slack, marked]
  rfl

namespace BladeProduct

variable {kind : BladeProduct} {m : Metric} {i j : Nat}

section Returned

variable {M : Type} [AddCommGroup M] [Module Rat M] {r : Reading M}

/-- The powers of an image of a single term are powers of the term. -/
theorem powers_of_changed {k : Nat} {matrix : PairMatrix} {t : Term} {a : Multivector}
    (image : m.Changed matrix k { terms := [t] } a) {e : Entry} (inside : e ∈ a.entries) :
    ∃ f ∈ t.entries, f.monomial.powers = e.monomial.powers := by
  simpa [Multivector.entries_singleton] using image.source e inside

/-- The product of two terms over the orthogonal basis represents their product. -/
theorem framedPair_product {s t : Term} {es : List Entry}
    (left : Multivector.Over m.dim i { terms := [s] })
    (right : Multivector.Over m.dim j { terms := [t] }) (small : i + j + 3 ≤ exactBits)
    (multiplies : ∀ x ∈ s.entries, ∀ y ∈ t.entries,
      r.Multiplies x.monomial.powers y.monomial.powers)
    (returned : kind.framedPair m s t = .ok es) :
    r.Product m.dim (i + j + 3) (r.clifford kind m) s.entries t.entries es := by
  -- Both images exist, and what the code makes of them is a direct product.
  obtain ⟨a, changedLeft, imageLeft⟩ := Metric.exists_diagonalize left (by omega)
  obtain ⟨b, changedRight, imageRight⟩ := Metric.exists_diagonalize right (by omega)
  rw [framedPair, changedLeft, Result.ok_bind, changedRight, Result.ok_bind] at returned
  obtain ⟨c, product, rest⟩ := Result.bind_eq_ok.mp returned
  obtain ⟨inSpace, -, direct⟩ := directProduct_product (r := r) imageLeft.inSpace imageRight.inSpace
    (by omega) (fun x first y second => by
      obtain ⟨x', given, same⟩ := powers_of_changed imageLeft first
      obtain ⟨y', given', same'⟩ := powers_of_changed imageRight second
      rw [← same, ← same']
      exact multiplies x' given y' given') product
  have inSpace : c.Over m.dim (i + j + 2) := inSpace.mono (by omega)
  obtain ⟨d, back, image⟩ := Metric.exists_undiagonalize inSpace small
  rw [back] at rest
  cases rest
  -- The result is the image of that product, changed back.
  refine ⟨fun e inside => image.inSpace.element_lt inside, image.inSpace.dyadic, fun e inside => ?_,
    ?_⟩
  · obtain ⟨f, given, powers⟩ := image.source e inside
    obtain ⟨x, first, y, second, made⟩ := direct.source f given
    obtain ⟨x', given, same⟩ := powers_of_changed imageLeft first
    obtain ⟨y', given', same'⟩ := powers_of_changed imageRight second
    exact ⟨x', given, y', given', by rw [same, same', made, powers]⟩
  · have leftValue := imageLeft.value r
    have rightValue := imageRight.value r
    rw [Reading.read, Reading.read, Multivector.entries_singleton] at leftValue rightValue
    rw [← Reading.read, image.value r, Reading.read, direct.value, leftValue, rightValue]
    rfl

/-- The product of two terms represents their product. -/
theorem termPair_product {a b : Multivector} (left : a.Over m.dim i) (right : b.Over m.dim j)
    (small : i + j + m.slack ≤ exactBits)
    (multiplies : ∀ x ∈ a.entries, ∀ y ∈ b.entries,
      r.Multiplies x.monomial.powers y.monomial.powers) :
    ∀ s ∈ a.terms, ∀ t ∈ b.terms, ∀ es, kind.termPair m s t = .ok es →
      r.Product m.dim (i + j + m.slack) (r.clifford kind m) s.entries t.entries es := by
  intro s first t second es returned
  rw [termPair] at returned
  split at returned
  · rename_i framed
    simp only [Bool.and_eq_true] at framed
    -- Blades that the null vectors touch are multiplied in the other basis.
    rw [Metric.slack_of_touches framed.2] at small ⊢
    exact framedPair_product (left.term first) (right.term second) small
      (fun x inside y inside' => multiplies x (Multivector.mem_entries first inside) y
        (Multivector.mem_entries second inside')) returned
  · rename_i aside
    -- A pair that is not touched is looked up, where the values are the same.
    have direct := directPair_product (r := r) (left.bounded s first) (right.bounded t second)
      (left.dyadic_term first) (right.dyadic_term second) (by omega) (fun x inside y inside' =>
        multiplies ⟨s.element, x⟩ (Multivector.mem_entries first (List.mem_map_of_mem inside))
          ⟨t.element, y⟩ (Multivector.mem_entries second (List.mem_map_of_mem inside'))) returned
    refine ⟨direct.bounded, fun e inside => (direct.dyadic e inside).mono (by omega), direct.source,
      direct.value.trans ?_⟩
    have leftTotal := r.weightedSum_term s.element s.monomials
    have rightTotal := r.weightedSum_term t.element t.monomials
    rw [leftTotal, rightTotal,
      Reading.clifford_single (by simpa using aside)]

/-- The product of two multivectors represents the product of their values. -/
theorem product_product {a b c : Multivector} (left : a.Over m.dim i) (right : b.Over m.dim j)
    (small : i + j + m.slack ≤ exactBits)
    (multiplies : ∀ x ∈ a.entries, ∀ y ∈ b.entries,
      r.Multiplies x.monomial.powers y.monomial.powers)
    (returned : kind.product m a b = .ok c) :
    c.Over m.dim (i + j + m.slack) ∧ c.Plain ∧
      r.Product m.dim (i + j + m.slack) (r.clifford kind m) a.entries b.entries c.entries := by
  obtain ⟨-, -, rest⟩ := Result.bind_eq_ok.mp returned
  obtain ⟨-, -, rows⟩ := Result.bind_eq_ok.mp rest
  exact pairs_product left.canonical right.canonical small
    (termPair_product left right small multiplies) rows

end Returned

/-- Two blades meet in a product if it multiplies the monomials on them: over the basis in which it is
taken, the structure coefficient of some of their images is not zero. -/
def Meets (kind : BladeProduct) (m : Metric) (left right : Nat) : Prop :=
  if kind.usesMetric && m.touches left && m.touches right then
    ∃ p q, m.imageFactor left p ≠ 0 ∧ m.imageFactor right q ≠ 0 ∧
      kind.coefficient m.signature p q ≠ 0
  else kind.coefficient m.signature left right ≠ 0

section Returns

variable {a b : Multivector}

/-- Two terms have a product over the orthogonal basis if their monomials can be multiplied wherever
the structure coefficient of images of their blades is not zero. -/
theorem exists_framedPair {s t : Term} (left : Multivector.Over m.dim i { terms := [s] })
    (right : Multivector.Over m.dim j { terms := [t] }) (small : i + j + 3 ≤ exactBits)
    (multipliable : ∀ p q, m.imageFactor s.element p ≠ 0 → m.imageFactor t.element q ≠ 0 →
      kind.coefficient m.signature p q ≠ 0 →
      ∀ x ∈ s.monomials, ∀ y ∈ t.monomials, Multipliable x.powers y.powers) :
    ∃ es, kind.framedPair m s t = .ok es ∧ KeyedEntries es := by
  -- Both factors change their basis, which always returns.
  obtain ⟨a, changedLeft, imageLeft⟩ := Metric.exists_diagonalize left (by omega)
  obtain ⟨b, changedRight, imageRight⟩ := Metric.exists_diagonalize right (by omega)
  obtain ⟨c, product⟩ := exists_directProduct kind imageLeft.inSpace imageRight.inSpace
    (by omega) fun u first v second nonzero x member y other => by
      -- The monomials of the images have the powers of monomials of the terms.
      obtain ⟨leftFactor, x', given, same⟩ := (imageLeft.exists_entry left.canonical _ _).mp
        ⟨⟨u.element, x⟩, Multivector.mem_entries first (List.mem_map_of_mem member), rfl, rfl⟩
      obtain ⟨rightFactor, y', given', same'⟩ := (imageRight.exists_entry right.canonical _ _).mp
        ⟨⟨v.element, y⟩, Multivector.mem_entries second (List.mem_map_of_mem other), rfl, rfl⟩
      rw [← same, ← same']
      exact multipliable _ _ leftFactor rightFactor nonzero x' given y' given'
  -- Their product lies in the space, so it changes back.
  obtain ⟨inSpace, -⟩ := directProduct_product (r := Reading.trivial) imageLeft.inSpace
    imageRight.inSpace (by omega) (fun _ _ _ _ => Reading.multiplies_trivial _ _) product
  have inSpace : c.Over m.dim (i + j + 2) := inSpace.mono (by omega)
  obtain ⟨d, back, image⟩ := Metric.exists_undiagonalize inSpace small
  refine ⟨d.entries, ?_, fun e inside => (image.inSpace.canonical.entry inside).keyed⟩
  rw [framedPair, changedLeft, Result.ok_bind, changedRight, Result.ok_bind, product,
    Result.ok_bind, back]
  rfl

variable (kind) in
/-- Multivectors have a product if the monomials of terms that meet can be multiplied. -/
theorem exists_product_of_meets (left : a.Over m.dim i) (right : b.Over m.dim j)
    (plainLeft : a.op = .identity) (plainRight : b.op = .identity)
    (small : i + j + m.slack ≤ exactBits)
    (multipliable : ∀ s ∈ a.terms, ∀ t ∈ b.terms, kind.Meets m s.element t.element →
      ∀ x ∈ s.monomials, ∀ y ∈ t.monomials, Multipliable x.powers y.powers) :
    ∃ c, kind.product m a b = .ok c := by
  rw [product, Multivector.requirePlain_eq_ok plainLeft, Result.ok_bind,
    Multivector.requirePlain_eq_ok plainRight, Result.ok_bind]
  -- Whatever pair of terms is taken, it meets or is not looked at.
  refine exists_pairs small (termPair_product (r := Reading.trivial) left right small
    fun _ _ _ _ => Reading.multiplies_trivial _ _) fun s first t second => ?_
  have meeting := multipliable s first t second
  rw [Meets] at meeting
  rw [termPair]
  split at meeting <;> rename_i framed
  · rw [if_pos framed]
    simp only [Bool.and_eq_true] at framed
    rw [Metric.slack_of_touches framed.2] at small
    exact exists_framedPair (left.term first) (right.term second) small
      fun p q leftFactor rightFactor nonzero => meeting ⟨p, q, leftFactor, rightFactor, nonzero⟩
  · rw [if_neg framed]
    exact exists_directPair (left.bounded s first) (right.bounded t second)
      (left.dyadic_term first) (right.dyadic_term second) (by omega) meeting

variable (kind) in
/-- Multivectors whose monomials can be multiplied have a product. -/
theorem exists_product (left : a.Over m.dim i) (right : b.Over m.dim j)
    (plainLeft : a.op = .identity) (plainRight : b.op = .identity)
    (small : i + j + m.slack ≤ exactBits)
    (multipliable : ∀ x ∈ a.entries, ∀ y ∈ b.entries,
      Multipliable x.monomial.powers y.monomial.powers) : ∃ c, kind.product m a b = .ok c :=
  exists_product_of_meets kind left right plainLeft plainRight small
    fun s first t second _ x member y other =>
      multipliable ⟨s.element, x⟩ (Multivector.mem_entries first (List.mem_map_of_mem member))
        ⟨t.element, y⟩ (Multivector.mem_entries second (List.mem_map_of_mem other))

end Returns

end BladeProduct

end Clifford
