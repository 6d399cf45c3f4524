import Clifford.Proofs.Multivector.Bilinear

/-! Where products return: exactly where the monomials of all terms that meet can be multiplied. The
terms that meet in any product meet in the geometric one. -/

namespace Clifford

open Finsupp

namespace BladeProduct

variable {kind : BladeProduct} {m : Metric} {i j : Nat}

/-- Monomials that were distributed over entries with keys can be multiplied. -/
theorem multipliable_of_distribute {ms ns : List Monomial} {element : Nat} {sign : Int}
    {es : List Entry} (returned : distribute ms ns element sign = .ok es) (keyed : KeyedEntries es) :
    ∀ x ∈ ms, ∀ y ∈ ns, Multipliable x.powers y.powers := by
  -- The product of the two monomials is one of the entries, which has a key.
  intro x first y second
  obtain ⟨rows, mapped, done⟩ := Result.bind_eq_ok.mp returned
  cases done
  obtain ⟨row, member, columns⟩ := Result.exists_of_mapM_mem mapped first
  obtain ⟨e, inside, made⟩ := Result.exists_of_mapM_mem columns second
  obtain ⟨q, -, rest⟩ := Result.bind_eq_ok.mp made
  obtain ⟨powers, product, done⟩ := Result.bind_eq_ok.mp rest
  cases done
  obtain ⟨key, keyOf⟩ := keyed _ (List.mem_flatten.mpr ⟨row, member, inside⟩)
  exact ⟨powers, key, product, keyOf⟩

/-- Every pair of terms of a product that returns has entries with keys. -/
theorem pair_of_pairs {a b : List Term} {f : Term → Term → Result (List Entry)} {c : Multivector}
    (returned : (do
      let rows ← a.mapM fun s => b.mapM fun t => f s t
      collate (rows.map List.flatten).flatten) = .ok c) :
    ∀ s ∈ a, ∀ t ∈ b, ∃ es, f s t = .ok es ∧ KeyedEntries es := by
  -- The entries of a pair are among all that were collated.
  intro s first t second
  obtain ⟨rows, mapped, collated⟩ := Result.bind_eq_ok.mp returned
  obtain ⟨row, member, columns⟩ := Result.exists_of_mapM_mem mapped first
  obtain ⟨es, pair, made⟩ := Result.exists_of_mapM_mem columns second
  refine ⟨es, made, fun e inside => exists_key_of_collate collated e ?_⟩
  exact List.mem_flatten.mpr ⟨row.flatten, List.mem_map_of_mem member,
    List.mem_flatten.mpr ⟨es, pair, inside⟩⟩

/-- Terms that were multiplied over an orthogonal basis can be multiplied where their structure
coefficient is not zero. -/
theorem multipliable_of_directPair {s t : Term} {es : List Entry} (left : s.element < m.dim)
    (right : t.element < m.dim) (returned : kind.directPair m s t = .ok es)
    (keyed : KeyedEntries es)
    (nonzero : kind.coefficient m.signature s.element t.element ≠ 0) :
    ∀ x ∈ s.monomials, ∀ y ∈ t.monomials, Multipliable x.powers y.powers := by
  -- A structure coefficient other than zero lets the monomials be distributed.
  rw [directPair, entry_eq kind m left right, Result.ok_bind] at returned
  simp only [weighted, if_neg nonzero] at returned
  exact multipliable_of_distribute returned keyed

/-- Terms that were multiplied over the other basis can be multiplied where the structure coefficient
of images of their blades is not zero. -/
theorem multipliable_of_framedPair {s t : Term} {es : List Entry}
    (left : Multivector.Over m.dim i { terms := [s] })
    (right : Multivector.Over m.dim j { terms := [t] }) (small : i + j + 3 ≤ exactBits)
    (returned : kind.framedPair m s t = .ok es) {p q : Nat}
    (leftFactor : m.imageFactor s.element p ≠ 0) (rightFactor : m.imageFactor t.element q ≠ 0)
    (nonzero : kind.coefficient m.signature p q ≠ 0) :
    ∀ x ∈ s.monomials, ∀ y ∈ t.monomials, Multipliable x.powers y.powers := by
  intro x first y second
  obtain ⟨a, changedLeft, imageLeft⟩ := Metric.exists_diagonalize left (by omega)
  obtain ⟨b, changedRight, imageRight⟩ := Metric.exists_diagonalize right (by omega)
  rw [framedPair, changedLeft, Result.ok_bind, changedRight, Result.ok_bind] at returned
  obtain ⟨c, product, -⟩ := Result.bind_eq_ok.mp returned
  -- Both images have terms on the blades, with the powers of both monomials.
  have onImage {k : Nat} {u : Term} {d : Multivector}
      (canonical : Multivector.Canonical { terms := [u] })
      (image : m.Changed m.toDiagonal k { terms := [u] } d) {z : Monomial} (inside : z ∈ u.monomials)
      {r : Nat} (factor : m.imageFactor u.element r ≠ 0) :
      ∃ v ∈ d.terms, v.element = r ∧ ∃ z' ∈ v.monomials, z'.powers = z.powers := by
    obtain ⟨e, entry, element, powers⟩ :=
      (image.exists_entry canonical r z.powers).mpr ⟨factor, z, inside, rfl⟩
    obtain ⟨v, member, monomial⟩ := List.mem_flatMap.mp entry
    obtain ⟨z', given, rfl⟩ := List.mem_map.mp monomial
    exact ⟨v, member, element, z', given, powers⟩
  obtain ⟨u, memberU, rfl, x', given, powers⟩ := onImage left.canonical imageLeft first leftFactor
  obtain ⟨v, memberV, rfl, y', given', powers'⟩ :=
    onImage right.canonical imageRight second rightFactor
  -- The product of the images has multiplied these two terms directly.
  obtain ⟨es', pair, keyed⟩ := pair_of_pairs product u memberU v memberV
  rw [← powers, ← powers']
  exact multipliable_of_directPair (imageLeft.inSpace.bounded u memberU)
    (imageRight.inSpace.bounded v memberV) pair keyed nonzero x' given y' given'

/-- A product returns exactly if the monomials of all terms that meet can be multiplied. -/
theorem product_returns_iff {a b : Multivector} (left : a.Over m.dim i) (right : b.Over m.dim j)
    (plainLeft : a.op = .identity) (plainRight : b.op = .identity)
    (small : i + j + m.slack ≤ exactBits) :
    (∃ c, kind.product m a b = .ok c) ↔
      ∀ s ∈ a.terms, ∀ t ∈ b.terms, kind.Meets m s.element t.element →
        ∀ x ∈ s.monomials, ∀ y ∈ t.monomials, Multipliable x.powers y.powers := by
  refine ⟨?_, exists_product_of_meets kind left right plainLeft plainRight small⟩
  -- Terms that meet have been multiplied, in one of the two bases.
  rintro ⟨c, returned⟩ s first t second meet
  obtain ⟨-, -, rest⟩ := Result.bind_eq_ok.mp returned
  obtain ⟨-, -, rows⟩ := Result.bind_eq_ok.mp rest
  obtain ⟨es, pair, keyed⟩ := pair_of_pairs rows s first t second
  rw [Meets] at meet
  rw [termPair] at pair
  split at meet <;> rename_i framed
  · rw [if_pos framed] at pair
    simp only [Bool.and_eq_true] at framed
    rw [Metric.slack_of_touches framed.2] at small
    -- Touching blades meet through a pair of blades of their images.
    obtain ⟨p, q, leftFactor, rightFactor, nonzero⟩ := meet
    exact multipliable_of_framedPair (left.term first) (right.term second) small pair leftFactor
      rightFactor nonzero
  · rw [if_neg framed] at pair
    exact multipliable_of_directPair (left.bounded s first) (right.bounded t second) pair keyed meet

/-- Blades with a structure coefficient in any product have one in the geometric product. -/
theorem coefficient_geometric {s : Signature} {e f : Nat} (nonzero : kind.coefficient s e f ≠ 0) :
    geometric.coefficient s e f ≠ 0 ∧ kind.keeps e f = true := by
  -- Every product has the coefficients of the geometric one or none.
  have kept : kind.keeps e f = true := by
    by_contra other
    exact nonzero (coefficient_of_not_keeps other)
  exact ⟨coefficient_of_keeps kept ▸ nonzero, kept⟩

/-- Images of blades that are looked up directly have a structure coefficient if the blades have. -/
theorem exists_image_coefficient {e f : Nat}
    (aside : (kind.usesMetric && m.touches e && m.touches f) = false)
    (nonzero : kind.coefficient m.signature e f ≠ 0) :
    ∃ p q, m.imageFactor e p ≠ 0 ∧ m.imageFactor f q ≠ 0 ∧
      kind.coefficient m.signature p q ≠ 0 := by
  by_contra none
  push Not at none
  -- Otherwise the product of both images would vanish, and with it that of the blades.
  let r : Reading Rat := ⟨fun _ => 1, LinearMap.mul Rat Rat⟩
  have vanishes : r.twisted (kind.coefficient m.signature) (m.framed (single e (1 : Rat)))
      (m.framed (single f (1 : Rat))) = 0 := by
    rw [← sum_single (m.framed (single e (1 : Rat))), ← sum_single (m.framed (single f (1 : Rat))),
      Finsupp.sum, Finsupp.sum, map_sum]
    refine Finset.sum_eq_zero fun q right => ?_
    rw [map_sum, LinearMap.sum_apply]
    refine Finset.sum_eq_zero fun p left => ?_
    rw [r.twisted_single, none p q (mem_support_iff.mp left) (mem_support_iff.mp right)]
    simp
  -- The same product without the change of basis is the coefficient of the blades.
  have direct := Reading.clifford_single (r := r) aside (1 : Rat) (1 : Rat)
  rw [r.clifford_apply, vanishes, map_zero, r.twisted_single] at direct
  have value := congrFun (congrArg DFunLike.coe direct) (e ^^^ f)
  have zero : 0 = (kind.coefficient m.signature e f : Rat) := by simpa [r] using value
  exact nonzero (by exact_mod_cast zero.symm)

/-- Blades that meet in any product meet in the geometric product. -/
theorem Meets.geometric {e f : Nat} (meet : kind.Meets m e f) :
    BladeProduct.geometric.Meets m e f := by
  rw [Meets] at meet ⊢
  split at meet <;> rename_i framed
  · -- Over the other basis the images are those of the geometric product.
    obtain ⟨p, q, left, right, nonzero⟩ := meet
    simp only [Bool.and_eq_true] at framed
    rw [if_pos (by simp [usesMetric, framed.1.2, framed.2])]
    exact ⟨p, q, left, right, (coefficient_geometric nonzero).1⟩
  · -- A pair that is looked up directly may be multiplied over the other basis in the geometric
    -- product.
    split
    · obtain ⟨p, q, left, right, images⟩ :=
        exists_image_coefficient (by simpa using framed) meet
      exact ⟨p, q, left, right, (coefficient_geometric images).1⟩
    · exact (coefficient_geometric meet).1

/-- A product keeps blades of the same grades as blades that meet in it. -/
theorem Meets.exists_keeps {e f : Nat} (left : e < m.dim) (right : f < m.dim)
    (meet : kind.Meets m e f) :
    ∃ p q, p < m.dim ∧ q < m.dim ∧ Blade.grade p = Blade.grade e ∧ Blade.grade q = Blade.grade f ∧
      kind.keeps p q = true := by
  rw [Meets] at meet
  split at meet
  · -- The images that meet have the grades of the blades.
    obtain ⟨p, q, leftFactor, rightFactor, nonzero⟩ := meet
    exact ⟨p, q, Metric.image_lt left leftFactor, Metric.image_lt right rightFactor,
      Metric.grade_image leftFactor, Metric.grade_image rightFactor,
      (coefficient_geometric nonzero).2⟩
  · exact ⟨e, f, left, right, rfl, rfl, (coefficient_geometric meet).2⟩

end BladeProduct

end Clifford
