import Clifford.Proofs.Multivector.Bladewise

/-! Images of single terms over the orthogonal basis: the blades on which they have monomials, and the
powers of these monomials. -/

namespace Clifford

open Finsupp

/-- A canonical multivector has an entry with some powers on a blade exactly where its value does. -/
theorem Multivector.Canonical.coordinate_ne_zero {a : Multivector} (canonical : a.Canonical)
    (blade : Nat) (powers : List Power) :
    Reading.coordinate blade powers (Reading.free.read a) ≠ 0 ↔
      ∃ e ∈ a.entries, e.element = blade ∧ e.monomial.powers = powers := by
  -- For free values nothing cancels, so a coordinate is a coefficient.
  obtain ⟨found, absent⟩ := Reading.freeProbe.read_total (Set.mem_univ powers) blade
    canonical.entries_ordered fun _ _ => Set.mem_univ _
  constructor
  · intro nonzero
    by_contra missing
    exact nonzero (absent fun e inside same => missing ⟨e, inside, same⟩)
  · rintro ⟨e, inside, element, same⟩ zero
    exact (canonical.entry inside).nonzero ((found e inside element same).symm.trans zero)

namespace Metric

variable {m : Metric}

/-- The multiple in which a blade goes over into another one. -/
noncomputable def imageFactor (m : Metric) (blade image : Nat) : Rat :=
  m.framed (single blade (1 : Rat)) image

/-- A value on a blade goes over into its multiples. -/
theorem framed_single_apply {M : Type} [AddCommGroup M] [Module Rat M] (blade image : Nat) (x : M) :
    m.framed (single blade x) image = m.imageFactor blade image • x := by
  -- An image adds to the blade that it lies on, and to no other one.
  rw [imageFactor, framed, framed, frame_single, frame_single]
  induction m.images m.toDiagonal blade with
  | nil => simp
  | cons first rest ih =>
    simp only [List.map_cons, List.sum_cons, Finsupp.add_apply, Finsupp.smul_apply, ih, add_smul]
    by_cases same : first.1 = image
    · simp [same]
    · simp [single_eq_of_ne' same]

/-- Every blade is among its images. -/
theorem imageFactor_self_ne_zero (m : Metric) (blade : Nat) : m.imageFactor blade blade ≠ 0 := by
  rw [imageFactor, framed]
  cases diagonal : m.isDiagonal with
  | true => simp [(matrices_of_diagonal diagonal).1, frame_identity]
  | false =>
    -- The change of basis keeps a multiple of a blade, which is not zero for any metric.
    have own : m.toDiagonal.own (blade.testBit m.pair.1) ≠ 0 ∧ m.toDiagonal.det ≠ 0 := by
      cases m <;> cases blade.testBit _ <;>
        norm_num [toDiagonal, PairMatrix.own, PairMatrix.det, PairMatrix.identity]
    rcases pair_cases m blade with ⟨low, high⟩ | ⟨low, high⟩ | one
    · simp [frame_none _ low high]
    · simpa [frame_both _ low high] using own.2
    · have apart : blade ≠ m.swapped blade := fun same => by
        have exchanged := testBit_swapped_low diagonal blade
        rw [← same] at exchanged
        simp at exchanged
      simpa [frame_one _ one, single_eq_of_ne apart] using own.1

/-- A blade has no other images unless the pair is null. -/
theorem image_eq (same : m.toDiagonal = .identity) {blade image : Nat}
    (factor : m.imageFactor blade image ≠ 0) : image = blade := by
  rw [imageFactor, framed, same, frame_identity] at factor
  by_contra other
  exact factor (single_eq_of_ne other)

/-- Images of a blade of the space lie in the space. -/
theorem image_lt {blade image : Nat} (inside : blade < m.dim)
    (factor : m.imageFactor blade image ≠ 0) : image < m.dim := by
  have inSpace := framed_mem (single_mem_spaceValues inside (1 : Rat))
  exact (mem_supported Rat _).mp inSpace (mem_support_iff.mpr factor)

/-- Images of a blade have its grade. -/
theorem grade_image {blade image : Nat} (factor : m.imageFactor blade image ≠ 0) :
    Blade.grade image = Blade.grade blade := by
  -- The part of this grade is kept, before and after the change of basis.
  let f : Nat → Rat := fun e => if Blade.grade e = Blade.grade blade then 1 else 0
  have gradewise : Gradewise f := fun a b same => by simp only [f, same]
  have commutes : m.framed (bladewise f (single blade (1 : Rat))) =
      bladewise f (m.framed (single blade 1)) := frame_bladewise gradewise _
  have kept := congrFun (congrArg DFunLike.coe commutes) image
  rw [bladewise_single, bladewise_apply, show f blade = 1 from if_pos rfl, one_smul] at kept
  by_contra other
  rw [show f image = 0 from if_neg other, zero_smul] at kept
  exact factor kept

/-- The image of a term has some powers on a blade exactly if the blade is an image of that of the
term, and the powers are those of one of its monomials. -/
theorem Changed.exists_entry {k : Nat} {s : Term} {a : Multivector}
    (canonical : Multivector.Canonical { terms := [s] })
    (image : m.Changed m.toDiagonal k { terms := [s] } a) (blade : Nat) (powers : List Power) :
    (∃ e ∈ a.entries, e.element = blade ∧ e.monomial.powers = powers) ↔
      m.imageFactor s.element blade ≠ 0 ∧ ∃ x ∈ s.monomials, x.powers = powers := by
  -- The term has monomials on its own blade only.
  have own : (∃ e ∈ s.entries, e.element = s.element ∧ e.monomial.powers = powers) ↔
      ∃ x ∈ s.monomials, x.powers = powers := by
    simp [Term.entries]
  -- So the question is about values, where the change of basis multiplies by the factor of the image.
  have whole := Reading.free.weightedSum_term s.element s.monomials
  rw [← own, ← Multivector.entries_singleton, ← canonical.coordinate_ne_zero,
    ← image.inSpace.canonical.coordinate_ne_zero, image.value Reading.free, Reading.read,
    Multivector.entries_singleton, whole]
  simp only [Reading.coordinate, LinearMap.comp_apply, lapply_apply, single_eq_same]
  rw [← framed, framed_single_apply, Finsupp.smul_apply, smul_eq_mul, mul_ne_zero_iff]

end Metric

end Clifford
