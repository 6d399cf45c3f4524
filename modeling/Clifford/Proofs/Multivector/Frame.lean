import Clifford.Multivector.Frame
import Clifford.Proofs.Metric.Pair
import Clifford.Proofs.Multivector.Product

/-! Changes of basis: they are linear maps on the values of multivectors, undo each other, and always
return. -/

namespace Clifford

open Finsupp

namespace PairMatrix

/-- The exact determinant. -/
def det (matrix : PairMatrix) : Rat :=
  matrix.lowLow * matrix.highHigh - matrix.lowHigh * matrix.highLow

/-- One change of the pair after another. -/
def comp (second first : PairMatrix) : PairMatrix where
  lowLow := first.lowLow * second.lowLow + first.lowHigh * second.highLow
  lowHigh := first.lowLow * second.lowHigh + first.lowHigh * second.highHigh
  highLow := first.highLow * second.lowLow + first.highHigh * second.highLow
  highHigh := first.highLow * second.lowHigh + first.highHigh * second.highHigh

/-- The multiple in which a vector of the pair goes over into itself. -/
def own (matrix : PairMatrix) (low : Bool) : Rat :=
  bif low then matrix.lowLow else matrix.highHigh

/-- The multiple in which a vector of the pair goes over into the other one. -/
def other (matrix : PairMatrix) (low : Bool) : Rat :=
  bif low then matrix.lowHigh else matrix.highLow

/-- The determinant does not depend on which vector comes first. -/
theorem det_eq (matrix : PairMatrix) (low : Bool) :
    matrix.det = matrix.own low * matrix.own (!low) - matrix.other low * matrix.other (!low) := by
  cases low <;> simp only [det, own, other, cond_true, cond_false, Bool.not_true, Bool.not_false]
  ring

/-- A vector goes over into itself directly or through the other one. -/
theorem own_comp (second first : PairMatrix) (low : Bool) :
    (second.comp first).own low =
      first.own low * second.own low + first.other low * second.other (!low) := by
  cases low <;> simp only [comp, own, other, cond_true, cond_false, Bool.not_true, Bool.not_false]
  ring

/-- A vector goes over into the other one before or after it stays. -/
theorem other_comp (second first : PairMatrix) (low : Bool) :
    (second.comp first).other low =
      first.own low * second.other low + first.other low * second.own (!low) := by
  cases low <;> simp only [comp, own, other, cond_true, cond_false, Bool.not_true, Bool.not_false]
  ring

/-- Determinants multiply. -/
theorem det_comp (second first : PairMatrix) : (second.comp first).det = second.det * first.det := by
  simp only [det, comp]
  ring

/-- Entries and determinant are halves. -/
structure Halves (matrix : PairMatrix) : Prop where
  lowLow : Dyadic 1 matrix.lowLow
  lowHigh : Dyadic 1 matrix.lowHigh
  highLow : Dyadic 1 matrix.highLow
  highHigh : Dyadic 1 matrix.highHigh
  det : Dyadic 1 matrix.det

/-- Determinants of halves are exact. -/
theorem determinant_eq {matrix : PairMatrix} (halves : matrix.Halves) :
    matrix.determinant = .ok matrix.det := by
  -- Both products of two halves are quarters, which the gate keeps.
  rw [determinant, gatedMul_eq_ok halves.lowLow halves.highHigh (by decide), Result.ok_bind,
    gatedMul_eq_ok halves.lowHigh halves.highLow (by decide), Result.ok_bind,
    gatedSub_eq_ok (halves.lowLow.mul halves.highHigh) (halves.lowHigh.mul halves.highLow)
      (by decide), det]

end PairMatrix

namespace Metric

variable (m : Metric)

/-- The changes of basis of every metric have halves as entries. -/
theorem halves_toDiagonal : m.toDiagonal.Halves := by
  -- Only a marked pair has entries other than those of the identity.
  cases m with
  | null => exact ⟨⟨-1, by norm_num [toDiagonal]⟩, ⟨1, by norm_num [toDiagonal]⟩,
      ⟨2, by norm_num [toDiagonal]⟩, ⟨2, by norm_num [toDiagonal]⟩,
      ⟨-2, by norm_num [toDiagonal, PairMatrix.det]⟩⟩
  | _ => exact ⟨.one 1, .zero 1, .zero 1, .one 1,
      ⟨2, by norm_num [toDiagonal, PairMatrix.det, PairMatrix.identity]⟩⟩

/-- The changes back have halves as entries as well. -/
theorem halves_toWorking : m.toWorking.Halves := by
  cases m with
  | null => exact ⟨⟨-2, by norm_num [toWorking]⟩, ⟨1, by norm_num [toWorking]⟩,
      ⟨2, by norm_num [toWorking]⟩, ⟨1, by norm_num [toWorking]⟩,
      ⟨-2, by norm_num [toWorking, PairMatrix.det]⟩⟩
  | _ => exact ⟨.one 1, .zero 1, .zero 1, .one 1,
      ⟨2, by norm_num [toWorking, PairMatrix.det, PairMatrix.identity]⟩⟩

/-- Changing to the orthogonal basis and back changes nothing. -/
theorem toWorking_comp_toDiagonal : m.toWorking.comp m.toDiagonal = .identity := by
  cases m <;> norm_num [toWorking, toDiagonal, PairMatrix.comp, PairMatrix.identity]

/-- Changing to the working basis and back changes nothing. -/
theorem toDiagonal_comp_toWorking : m.toDiagonal.comp m.toWorking = .identity := by
  cases m <;> norm_num [toWorking, toDiagonal, PairMatrix.comp, PairMatrix.identity]

/-- The images of a blade with an exact determinant. -/
def images (matrix : PairMatrix) (blade : Nat) : List (Nat × Rat) :=
  let low := Blade.vector m.pair.1
  let high := Blade.vector m.pair.2
  match blade.testBit m.pair.1, blade.testBit m.pair.2 with
  | false, false => [(blade, 1)]
  | true, false => [(blade, matrix.lowLow), (blade ^^^ low ^^^ high, matrix.lowHigh)]
  | false, true => [(blade ^^^ high ^^^ low, matrix.highLow), (blade, matrix.highHigh)]
  | true, true => [(blade, matrix.det)]

variable {m} {matrix : PairMatrix} {k : Nat}

/-- The images of a blade are exact when the entries are halves. -/
theorem pairImages_eq (halves : matrix.Halves) (blade : Nat) :
    m.pairImages matrix blade = .ok (m.images matrix blade) := by
  -- What is computed differs from the images in the determinant alone.
  rw [pairImages, images, PairMatrix.determinant_eq halves]
  cases blade.testBit m.pair.1 <;> cases blade.testBit m.pair.2 <;> rfl

/-- The factors of the images are halves. -/
theorem dyadic_images (halves : matrix.Halves) {blade : Nat} {image : Nat × Rat}
    (inside : image ∈ m.images matrix blade) : Dyadic 1 image.2 := by
  rw [images] at inside
  split at inside
  · obtain rfl := List.mem_singleton.mp inside
    exact .one 1
  · rcases List.mem_pair.mp inside with rfl | rfl
    · exact halves.lowLow
    · exact halves.lowHigh
  · rcases List.mem_pair.mp inside with rfl | rfl
    · exact halves.highLow
    · exact halves.highHigh
  · obtain rfl := List.mem_singleton.mp inside
    exact halves.det

/-- The images of a blade are no wider than the blade and the space. -/
theorem images_lt (marked : m.isDiagonal = false) {width : Nat} (wide : m.n ≤ width) {blade : Nat}
    (bounded : blade < 2 ^ width) {image : Nat × Rat} (inside : image ∈ m.images matrix blade) :
    image.1 < 2 ^ width := by
  -- Both vectors of the pair lie in the space, so what is exchanged for one of them does.
  have two := two_le_of_marked marked
  have vector_lt (index : Nat) (small : index < m.n) : Blade.vector index < 2 ^ width := by
    rw [Blade.vector_eq]
    exact Nat.pow_lt_pow_right (by decide) (by omega)
  have low := vector_lt m.pair.1 (by rw [pair]; omega)
  have high := vector_lt m.pair.2 (by rw [pair]; omega)
  rw [images] at inside
  split at inside
  · obtain rfl := List.mem_singleton.mp inside
    exact bounded
  · rcases List.mem_pair.mp inside with rfl | rfl
    · exact bounded
    · exact Nat.xor_lt_two_pow (Nat.xor_lt_two_pow bounded low) high
  · rcases List.mem_pair.mp inside with rfl | rfl
    · exact Nat.xor_lt_two_pow (Nat.xor_lt_two_pow bounded high) low
    · exact bounded
  · obtain rfl := List.mem_singleton.mp inside
    exact bounded

/-- The images of a blade of the space lie in the space. -/
theorem images_lt_dim (marked : m.isDiagonal = false) {blade : Nat} (bounded : blade < m.dim)
    {image : Nat × Rat} (inside : image ∈ m.images matrix blade) : image.1 < m.dim := by
  rw [m.dim_eq_two_pow] at bounded ⊢
  exact images_lt marked le_rfl bounded inside

/-- The images of all monomials of a term, with exact coefficients. -/
def copies (m : Metric) (matrix : PairMatrix) (t : Term) : List Entry :=
  ((m.images matrix t.element).filter (·.2 ≠ 0)).flatMap fun image =>
    t.monomials.map fun mono => Entry.of image.1 (mono.coefficient * image.2) mono.powers

/-- The images of a term are exact when the entries are halves. -/
theorem termImages_eq (halves : matrix.Halves) (small : k + 1 ≤ exactBits) {t : Term}
    (dyadic : DyadicEntries k t.entries) : m.termImages matrix t = .ok (m.copies matrix t) := by
  -- Every coefficient is multiplied by a half at most, which is exact.
  rw [termImages, pairImages_eq halves, Result.ok_bind, Result.mapM_ok (g := fun image =>
    t.monomials.map fun mono => Entry.of image.1 (mono.coefficient * image.2) mono.powers)]
  · rfl
  · intro image inside
    refine Result.mapM_ok fun mono member => ?_
    have coefficient : Dyadic k mono.coefficient :=
      dyadic ⟨t.element, mono⟩ (List.mem_map_of_mem member)
    have factor := dyadic_images halves (List.mem_filter.mp inside).1
    rw [gatedMul_eq_ok coefficient factor small]
    rfl

/-- Where an image of a term comes from. -/
theorem mem_copies {t : Term} {e : Entry} (inside : e ∈ m.copies matrix t) :
    ∃ image ∈ m.images matrix t.element, ∃ mono ∈ t.monomials,
      e = Entry.of image.1 (mono.coefficient * image.2) mono.powers := by
  obtain ⟨image, kept, copy⟩ := List.mem_flatMap.mp inside
  obtain ⟨mono, member, rfl⟩ := List.mem_map.mp copy
  exact ⟨image, (List.mem_filter.mp kept).1, mono, member, rfl⟩

section Linear

variable {M : Type} [AddCommGroup M] [Module Rat M]

variable (m matrix) in
/-- The linear map that replaces every blade by its images. -/
noncomputable def frame : (Nat →₀ M) →ₗ[Rat] (Nat →₀ M) :=
  lsum Rat fun blade => ((m.images matrix blade).map fun image => image.2 • lsingle image.1).sum

/-- The images of a value on a single blade. -/
theorem frame_single (blade : Nat) (x : M) :
    m.frame matrix (single blade x) =
      ((m.images matrix blade).map fun image => image.2 • single image.1 x).sum := by
  rw [frame, lsum_single]
  induction m.images matrix blade with
  | nil => rfl
  | cons image rest ih => simp only [List.map_cons, List.sum_cons, LinearMap.add_apply, ih,
      LinearMap.smul_apply, lsingle_apply]

/-- The images of a term have the image of its value. -/
theorem weightedSum_copies (r : Reading M) (t : Term) :
    weightedSum r.weight (m.copies matrix t) = m.frame matrix (weightedSum r.weight t.entries) := by
  -- All monomials of a term lie on one blade, so its value does.
  have whole := r.weightedSum_term t.element t.monomials
  rw [whole, frame_single, copies]
  have copied (image : Nat × Rat) : weightedSum r.weight (t.monomials.map fun mono =>
      Entry.of image.1 (mono.coefficient * image.2) mono.powers) =
        image.2 • single image.1 (r.sum t.monomials) := by
    induction t.monomials with
    | nil => simp [Reading.sum]
    | cons mono rest ih =>
      rw [List.map_cons, weightedSum_cons, ih]
      simp [Entry.of, Reading.weight, Reading.sum, mul_smul, smul_comm mono.coefficient]
  induction m.images matrix t.element with
  | nil => rfl
  | cons image rest ih =>
    -- Images with a factor of zero are left out, and add nothing.
    rw [List.filter_cons, List.map_cons, List.sum_cons]
    split
    · rw [List.flatMap_cons, weightedSum_append, copied, ih]
    · rename_i zero
      rw [ih, show image.2 = 0 by simpa using zero, zero_smul, zero_add]

section Parts

variable {blade : Nat} (x : M)

/-- A blade apart from the pair does not change. -/
theorem frame_none (low : blade.testBit m.pair.1 = false) (high : blade.testBit m.pair.2 = false) :
    m.frame matrix (single blade x) = single blade x := by
  simp [frame_single, images, low, high]

/-- A blade with one vector of the pair goes over into both. -/
theorem frame_one (one : blade.testBit m.pair.1 ≠ blade.testBit m.pair.2) :
    m.frame matrix (single blade x) =
      matrix.own (blade.testBit m.pair.1) • single blade x +
        matrix.other (blade.testBit m.pair.1) • single (m.swapped blade) x := by
  rw [frame_single, images, swapped]
  -- The bit of one vector of the pair tells which one the blade has.
  cases low : blade.testBit m.pair.1 <;> cases high : blade.testBit m.pair.2
  · simp [low, high] at one
  · simp only [List.map_cons, List.map_nil, List.sum_cons, List.sum_nil, add_zero, PairMatrix.own,
      PairMatrix.other, cond_false]
    rw [add_comm, Nat.xor_right_comm]
  · simp only [List.map_cons, List.map_nil, List.sum_cons, List.sum_nil, add_zero, PairMatrix.own,
      PairMatrix.other, cond_true]
  · simp [low, high] at one

/-- A blade with both vectors of the pair is multiplied by the determinant. -/
theorem frame_both (low : blade.testBit m.pair.1 = true) (high : blade.testBit m.pair.2 = true) :
    m.frame matrix (single blade x) = matrix.det • single blade x := by
  simp [frame_single, images, low, high]

end Parts

/-- A matrix that changes nothing leaves every value. -/
theorem frame_identity (x : Nat →₀ M) : m.frame .identity x = x := by
  -- It is enough to compare the maps on single blades.
  have same : m.frame (M := M) .identity = LinearMap.id := by
    ext blade v : 2
    simp only [LinearMap.comp_apply, lsingle_apply, frame_single, images, LinearMap.id_apply]
    split <;> simp [PairMatrix.identity, PairMatrix.det]
  rw [same, LinearMap.id_apply]

/-- Changes of basis compose as their matrices do. -/
theorem frame_frame (marked : m.isDiagonal = false) (second first : PairMatrix) (x : Nat →₀ M) :
    m.frame second (m.frame first x) = m.frame (second.comp first) x := by
  have same : (m.frame second).comp (m.frame (M := M) first) = m.frame (second.comp first) := by
    ext blade v : 2
    simp only [LinearMap.comp_apply, lsingle_apply]
    rcases pair_cases m blade with ⟨low, high⟩ | ⟨low, high⟩ | one
    · simp only [frame_none _ low high]
    · simp only [frame_both _ low high, map_smul, PairMatrix.det_comp, smul_smul, mul_comm]
    · -- A vector of the pair goes over into both, and from each into both again.
      simp only [frame_one _ one, map_add, map_smul, frame_one _ (one_swapped marked one),
        swapped_swapped, testBit_swapped_low marked, PairMatrix.own_comp, PairMatrix.other_comp]
      module
  rw [← same, LinearMap.comp_apply]

end Linear

/-- A multivector that another one changes to. -/
structure Changed (m : Metric) (matrix : PairMatrix) (k : Nat) (a b : Multivector) : Prop where
  inSpace : b.Over m.dim k
  deferred : b.op = a.op ∧ b.opScale = a.opScale
  source : ∀ e ∈ b.entries, ∃ f ∈ a.entries, f.monomial.powers = e.monomial.powers
  value : ∀ {M : Type} [AddCommGroup M] [Module Rat M] (r : Reading M),
    r.read b = m.frame matrix (r.read a)

/-- Every multivector changes its basis within bounds that hold for the images of its blades. -/
theorem exists_changeBasis_within (halves : matrix.Halves) {dim : Nat}
    (closed : ∀ blade < dim, ∀ image ∈ m.images matrix blade, image.1 < dim) {a : Multivector}
    (within : a.Over dim k) (small : k + 1 ≤ exactBits) :
    ∃ b, m.changeBasis matrix a = .ok b ∧ b.Over dim (k + 1) ∧
      (b.op = a.op ∧ b.opScale = a.opScale) ∧
      (∀ e ∈ b.entries, ∃ f ∈ a.entries, f.monomial.powers = e.monomial.powers) ∧
      ∀ {M : Type} [AddCommGroup M] [Module Rat M] (r : Reading M),
        r.read b = m.frame matrix (r.read a) := by
  have images : a.terms.mapM (m.termImages matrix) = .ok (a.terms.map (m.copies matrix)) :=
    Result.mapM_ok fun t member => termImages_eq halves small (within.dyadic_term member)
  -- Every copy lies on an image of the blade of its term and keeps the powers.
  have source {e : Entry} (inside : e ∈ (a.terms.map (m.copies matrix)).flatten) :
      ∃ f ∈ a.entries, f.monomial.powers = e.monomial.powers ∧ e.element < dim ∧
        Dyadic (k + 1) e.monomial.coefficient := by
    rw [← List.flatMap_def] at inside
    obtain ⟨t, member, copy⟩ := List.mem_flatMap.mp inside
    obtain ⟨image, given, mono, monomial, rfl⟩ := mem_copies copy
    have entry := List.mem_map_of_mem (f := (⟨t.element, ·⟩ : Monomial → Entry)) monomial
    exact ⟨⟨t.element, mono⟩, Multivector.mem_entries member entry, rfl,
      closed t.element (within.bounded t member) image given,
      (within.dyadic_term member _ entry).mul (dyadic_images halves given)⟩
  -- Collecting the copies keeps their room, their coefficients and their powers.
  obtain ⟨b, collated, within', deferred, kept, value⟩ := collate_over dim small
    (fun e inside => by
      obtain ⟨f, -, -, bounded, -⟩ := source inside
      exact bounded)
    (fun e inside => by
      obtain ⟨f, -, -, -, coefficient⟩ := source inside
      exact coefficient)
    (fun e inside => by
      obtain ⟨f, given, powers, -⟩ := source inside
      exact powers ▸ (within.canonical.entry given).increasing)
    (fun e inside => by
      obtain ⟨f, given, powers, -⟩ := source inside
      exact powers ▸ (within.canonical.entry given).keyed) a.op a.opScale
  refine ⟨b, by rw [changeBasis, images, Result.ok_bind]; exact collated, within', deferred,
    fun e inside => ?_, fun r => ?_⟩
  · obtain ⟨f, given, -, powers⟩ := kept e inside
    obtain ⟨g, old, same, -⟩ := source given
    exact ⟨g, old, same.trans powers⟩
  · rw [value, weightedSum_flatten, Reading.read, Multivector.entries]
    -- The total of the copies is the sum over the terms of what the change of basis gives for each.
    induction a.terms with
    | nil => simp
    | cons t rest ih => simp only [List.map_cons, List.sum_cons, List.flatMap_cons, weightedSum_append,
        map_add, ih, weightedSum_copies]

/-- Every multivector of a space changes its basis. -/
theorem exists_changeBasis (marked : m.isDiagonal = false) (halves : matrix.Halves)
    {a : Multivector} (inSpace : a.Over m.dim k) (small : k + 1 ≤ exactBits) :
    ∃ b, m.changeBasis matrix a = .ok b ∧ m.Changed matrix (k + 1) a b := by
  obtain ⟨b, changed, inSpace', deferred, source, value⟩ := exists_changeBasis_within halves
    (fun blade bounded image inside => images_lt_dim marked bounded inside) inSpace small
  exact ⟨b, changed, inSpace', deferred, source, value⟩

/-- A metric over an orthogonal basis has no other basis. -/
theorem matrices_of_diagonal (diagonal : m.isDiagonal = true) :
    m.toDiagonal = .identity ∧ m.toWorking = .identity := by
  obtain ⟨s, rfl⟩ := exists_diagonal diagonal
  exact ⟨rfl, rfl⟩

/-- Every multivector of a space changes its basis, if there is another one. -/
theorem exists_change (halves : matrix.Halves) (none : m.isDiagonal = true → matrix = .identity)
    {a : Multivector} (inSpace : a.Over m.dim k) (small : k + 1 ≤ exactBits) :
    ∃ b, (if m.isDiagonal then .ok a else m.changeBasis matrix a) = .ok b ∧
      m.Changed matrix (k + 1) a b := by
  split
  · rename_i diagonal
    refine ⟨a, rfl, inSpace.mono (by omega), ⟨rfl, rfl⟩, fun e inside => ⟨e, inside, rfl⟩,
      fun r => ?_⟩
    rw [none diagonal, frame_identity]
  · rename_i marked
    exact exists_changeBasis (by simpa using marked) halves inSpace small

/-- Every multivector of a space can be written over the orthogonal basis. -/
theorem exists_diagonalize {a : Multivector} (inSpace : a.Over m.dim k) (small : k + 1 ≤ exactBits) :
    ∃ b, m.diagonalize a = .ok b ∧ m.Changed m.toDiagonal (k + 1) a b :=
  exists_change m.halves_toDiagonal (fun diagonal => (matrices_of_diagonal diagonal).1) inSpace small

/-- Every multivector of a space can be written over the working basis. -/
theorem exists_undiagonalize {a : Multivector} (inSpace : a.Over m.dim k)
    (small : k + 1 ≤ exactBits) :
    ∃ b, m.undiagonalize a = .ok b ∧ m.Changed m.toWorking (k + 1) a b :=
  exists_change m.halves_toWorking (fun diagonal => (matrices_of_diagonal diagonal).2) inSpace small

/-- A value over the orthogonal basis. -/
noncomputable def framed {M : Type} [AddCommGroup M] [Module Rat M] (m : Metric) :
    (Nat →₀ M) →ₗ[Rat] (Nat →₀ M) := m.frame m.toDiagonal

/-- A value over the working basis. -/
noncomputable def unframed {M : Type} [AddCommGroup M] [Module Rat M] (m : Metric) :
    (Nat →₀ M) →ₗ[Rat] (Nat →₀ M) := m.frame m.toWorking

section Inverse

variable {M : Type} [AddCommGroup M] [Module Rat M] (x : Nat →₀ M)

/-- Changes of basis that are inverse to each other leave every value. -/
theorem frame_inverse {second first : PairMatrix} (inverse : second.comp first = .identity)
    (none : m.isDiagonal = true → second = .identity ∧ first = .identity) :
    m.frame second (m.frame first x) = x := by
  cases diagonal : m.isDiagonal with
  | true =>
    -- Without another basis both maps are the identity.
    obtain ⟨rfl, rfl⟩ := none diagonal
    rw [frame_identity, frame_identity]
  | false => rw [frame_frame diagonal, inverse, frame_identity]

/-- A value goes over to the orthogonal basis and back. -/
@[simp] theorem unframed_framed : m.unframed (m.framed x) = x :=
  frame_inverse x m.toWorking_comp_toDiagonal fun diagonal => (matrices_of_diagonal diagonal).symm

/-- A value goes over to the working basis and back. -/
@[simp] theorem framed_unframed : m.framed (m.unframed x) = x :=
  frame_inverse x m.toDiagonal_comp_toWorking fun diagonal => matrices_of_diagonal diagonal

end Inverse

end Metric

end Clifford
