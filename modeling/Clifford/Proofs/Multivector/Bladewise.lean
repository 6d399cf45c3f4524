import Clifford.Proofs.Blade.Grade
import Clifford.Proofs.Multivector.Frame

/-! Bladewise maps: linear maps that multiply the value on every blade by a factor of the blade, as
reversals and parts of a grade do. -/

namespace Clifford

open Finsupp

section Values

variable {M : Type} [AddCommGroup M] [Module Rat M]

/-- The values on the blades of a space. -/
def spaceValues (M : Type) [AddCommGroup M] [Module Rat M] (dim : Nat) : Submodule Rat (Nat →₀ M) :=
  supported M Rat (Set.Iio dim)

variable {dim : Nat}

/-- A value on a single blade of a space is one of its values. -/
theorem single_mem_spaceValues {blade : Nat} (inside : blade < dim) (x : M) :
    single blade x ∈ spaceValues M dim := single_mem_supported Rat x inside

/-- What holds of nothing, of sums and of every single blade of a space holds of its values. -/
theorem spaceValues_induction {p : (Nat →₀ M) → Prop} (zero : p 0)
    (add : ∀ x y, p x → p y → p (x + y)) (single : ∀ blade < dim, ∀ x : M, p (single blade x))
    {x : Nat →₀ M} (inSpace : x ∈ spaceValues M dim) : p x := by
  -- A value is the sum of its single blades, all of which lie in the space.
  rw [← sum_single x]
  refine Finset.sum_induction _ p add zero fun blade inside => single blade ?_ _
  exact (mem_supported Rat x).mp inSpace inside

section Linear

variable {N : Type} [AddCommGroup N] [Module Rat N]

/-- A linear map takes the values of a space into a submodule if it does so on every single blade. -/
theorem map_mem_of_single {L : (Nat →₀ M) →ₗ[Rat] N} {p : Submodule Rat N}
    (onSingle : ∀ blade < dim, ∀ x : M, L (single blade x) ∈ p) {x : Nat →₀ M}
    (inSpace : x ∈ spaceValues M dim) : L x ∈ p := by
  refine spaceValues_induction (p := fun x => L x ∈ p) ?_ (fun x y left right => ?_) onSingle inSpace
  · rw [map_zero]
    exact zero_mem _
  · rw [map_add]
    exact add_mem left right

/-- A bilinear map takes the values of a space into a submodule if it does so on single blades. -/
theorem map₂_mem_of_single {B : (Nat →₀ M) →ₗ[Rat] (Nat →₀ M) →ₗ[Rat] N} {p : Submodule Rat N}
    (onSingle : ∀ a < dim, ∀ u : M, ∀ b < dim, ∀ v : M, B (single a u) (single b v) ∈ p)
    {x y : Nat →₀ M} (left : x ∈ spaceValues M dim) (right : y ∈ spaceValues M dim) : B x y ∈ p := by
  -- With a single blade on the left the map is linear in the right factor, and so also at `y`.
  refine map_mem_of_single (L := B.flip y) (fun a insideA u => ?_) left
  exact map_mem_of_single (onSingle a insideA u) right

/-- Linear maps that agree on every single blade of a space agree on its values. -/
theorem map_eq_of_single {L K : (Nat →₀ M) →ₗ[Rat] N}
    (onSingle : ∀ blade < dim, ∀ x : M, L (single blade x) = K (single blade x)) {x : Nat →₀ M}
    (inSpace : x ∈ spaceValues M dim) : L x = K x :=
  spaceValues_induction (p := fun x => L x = K x) (by rw [map_zero, map_zero])
    (fun x y left right => by rw [map_add, map_add, left, right]) onSingle inSpace

/-- Bilinear maps that agree on the single blades of a space agree on its values. -/
theorem map₂_eq_of_single {B B' : (Nat →₀ M) →ₗ[Rat] (Nat →₀ M) →ₗ[Rat] N}
    (onSingle : ∀ a < dim, ∀ u : M, ∀ b < dim, ∀ v : M,
      B (single a u) (single b v) = B' (single a u) (single b v)) {x y : Nat →₀ M}
    (left : x ∈ spaceValues M dim) (right : y ∈ spaceValues M dim) : B x y = B' x y := by
  refine map_eq_of_single (L := B.flip y) (K := B'.flip y) (fun a insideA u => ?_) left
  exact map_eq_of_single (onSingle a insideA u) right

end Linear

/-- The value of a multivector of a space is one of the values of the space. -/
theorem Reading.read_mem_spaceValues (r : Reading M) {k : Nat} {a : Multivector}
    (inSpace : a.Over dim k) : r.read a ∈ spaceValues M dim := by
  refine (mem_supported Rat _).mpr fun blade nonzero => ?_
  -- A blade with a value has a term.
  by_contra outside
  refine mem_support_iff.mp nonzero (r.read_of_absent fun present => outside ?_)
  obtain ⟨t, member, rfl⟩ := List.mem_map.mp present
  exact inSpace.bounded t member

/-- The linear map that multiplies the value on every blade by a factor of the blade. -/
noncomputable def bladewise (factor : Nat → Rat) : (Nat →₀ M) →ₗ[Rat] (Nat →₀ M) :=
  lsum Rat fun blade => factor blade • lsingle blade

variable {f g h : Nat → Rat}

/-- On a single blade a bladewise map is a multiple. -/
@[simp] theorem bladewise_single (blade : Nat) (x : M) :
    bladewise f (single blade x) = f blade • single blade x := by
  simp [bladewise]

/-- A bladewise map multiplies the value on every blade. -/
theorem bladewise_apply (x : Nat →₀ M) (blade : Nat) :
    bladewise f x blade = f blade • x blade := by
  -- Both sides are linear in the value.
  induction x using Finsupp.induction_linear with
  | zero => simp
  | add x y left right => rw [map_add, Finsupp.add_apply, left, right, Finsupp.add_apply, smul_add]
  | single b x =>
    rw [bladewise_single, Finsupp.smul_apply]
    by_cases same : b = blade
    · rw [same]
    · rw [single_eq_of_ne' same, smul_zero, smul_zero]

/-- A bladewise map takes the values of a space to values of the space. -/
theorem bladewise_mem {x : Nat →₀ M} (inSpace : x ∈ spaceValues M dim) :
    bladewise f x ∈ spaceValues M dim := by
  refine map_mem_of_single (fun blade inside x => ?_) inSpace
  rw [bladewise_single]
  exact Submodule.smul_mem _ _ (single_mem_spaceValues inside x)

/-- One bladewise map after another multiplies the factors. -/
theorem bladewise_bladewise (x : Nat →₀ M) :
    bladewise f (bladewise g x) = bladewise (fun blade => f blade * g blade) x := by
  -- On a single blade the factors are taken one after the other.
  induction x using Finsupp.induction_linear with
  | zero => simp
  | add x y left right => simp [left, right]
  | single blade x => simp [smul_smul]

/-- The same factor on every blade is a multiple. -/
theorem bladewise_const (q : Rat) (x : Nat →₀ M) : bladewise (fun _ => q) x = q • x := by
  ext blade
  rw [bladewise_apply, Finsupp.smul_apply]

/-- A bladewise map goes over to the factors of a product when its factors match the structure
constants. -/
theorem Reading.bladewise_twisted (r : Reading M) {s t : Nat → Nat → Int}
    (law : ∀ a < dim, ∀ b < dim, f (a ^^^ b) * s a b = g a * h b * t a b) {x y : Nat →₀ M}
    (left : x ∈ spaceValues M dim) (right : y ∈ spaceValues M dim) :
    bladewise f (r.twisted s x y) = r.twisted t (bladewise g x) (bladewise h y) := by
  -- Both sides are linear in either factor.
  rw [← LinearMap.compr₂_apply, ← LinearMap.compl₁₂_apply]
  refine map₂_eq_of_single (fun a insideA u b insideB v => ?_) left right
  simp only [LinearMap.compr₂_apply, LinearMap.compl₁₂_apply, bladewise_single, map_smul,
    LinearMap.smul_apply, r.twisted_single, smul_smul]
  rw [mul_comm, law a insideA b insideB, ← mul_assoc, mul_comm (h b)]

end Values

/-- A factor of blades that depends on their grade alone. -/
def Gradewise (f : Nat → Rat) : Prop := ∀ a b, Blade.grade a = Blade.grade b → f a = f b

namespace Metric

variable {M : Type} [AddCommGroup M] [Module Rat M] {m : Metric} {matrix : PairMatrix}

/-- A blade with the other vector of the pair has the same grade. -/
theorem grade_swapped {blade : Nat} (one : blade.testBit m.pair.1 ≠ blade.testBit m.pair.2) :
    Blade.grade (m.swapped blade) = Blade.grade blade := by
  -- One vector of the pair leaves the blade and the other one enters.
  rw [swapped]
  cases low : blade.testBit m.pair.1 with
  | true => exact Blade.grade_exchange low (by simpa [low] using one)
  | false =>
    rw [Nat.xor_right_comm]
    exact Blade.grade_exchange (by simpa [low] using one) low

/-- Changes of basis commute with bladewise maps that depend on the grade alone. -/
theorem frame_bladewise {f : Nat → Rat} (gradewise : Gradewise f) (x : Nat →₀ M) :
    m.frame matrix (bladewise f x) = bladewise f (m.frame matrix x) := by
  -- A change of basis keeps a blade or mixes it with another one of its grade.
  induction x using Finsupp.induction_linear with
  | zero => simp
  | add x y left right => simp [left, right]
  | single blade x =>
    rw [bladewise_single, map_smul]
    rcases pair_cases m blade with ⟨low, high⟩ | ⟨low, high⟩ | one
    · rw [frame_none x low high, bladewise_single]
    · rw [frame_both x low high, map_smul, bladewise_single, smul_comm]
    · rw [frame_one x one, map_add, map_smul, map_smul, bladewise_single, bladewise_single,
        gradewise _ _ (grade_swapped one), smul_add, smul_comm (f blade), smul_comm (f blade)]

/-- Changes of basis stay within the values of the space, where a space without a pair changes nothing. -/
theorem frame_mem (unpaired : m.isDiagonal = true → matrix = .identity) {x : Nat →₀ M}
    (inSpace : x ∈ spaceValues M m.dim) : m.frame matrix x ∈ spaceValues M m.dim := by
  cases diagonal : m.isDiagonal with
  | true => rwa [unpaired diagonal, frame_identity]
  | false =>
    -- A blade changes into multiples of blades of the space.
    refine map_mem_of_single (fun blade inside x => ?_) inSpace
    rw [frame_single]
    refine list_sum_mem fun y member => ?_
    obtain ⟨image, given, rfl⟩ := List.mem_map.mp member
    exact Submodule.smul_mem _ _ (single_mem_spaceValues (images_lt_dim diagonal inside given) x)

/-- Values over the orthogonal basis are values of the space. -/
theorem framed_mem {x : Nat →₀ M} (inSpace : x ∈ spaceValues M m.dim) :
    m.framed x ∈ spaceValues M m.dim :=
  frame_mem (fun diagonal => (matrices_of_diagonal diagonal).1) inSpace

/-- Values over the working basis are values of the space. -/
theorem unframed_mem {x : Nat →₀ M} (inSpace : x ∈ spaceValues M m.dim) :
    m.unframed x ∈ spaceValues M m.dim :=
  frame_mem (fun diagonal => (matrices_of_diagonal diagonal).2) inSpace

end Metric

namespace Reading

variable {M : Type} [AddCommGroup M] [Module Rat M] (r : Reading M) {m : Metric} {x y : Nat →₀ M}

/-- Twisted products of values of a space are values of the space. -/
theorem twisted_mem (factor : Nat → Nat → Int) (left : x ∈ spaceValues M m.dim)
    (right : y ∈ spaceValues M m.dim) : r.twisted factor x y ∈ spaceValues M m.dim := by
  -- On single blades the product lies on a blade of the space.
  refine map₂_mem_of_single (fun a insideA u b insideB v => ?_) left right
  rw [r.twisted_single]
  exact Submodule.smul_mem _ _ (single_mem_spaceValues (m.xor_lt_dim insideA insideB) _)

end Reading

end Clifford
