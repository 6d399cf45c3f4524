import Clifford.Proofs.Multivector.Frame

/-! Round trips between the working and the orthogonal basis: inverse changes of basis undo each other
term by term, whatever blades a multivector holds and whatever function it defers. -/

namespace Clifford

namespace Multivector

variable {a : Multivector}

/-- All blades of a multivector fit in some width, which may be taken beyond a given one. -/
theorem exists_width (a : Multivector) (least : Nat) :
    ∃ width, least ≤ width ∧ ∀ t ∈ a.terms, t.element < 2 ^ width := by
  refine ⟨least + a.elements.sum, Nat.le_add_right _ _, fun t member => ?_⟩
  have bounded : t.element ≤ a.elements.sum := List.le_sum_of_mem (List.mem_map_of_mem member)
  calc t.element < 2 ^ t.element := Nat.lt_two_pow_self
    _ ≤ 2 ^ (least + a.elements.sum) := Nat.pow_le_pow_right (by decide) (by omega)

end Multivector

namespace Metric

variable {m : Metric} {first second : PairMatrix}

/-- A change of basis is undone by the change with the inverse matrix. -/
theorem changeBasis_changeBasis (marked : m.isDiagonal = false) (halvesFirst : first.Halves)
    (halvesSecond : second.Halves) (inverse : second.comp first = .identity) {a : Multivector}
    (canonical : a.Canonical) (dyadic : DyadicEntries 7 a.entries) :
    (do m.changeBasis second (← m.changeBasis first a)) = .ok a := by
  obtain ⟨width, wide, bounded⟩ := a.exists_width m.n
  -- Changes of basis exchange vectors of the space and leave all others alone.
  have closed (matrix : PairMatrix) (blade : Nat) (small : blade < 2 ^ width)
      (image : Nat × Rat) (inside : image ∈ m.images matrix blade) : image.1 < 2 ^ width :=
    images_lt marked wide small inside
  have within : a.Over (2 ^ width) 7 := ⟨canonical, bounded, dyadic⟩
  -- Each change may halve the coefficients once more, and both stay below the threshold of the gate.
  obtain ⟨b, changed, withinB, deferredB, -, valueB⟩ :=
    exists_changeBasis_within halvesFirst (closed first) within (by decide)
  obtain ⟨c, restored, withinC, deferredC, -, valueC⟩ :=
    exists_changeBasis_within halvesSecond (closed second) withinB (by decide)
  have total : Reading.free.read c = Reading.free.read a := by
    rw [valueC, valueB, frame_frame marked, inverse, frame_identity]
  -- Canonical multivectors with the same formal total have the same terms.
  have terms : c.terms = a.terms := Reading.freeProbe.terms_eq withinC.canonical canonical
    (fun _ _ => trivial) (fun _ _ => trivial) total
  -- The deferred function and its multiplier are passed on by both changes.
  have same : c = a := by
    obtain ⟨op, opScale⟩ := deferredC
    rw [deferredB.1] at op
    rw [deferredB.2] at opScale
    obtain ⟨_, _, _⟩ := a
    obtain ⟨_, _, _⟩ := c
    simp_all
  rw [changed, Result.ok_bind, restored, same]

/-- Every canonical multivector goes over to the orthogonal basis and back, and to the working basis
and back, with its deferred function and the multiplier of that. -/
theorem basis_round_trip (m : Metric) {a : Multivector} (canonical : a.Canonical)
    (small : ∀ e ∈ a.entries, e.monomial.coefficient.den ∣ 2 ^ 7) :
    (do m.undiagonalize (← m.diagonalize a)) = .ok a ∧
      (do m.diagonalize (← m.undiagonalize a)) = .ok a := by
  have dyadic : DyadicEntries 7 a.entries := fun e inside => .of_den_dvd (small e inside)
  cases diagonal : m.isDiagonal with
  | true =>
    -- There is only one basis.
    have stay : m.diagonalize a = .ok a ∧ m.undiagonalize a = .ok a := by
      simp only [diagonalize, undiagonalize, diagonal, if_pos, and_self]
    exact ⟨by rw [stay.1, Result.ok_bind, stay.2], by rw [stay.2, Result.ok_bind, stay.1]⟩
  | false =>
    have change (b : Multivector) : m.diagonalize b = m.changeBasis m.toDiagonal b ∧
        m.undiagonalize b = m.changeBasis m.toWorking b := by
      simp [diagonalize, undiagonalize, diagonal]
    simp only [change]
    exact ⟨changeBasis_changeBasis diagonal m.halves_toDiagonal m.halves_toWorking
        m.toWorking_comp_toDiagonal canonical dyadic,
      changeBasis_changeBasis diagonal m.halves_toWorking m.halves_toDiagonal
        m.toDiagonal_comp_toWorking canonical dyadic⟩

/-- The multivector `7/128 * x² * e_o - 3 * e_inf + y * e_o ∧ e_inf` under a scaled square root goes over to
the orthogonal basis of a conformal plane and back. -/
theorem basis_round_trip_conformal :
    let m : Metric := .null ⟨3, 1, 0, by decide⟩ (by decide) (by decide)
    let a : Multivector := {
      terms := [⟨4, [⟨7 / 128, [⟨0, 2⟩]⟩]⟩, ⟨8, [⟨-3, []⟩]⟩, ⟨12, [⟨1, [⟨1, 1⟩]⟩]⟩]
      op := .sqrt
      opScale := 2 / 3 }
    (a.Canonical ∧ ∀ e ∈ a.entries, e.monomial.coefficient.den ∣ 2 ^ 7) ∧
      (do m.undiagonalize (← m.diagonalize a)) = .ok a ∧
      (do m.diagonalize (← m.undiagonalize a)) = .ok a := by
  intro m a
  have canonical : a.Canonical := by decide +kernel
  have small : ∀ e ∈ a.entries, e.monomial.coefficient.den ∣ 2 ^ 7 := by decide +kernel
  exact ⟨⟨canonical, small⟩, basis_round_trip m canonical small⟩

end Metric

end Clifford
