import Clifford.Proofs.Tensor.Broadcast

/-! Broadcasting in stages: entries that are repeated to a shape on the way to another one, and combined
there entry by entry, hold what they hold if they are repeated at once and combined behind that. -/

namespace Clifford.Tensor

variable {α β γ : Type} {source middle target : List Nat}

/-- Entries of a shape are determined by those at its indices. -/
theorem eq_of_index {xs ys : List α} (left : xs.length = count target) (right : ys.length = count target)
    (same : ∀ index, IsIndex index target → xs[offset target index]? = ys[offset target index]?) :
    xs = ys := by
  refine List.ext_getElem? fun k => ?_
  -- Every place of the shape is that of an index, and there are no others.
  by_cases inside : k < count target
  · obtain ⟨index, valid, rfl⟩ := exists_index inside
    exact same index valid
  · rw [List.getElem?_eq_none (by omega), List.getElem?_eq_none (by omega)]

/-- A size that fits a second one fits every third one that the second one fits. -/
theorem Fits.trans {m n r : Nat} (first : Fits m n) (second : Fits n r) : Fits m r := by
  rcases first with rfl | one
  · exact second
  · exact .inr one

/-- Shapes of one length that fit each other in turn. -/
theorem forall₂_fits_trans (first : List.Forall₂ Fits source middle)
    (second : List.Forall₂ Fits middle target) : List.Forall₂ Fits source target := by
  induction first generalizing target with
  | nil => exact second
  | cons fits _ ih =>
    cases second with
    | cons fits' rest => exact .cons (fits.trans fits') (ih rest)

/-- A position that is picked for a size on the way is picked for the size itself. -/
theorem zipWith_pick_pick (fits : List.Forall₂ Fits source middle) (index : List Nat) :
    List.zipWith pick source (List.zipWith pick middle index) = List.zipWith pick source index := by
  induction fits generalizing index with
  | nil => rfl
  | @cons m n _ _ first _ ih =>
    cases index with
    | nil => rfl
    | cons i index =>
      -- A dimension that is not repeated has the same size on the way.
      have own : pick m (pick n i) = pick m i := by
        rcases first with rfl | rfl
        · rw [pick, pick]
          split <;> rfl
        · rfl
      rw [List.zipWith_cons_cons, List.zipWith_cons_cons, List.zipWith_cons_cons, own, ih]

/-- Entries are repeated in two stages as they are repeated at once. -/
theorem repeatEntries_trans (first : List.Forall₂ Fits source middle)
    (second : List.Forall₂ Fits middle target) {entries : List α}
    (full : entries.length = count source) :
    repeatEntries middle target (repeatEntries source middle entries) =
      repeatEntries source target entries := by
  -- At an index, both hold the entry at the position that is picked for the first shape.
  have whole := forall₂_fits_trans first second
  have between := length_repeatEntries first full
  refine eq_of_index (length_repeatEntries second between) (length_repeatEntries whole full)
    fun index valid => ?_
  rw [getElem?_repeatEntries second between valid,
    getElem?_repeatEntries first full (isIndex_pick second valid),
    getElem?_repeatEntries whole full valid, zipWith_pick_pick first]

/-- Entries that are combined are repeated as those that they are combined from. -/
theorem repeatEntries_zipWith (fits : List.Forall₂ Fits source target) (f : α → β → γ) {xs : List α}
    {ys : List β} (left : xs.length = count source) (right : ys.length = count source) :
    repeatEntries source target (List.zipWith f xs ys) =
      List.zipWith f (repeatEntries source target xs) (repeatEntries source target ys) := by
  have both : (List.zipWith f xs ys).length = count source := by
    rw [List.length_zipWith, left, right, Nat.min_self]
  refine eq_of_index (length_repeatEntries fits both) ?_ fun index valid => ?_
  · rw [List.length_zipWith, length_repeatEntries fits left, length_repeatEntries fits right,
      Nat.min_self]
  · rw [getElem?_repeatEntries fits both valid, List.getElem?_zipWith, List.getElem?_zipWith,
      getElem?_repeatEntries fits left valid, getElem?_repeatEntries fits right valid]

/-- Dimensions of size one in front of both shapes change nothing. -/
theorem repeatEntries_pad (k : Nat) {entries : List α} (full : entries.length = count source) :
    repeatEntries (List.replicate k 1 ++ source) (List.replicate k 1 ++ target) entries =
      repeatEntries source target entries := by
  induction k with
  | zero => rfl
  | succ k ih =>
    -- The only slice of such a dimension is all of the entries.
    have slice : chunks (count (List.replicate k 1 ++ source)) 1 entries = [entries] := by
      rw [count_pad, ← full, chunks, List.take_length]
      rfl
    rw [List.replicate_succ, List.cons_append, List.cons_append, repeatEntries, if_pos rfl, slice,
      List.map_singleton, List.flatten_singleton, ih]

/-- Shapes that fit at their ends fit with the same dimensions of size one in front of both. -/
theorem FitsEnd.forall₂_replicate (k : Nat) (fits : FitsEnd source.reverse middle.reverse) :
    List.Forall₂ Fits (List.replicate k 1 ++ (List.replicate (middle.length - source.length) 1 ++ source))
      (List.replicate k 1 ++ middle) := by
  induction k with
  | zero => exact fits.broadcasts.2
  | succ k ih => exact .cons (.inl rfl) ih

variable {entries : List α}

/-- Entries are broadcast in two stages as they are broadcast at once. -/
theorem broadcastEntries_trans (first : FitsEnd source.reverse middle.reverse)
    (second : FitsEnd middle.reverse target.reverse) (full : entries.length = count source) :
    broadcastEntries middle target (broadcastEntries source middle entries) =
      broadcastEntries source target entries := by
  obtain ⟨shorter, -⟩ := first.broadcasts
  obtain ⟨shorter', whole⟩ := second.broadcasts
  have padded : entries.length =
      count (List.replicate (middle.length - source.length) 1 ++ source) := by rw [count_pad, full]
  -- Both stages are taken with as many dimensions as the last shape has.
  have sizes : List.replicate (target.length - source.length) 1 ++ source =
      List.replicate (target.length - middle.length) 1 ++
        (List.replicate (middle.length - source.length) 1 ++ source) := by
    rw [← List.append_assoc, ← List.replicate_add]
    congr 2
    omega
  rw [broadcastEntries, broadcastEntries, broadcastEntries, sizes,
    ← repeatEntries_pad (target.length - middle.length) padded]
  exact repeatEntries_trans (first.forall₂_replicate _) whole (by rw [count_pad, padded])

/-- Entries that are combined are broadcast as those that they are combined from. -/
theorem broadcastEntries_zipWith (fits : FitsEnd source.reverse target.reverse) (f : α → β → γ)
    {xs : List α} {ys : List β} (left : xs.length = count source) (right : ys.length = count source) :
    broadcastEntries source target (List.zipWith f xs ys) =
      List.zipWith f (broadcastEntries source target xs) (broadcastEntries source target ys) :=
  repeatEntries_zipWith fits.broadcasts.2 f (by rw [count_pad, left]) (by rw [count_pad, right])

/-- A function of entries is broadcast as the entries are. -/
theorem broadcastEntries_map (fits : FitsEnd source.reverse target.reverse) (f : α → β)
    (full : entries.length = count source) :
    broadcastEntries source target (entries.map f) = (broadcastEntries source target entries).map f := by
  -- The function combines every entry with itself.
  have combined := broadcastEntries_zipWith fits (fun x _ => f x) full full
  rwa [List.zipWith_self, List.zipWith_self] at combined

/-- Entries of a shape are not changed where they are broadcast to it. -/
theorem broadcastEntries_self (full : entries.length = count target) :
    broadcastEntries target target entries = entries := by
  have broadcasts := (FitsEnd.refl target.reverse).broadcasts
  refine eq_of_index (length_broadcastEntries broadcasts full) full fun index valid => ?_
  rw [getElem?_broadcastEntries broadcasts full valid, align_self valid]

/-- Sizes that fit a common one have a common size, which fits it as well. -/
theorem exists_broadcastSize {m n r : Nat} (left : Fits m r) (right : Fits n r) :
    ∃ size, broadcastSize m n = .ok size ∧ Fits size r := by
  rw [broadcastSize]
  split
  · exact ⟨m, rfl, left⟩
  split
  · exact ⟨n, rfl, right⟩
  split
  · exact ⟨m, rfl, left⟩
  · -- Sizes other than one that fit a common one are equal.
    rename_i differ one one'
    exact absurd ((left.resolve_right one).trans (right.resolve_right one').symm) differ

/-- Shapes that fit a common one have a common shape, which fits it as well. -/
theorem exists_broadcastReversed {ms ns rs : List Nat} (left : FitsEnd ms rs) (right : FitsEnd ns rs) :
    ∃ sizes, broadcastReversed ms ns = .ok sizes ∧ FitsEnd sizes rs := by
  induction left generalizing ns with
  | nil => exact ⟨ns, by rw [broadcastReversed], right⟩
  | @cons m r ms rs first rest ih =>
    cases right with
    | nil => exact ⟨m :: ms, by rw [broadcastReversed]; simp, .cons first rest⟩
    | cons first' rest' =>
      obtain ⟨size, own, fits⟩ := exists_broadcastSize first first'
      obtain ⟨sizes, others, fits'⟩ := ih rest'
      exact ⟨size :: sizes, by rw [broadcastReversed, own, others]; rfl, .cons fits fits'⟩

/-- Shapes that fit the end of a common one have a common shape, which fits it as well. -/
theorem exists_broadcastShape {left right : List Nat} (fits : FitsEnd left.reverse target.reverse)
    (fits' : FitsEnd right.reverse target.reverse) :
    ∃ shape, broadcastShape left right = .ok shape ∧ FitsEnd shape.reverse target.reverse := by
  obtain ⟨sizes, common, both⟩ := exists_broadcastReversed fits fits'
  exact ⟨sizes.reverse, by rw [broadcastShape, common]; rfl, by rwa [List.reverse_reverse]⟩

end Clifford.Tensor
