import Clifford.Tensor.Broadcast
import Clifford.Proofs.Result
import Clifford.Proofs.Tensor.Index

/-! Broadcasting: a broadcast tensor holds, at every index of the common shape, the entry at the aligned
index of its own shape. -/

namespace Clifford.Tensor

variable {α : Type} {source target index : List Nat}

/-- A size fits another one if it is that size or can be repeated. -/
def Fits (m n : Nat) : Prop := m = n ∨ m = 1

/-- The position in a dimension that may be repeated. -/
def pick (size i : Nat) : Nat := if size = 1 then 0 else i

/-- Positions below a size stand for positions below every size that fits it. -/
theorem pick_lt {m n i : Nat} (fits : Fits m n) (below : i < n) : pick m i < m := by
  rw [pick]
  split
  · omega
  · rcases fits with same | one <;> omega

/-- A position is kept in a dimension that is not repeated. -/
theorem pick_self {n i : Nat} (below : i < n) : pick n i = i := by
  rw [pick]
  split <;> omega

/-- An index of a shape is the index of every shape of the same length that fits it. -/
theorem isIndex_pick (fits : List.Forall₂ Fits source target) (valid : IsIndex index target) :
    IsIndex (List.zipWith pick source index) source := by
  -- The shapes are compared dimension by dimension, and the index goes along with them.
  induction fits generalizing index with
  | nil => exact .nil
  | cons first _ ih =>
    cases valid with
    | cons below rest => exact .cons (pick_lt first below) (ih rest)

section Repeat

variable {entries : List α} {m : Nat}

/-- The slices of entries along the first dimension, repeated along all others. -/
theorem length_slices (lengths : ∀ slice : List α, slice.length = count source →
      (repeatEntries source target slice).length = count target)
    (full : entries.length = m * count source) :
    ∀ slice ∈ (chunks (count source) m entries).map (repeatEntries source target),
      slice.length = count target := by
  intro slice member
  -- Every slice repeats one chunk of the entries, which has the room of the rest of the shape.
  obtain ⟨chunk, inside, rfl⟩ := List.mem_map.mp member
  exact lengths chunk (length_of_mem_chunks full chunk inside)

/-- Slices of one length have the sum of their lengths. -/
theorem length_flatten_slices {slices : List (List α)} {width : Nat}
    (widths : ∀ slice ∈ slices, slice.length = width) : slices.flatten.length = slices.length * width := by
  rw [List.length_flatten, List.map_congr_left widths, List.map_const', List.sum_replicate, smul_eq_mul]

/-- Repeated entries fill the shape. -/
theorem length_repeatEntries (fits : List.Forall₂ Fits source target)
    (full : entries.length = count source) : (repeatEntries source target entries).length = count target := by
  -- The first dimension either lists its slices or repeats the single one it has.
  induction fits generalizing entries with
  | nil => exact full
  | @cons m n source target first _ ih =>
    have slices := length_slices (fun slice => ih) full
    have total := length_flatten_slices slices
    rw [List.length_map, length_chunks] at total
    rw [repeatEntries]
    split
    · rename_i same
      rw [total, same, count]
    · rename_i other
      obtain rfl : m = 1 := first.resolve_left other
      rw [length_flatten_slices fun slice member => (List.eq_of_mem_replicate member) ▸ total,
        List.length_replicate, count, Nat.one_mul]

/-- Repeated entries hold at every index the entry at the position that is repeated there. -/
theorem getElem?_repeatEntries (fits : List.Forall₂ Fits source target)
    (full : entries.length = count source) (valid : IsIndex index target) :
    (repeatEntries source target entries)[offset target index]? =
      entries[offset source (List.zipWith pick source index)]? := by
  -- The induction goes from the first dimension to the last one, into the slice that the index selects.
  induction fits generalizing entries index with
  | nil =>
    cases valid
    rfl
  | @cons m n source target first rest ih =>
    obtain _ | @⟨i, _, index, _, below, inner⟩ := valid
    have slices := length_slices (fun slice => length_repeatEntries rest) full
    have total := length_flatten_slices slices
    rw [List.length_map, length_chunks] at total
    have place := offset_lt inner
    have place' := offset_lt (isIndex_pick rest inner)
    -- Within one slice the entry is found along the other dimensions.
    have slice {k : Nat} (inside : k < m) :
        ((chunks (count source) m entries).map (repeatEntries source target)).flatten[
          k * count target + offset target index]? =
        entries[k * count source + offset source (List.zipWith pick source index)]? := by
      have full' : ((entries.drop (k * count source)).take (count source)).length = count source := by
        rw [List.length_take, List.length_drop, full, count, ← Nat.sub_mul]
        exact Nat.min_eq_left (Nat.le_mul_of_pos_left _ (Nat.sub_pos_of_lt inside))
      rw [getElem?_flatten slices k place, List.getElem?_map, getElem?_chunks inside, Option.map_some,
        Option.bind_some, ih full' inner, List.getElem?_take_of_lt place', List.getElem?_drop]
    rw [repeatEntries]
    dsimp only [List.zipWith_cons_cons, offset]
    split
    · rename_i same
      rw [slice (same ▸ below), same, pick_self below]
    -- A repeated dimension has a single slice, which every position selects.
    · rename_i other
      obtain rfl : m = 1 := first.resolve_left other
      rw [getElem?_flatten (fun slice member => (List.eq_of_mem_replicate member) ▸
          total.trans (Nat.one_mul _)) i place, List.getElem?_replicate_of_lt below, Option.bind_some]
      have only := slice Nat.one_pos
      rwa [Nat.zero_mul, Nat.zero_add] at only

end Repeat

/-- A shape broadcasts to another one if its sizes fit those at the end of it. -/
def Broadcasts (source target : List Nat) : Prop :=
  source.length ≤ target.length ∧
    List.Forall₂ Fits (List.replicate (target.length - source.length) 1 ++ source) target

/-- The index of a shape that an index of a shape it broadcasts to is aligned with. -/
def align (source index : List Nat) : List Nat :=
  List.zipWith pick source (index.drop (index.length - source.length))

/-- Dimensions of size one in front of a shape do not change its places. -/
theorem offset_pad (k : Nat) (source index : List Nat) :
    offset (List.replicate k 1 ++ source) (List.zipWith pick (List.replicate k 1 ++ source) index) =
      offset source (List.zipWith pick source (index.drop k)) := by
  -- A dimension of size one selects its only slice, whatever the position is.
  induction k generalizing index with
  | zero => simp
  | succ k ih =>
    rw [List.replicate_succ, List.cons_append]
    cases index with
    | nil => cases source <;> simp [offset]
    | cons i index =>
      rw [List.zipWith_cons_cons, offset, ih, List.drop_succ_cons, pick, if_pos rfl, Nat.zero_mul,
        Nat.zero_add]

/-- Dimensions of size one in front of a shape do not change its room. -/
theorem count_pad (k : Nat) (source : List Nat) : count (List.replicate k 1 ++ source) = count source := by
  induction k with
  | zero => rfl
  | succ k ih => rw [List.replicate_succ, List.cons_append, count, ih, Nat.one_mul]

/-- Broadcast entries fill the shape. -/
theorem length_broadcastEntries {entries : List α} (broadcasts : Broadcasts source target)
    (full : entries.length = count source) :
    (broadcastEntries source target entries).length = count target :=
  length_repeatEntries broadcasts.2 (by rw [full, count_pad])

/-- Broadcast entries hold at every index the entry at the aligned index. -/
theorem getElem?_broadcastEntries {entries : List α} (broadcasts : Broadcasts source target)
    (full : entries.length = count source) (valid : IsIndex index target) :
    (broadcastEntries source target entries)[offset target index]? =
      entries[offset source (align source index)]? := by
  rw [broadcastEntries, getElem?_repeatEntries broadcasts.2 (by rw [full, count_pad]) valid, offset_pad,
    align, List.Forall₂.length_eq valid]

/-- An index of a shape is aligned with itself. -/
theorem align_self (valid : IsIndex index target) : align target index = index := by
  rw [align, List.Forall₂.length_eq valid, Nat.sub_self, List.drop_zero]
  -- No dimension is dropped, and every position lies below its size.
  induction valid with
  | nil => rfl
  | cons below _ ih => rw [List.zipWith_cons_cons, pick_self below, ih]

/-- Sizes from the last dimension on fit those of another shape, which may go on. -/
inductive FitsEnd : List Nat → List Nat → Prop
  | nil {ns : List Nat} : FitsEnd [] ns
  | cons {m n : Nat} {ms ns : List Nat} : Fits m n → FitsEnd ms ns → FitsEnd (m :: ms) (n :: ns)

namespace FitsEnd

variable {ms ns rs : List Nat}

/-- A shape fits itself. -/
theorem refl (ns : List Nat) : FitsEnd ns ns := by
  induction ns with
  | nil => exact .nil
  | cons n ns ih => exact .cons (.inl rfl) ih

/-- A shape that fits a second one fits every third one that the second one fits. -/
theorem trans (first : FitsEnd ms ns) (second : FitsEnd ns rs) : FitsEnd ms rs := by
  -- The shapes are compared together, each of them at least as long as the one before.
  induction first generalizing rs with
  | nil => exact .nil
  | cons fits _ ih =>
    cases second with
    | cons fits' rest =>
      refine .cons ?_ (ih rest)
      rcases fits with rfl | one
      · exact fits'
      · exact .inr one

/-- Sizes of one in front of a shape let it fit as a whole. -/
theorem forall₂_pad (fits : FitsEnd ms ns) :
    ms.length ≤ ns.length ∧ List.Forall₂ Fits (ms ++ List.replicate (ns.length - ms.length) 1) ns := by
  -- What is left over of the longer shape is matched with ones.
  induction fits with
  | @nil ns =>
    refine ⟨Nat.zero_le _, ?_⟩
    induction ns with
    | nil => exact .nil
    | cons n ns ih => exact .cons (.inr rfl) ih
  | cons first _ ih =>
    refine ⟨Nat.succ_le_succ ih.1, ?_⟩
    rw [List.cons_append, List.length_cons, List.length_cons, Nat.add_sub_add_right]
    exact .cons first ih.2

/-- Shapes that fit at their ends broadcast. -/
theorem broadcasts (fits : FitsEnd source.reverse target.reverse) : Broadcasts source target := by
  -- Padding at the end of the reversed shapes is padding in front of the shapes.
  obtain ⟨shorter, padded⟩ := fits.forall₂_pad
  rw [List.length_reverse, List.length_reverse] at shorter padded
  refine ⟨shorter, List.forall₂_reverse_iff.mp ?_⟩
  rwa [List.reverse_append, List.reverse_replicate]

end FitsEnd

/-- Two sizes fit their common size. -/
theorem fits_broadcastSize {m n r : Nat} (common : broadcastSize m n = .ok r) : Fits m r ∧ Fits n r := by
  -- Sizes are equal, or one of them is one; all others are refused.
  rw [broadcastSize] at common
  split at common
  · rename_i same
    cases common
    exact ⟨.inl rfl, .inl same.symm⟩
  · split at common
    · rename_i one
      cases common
      exact ⟨.inr one, .inl rfl⟩
    · split at common
      · rename_i one
        cases common
        exact ⟨.inl rfl, .inr one⟩
      · cases common

/-- Two shapes fit their common shape. -/
theorem fits_broadcastReversed {ms ns rs : List Nat} (common : broadcastReversed ms ns = .ok rs) :
    FitsEnd ms rs ∧ FitsEnd ns rs := by
  -- Sizes are combined from the last dimension on, until one of the shapes ends.
  induction ms generalizing ns rs with
  | nil =>
    rw [broadcastReversed] at common
    cases common
    exact ⟨.nil, .refl _⟩
  | cons m ms ih =>
    cases ns with
    | nil =>
      rw [broadcastReversed] at common
      · cases common
        exact ⟨.refl _, .nil⟩
      · simp
    | cons n ns =>
      rw [broadcastReversed] at common
      obtain ⟨size, first, more⟩ := Result.bind_eq_ok.mp common
      obtain ⟨sizes, rest, done⟩ := Result.bind_eq_ok.mp more
      cases done
      obtain ⟨left, right⟩ := fits_broadcastSize first
      obtain ⟨lefts, rights⟩ := ih rest
      exact ⟨.cons left lefts, .cons right rights⟩

/-- Two shapes fit their common shape at their ends. -/
theorem fits_broadcastShape {left right : List Nat} (common : broadcastShape left right = .ok target) :
    FitsEnd left.reverse target.reverse ∧ FitsEnd right.reverse target.reverse := by
  obtain ⟨reversed, fitted, done⟩ := Result.bind_eq_ok.mp common
  cases done
  rw [List.reverse_reverse]
  exact fits_broadcastReversed fitted

/-- The shape that several ones are combined with and each of them fit the result. -/
theorem fits_foldlM_broadcastShape {shapes : List (List Nat)} {start : List Nat}
    (common : shapes.foldlM broadcastShape start = .ok target) :
    FitsEnd start.reverse target.reverse ∧ ∀ source ∈ shapes, FitsEnd source.reverse target.reverse := by
  -- What fits the shape so far fits all later ones, since fitting is transitive.
  induction shapes generalizing start with
  | nil =>
    cases common
    exact ⟨.refl _, by simp⟩
  | cons shape rest ih =>
    rw [List.foldlM_cons] at common
    obtain ⟨both, first, later⟩ := Result.bind_eq_ok.mp common
    obtain ⟨left, right⟩ := fits_broadcastShape first
    obtain ⟨onward, others⟩ := ih later
    exact ⟨left.trans onward, List.forall_mem_cons.mpr ⟨right.trans onward, others⟩⟩

/-- Every shape of several broadcasts to their common shape. -/
theorem broadcasts_of_broadcastShapes {shapes : List (List Nat)}
    (common : broadcastShapes shapes = .ok target) : ∀ source ∈ shapes, Broadcasts source target := by
  -- The common shape is combined from the empty one on.
  intro source member
  exact ((fits_foldlM_broadcastShape common).2 source member).broadcasts

end Clifford.Tensor
