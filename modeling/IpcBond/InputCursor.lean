import IpcBond.InputBuffer

/-! The state of an `InputBuffer` as one position in the flat bytes of its buffer. Every
operation is described by what it does to that position. -/

namespace IpcBond.InputBuffer
open Library.Segments

def blobLength (s : InputBuffer) (i : Nat) : Nat :=
  if s.lastOffset ≠ 0 ∧ i + 1 = s.blobEnd then s.lastOffset else (s.buffer.blobAt i).size

def stop (s : InputBuffer) : Nat :=
  if s.lastOffset ≠ 0 then start s.buffer.segments (s.blobEnd - 1) + s.lastOffset
  else start s.buffer.segments s.blobEnd

def pos (s : InputBuffer) : Nat :=
  if s.isEof then s.stop else start s.buffer.segments s.blob + (s.ptr.offset - s.current.beginAt)

def remaining (s : InputBuffer) : List Byte := (s.buffer.bytes.take s.stop).drop s.pos

structure Bounded (s : InputBuffer) : Prop where
  valid : s.buffer.Valid
  blobEnd_le : s.blobEnd ≤ s.buffer.blobs.length
  last : s.lastOffset ≠ 0 → 0 < s.blobEnd ∧ s.lastOffset ≤ (s.buffer.blobAt (s.blobEnd - 1)).size

structure SameInput (s t : InputBuffer) : Prop where
  buffer : t.buffer = s.buffer
  blobEnd : t.blobEnd = s.blobEnd
  lastOffset : t.lastOffset = s.lastOffset

structure AtEnd (s : InputBuffer) : Prop where
  isEof : s.isEof = true
  blob : s.blob = s.blobEnd
  ptr : s.ptr = Ptr.null
  ptrEnd : s.ptrEnd = Ptr.null

structure Inside (s : InputBuffer) (o : Nat) : Prop where
  isEof : s.isEof = false
  blob_lt : s.blob < s.blobEnd
  nonempty : s.current.size ≠ 0
  ptr : s.ptr = s.current.data.add o
  ptrEnd : s.ptrEnd = s.current.data.add (s.blobLength s.blob)
  fits : o ≤ s.blobLength s.blob

/-- The cursor stands before the end of its blob, and before the end of the input except in one
that is empty from the start: a range from a position inside a blob to the same position. -/
structure Invariant (s : InputBuffer) : Prop where
  bounded : s.Bounded
  cursor : s.AtEnd ∨
    ∃ o, s.Inside o ∧ o < s.current.size ∧ (o < s.blobLength s.blob ∨ s.blob + 1 = s.blobEnd)

/-- What every successful read establishes: the cursor is not at the end of a blob. -/
structure Settled (s : InputBuffer) : Prop where
  bounded : s.Bounded
  cursor : s.AtEnd ∨ ∃ o, s.Inside o ∧ o < s.blobLength s.blob

theorem SameInput.refl (s : InputBuffer) : s.SameInput s := ⟨rfl, rfl, rfl⟩

theorem SameInput.trans {s t u : InputBuffer} (first : s.SameInput t) (second : t.SameInput u) :
    s.SameInput u :=
  ⟨second.buffer.trans first.buffer, second.blobEnd.trans first.blobEnd,
    second.lastOffset.trans first.lastOffset⟩

theorem SameInput.stop {s t : InputBuffer} (same : s.SameInput t) : t.stop = s.stop := by
  simp only [InputBuffer.stop, same.buffer, same.blobEnd, same.lastOffset]

theorem SameInput.bounded {s t : InputBuffer} (same : s.SameInput t) (bounded : s.Bounded) :
    t.Bounded := by
  refine ⟨same.buffer ▸ bounded.valid, ?_, ?_⟩
  · rw [same.buffer, same.blobEnd]
    exact bounded.blobEnd_le
  · rw [same.buffer, same.blobEnd, same.lastOffset]
    exact bounded.last

theorem start_le_stop {s : InputBuffer} {i : Nat} (inside : i < s.blobEnd) :
    start s.buffer.segments i ≤ s.stop := by
  unfold stop
  split
  · exact Nat.le_trans (start_mono _ (show i ≤ s.blobEnd - 1 by omega)) (Nat.le_add_right _ _)
  · exact start_mono _ (Nat.le_of_lt inside)

namespace Bounded

variable {s : InputBuffer} (bounded : s.Bounded)
include bounded

theorem blobLength_le (i : Nat) : s.blobLength i ≤ (s.buffer.blobAt i).size := by
  unfold blobLength
  split
  · next last =>
    have limit := (bounded.last last.1).2
    rwa [← last.2, Nat.add_sub_cancel] at limit
  · exact Nat.le_refl _

theorem start_add_blobLength (i : Nat) :
    start s.buffer.segments i + s.blobLength i =
      if i + 1 = s.blobEnd then s.stop else start s.buffer.segments (i + 1) := by
  unfold blobLength InputBuffer.stop
  by_cases last : i + 1 = s.blobEnd
  · rw [if_pos last, ← last, Nat.add_sub_cancel]
    by_cases cut : s.lastOffset = 0
    · simp only [cut, ne_eq, not_true_eq_false, false_and, if_false]
      rw [bounded.valid.start_succ]
    · simp [cut]
  · rw [if_neg last, if_neg (by omega), bounded.valid.start_succ]

theorem start_add_blobLength_le_stop {i : Nat} (inside : i < s.blobEnd) :
    start s.buffer.segments i + s.blobLength i ≤ s.stop := by
  rw [bounded.start_add_blobLength]
  split
  · exact Nat.le_refl _
  · exact start_le_stop (by omega)

theorem stop_le_length : s.stop ≤ s.buffer.bytes.length := by
  unfold InputBuffer.stop
  split
  · next cut =>
    obtain ⟨positive, limit⟩ := bounded.last cut
    have next := bounded.valid.start_succ (s.blobEnd - 1)
    have total : start s.buffer.segments (s.blobEnd - 1 + 1) ≤ s.buffer.bytes.length :=
      start_le_length _ _
    omega
  · exact start_le_length _ _

end Bounded

theorem Settled.invariant {s : InputBuffer} (settled : s.Settled) : s.Invariant := by
  refine ⟨settled.bounded, ?_⟩
  rcases settled.cursor with atEnd | ⟨o, inside, before⟩
  · exact Or.inl atEnd
  · have limit := settled.bounded.blobLength_le s.blob
    exact Or.inr ⟨o, inside, Nat.lt_of_lt_of_le before limit, Or.inl before⟩

theorem Inside.offset {s : InputBuffer} {o : Nat} (inside : s.Inside o) :
    s.ptr.offset = s.current.beginAt + o := by
  rw [inside.ptr, ConstBlob.data_of_nonempty inside.nonempty]
  rfl

theorem Inside.endOffset {s : InputBuffer} {o : Nat} (inside : s.Inside o) :
    s.ptrEnd.offset = s.current.beginAt + s.blobLength s.blob := by
  rw [inside.ptrEnd, ConstBlob.data_of_nonempty inside.nonempty]
  rfl

theorem Inside.pos {s : InputBuffer} {o : Nat} (inside : s.Inside o) :
    s.pos = start s.buffer.segments s.blob + o := by
  rw [InputBuffer.pos, inside.isEof, inside.offset]
  simp

theorem AtEnd.pos {s : InputBuffer} (atEnd : s.AtEnd) : s.pos = s.stop := by
  rw [InputBuffer.pos, atEnd.isEof, if_pos rfl]

theorem Settled.isEof_iff {s : InputBuffer} (settled : s.Settled) : s.isEof = true ↔ s.pos = s.stop := by
  rcases settled.cursor with atEnd | ⟨o, inside, before⟩
  · exact iff_of_true atEnd.isEof atEnd.pos
  · have position := inside.pos
    have covered := settled.bounded.start_add_blobLength_le_stop inside.blob_lt
    rw [inside.isEof]
    exact iff_of_false (by decide) (by omega)

namespace Invariant

variable {s : InputBuffer} (inv : s.Invariant)
include inv

theorem pos_le_stop : s.pos ≤ s.stop := by
  rcases inv.cursor with atEnd | ⟨o, inside, _, _⟩
  · exact Nat.le_of_eq atEnd.pos
  · have := inv.bounded.start_add_blobLength_le_stop inside.blob_lt
    have := inside.fits
    rw [inside.pos]
    omega

theorem flag : s.isEof = decide (s.blob = s.blobEnd) := by
  rcases inv.cursor with atEnd | ⟨o, inside, _, _⟩
  · rw [atEnd.isEof, decide_eq_true atEnd.blob]
  · have before := inside.blob_lt
    rw [inside.isEof, decide_eq_false (by omega)]

theorem remaining_length : s.remaining.length = s.stop - s.pos := by
  have := inv.bounded.stop_le_length
  rw [remaining, List.length_drop, List.length_take]
  omega

end Invariant

theorem remaining_drop {s t : InputBuffer} (same : s.SameInput t) {n : Nat} (moved : t.pos = s.pos + n) :
    t.remaining = s.remaining.drop n := by
  rw [remaining, remaining, same.buffer, same.stop, moved, List.drop_drop]

theorem remaining_take {s : InputBuffer} {n : Nat} (inside : s.pos + n ≤ s.stop) :
    s.remaining.take n = (s.buffer.segments.flatten.drop s.pos).take n := by
  rw [remaining, List.drop_take, List.take_take, Nat.min_eq_left (by omega)]
  rfl

theorem isEof_iff_of_item {blob : ConstBlob} (valid : blob.Valid) :
    (blob.item.isSome ∧ blob.size ≠ 0) ↔ blob.size ≠ 0 :=
  ⟨And.right, fun nonempty => ⟨valid.item_isSome nonempty, nonempty⟩⟩

theorem skipLoop_outcome (left : Nat) (s : InputBuffer) (exact : s.blob + left = s.blobEnd) :
    ∃ j, s.blob ≤ j ∧
      (∀ i, s.blob ≤ i → i < j → ¬ ((s.buffer.blobAt i).item.isSome ∧ (s.buffer.blobAt i).size ≠ 0)) ∧
      ((j < s.blobEnd ∧ (s.buffer.blobAt j).size ≠ 0 ∧ skipLoop left s = (false, { s with blob := j })) ∨
        (j = s.blobEnd ∧ skipLoop left s = (true, { s with blob := s.blobEnd, isEof := true }))) := by
  induction left generalizing s with
  | zero =>
    have arrived : s.blob = s.blobEnd := exact
    refine ⟨s.blob, Nat.le_refl _, by omega, Or.inr ⟨arrived, ?_⟩⟩
    simp only [skipLoop, ← arrived]
  | succ left ih =>
    by_cases found : s.current.item.isSome ∧ s.current.size ≠ 0
    · refine ⟨s.blob, Nat.le_refl _, by omega, Or.inl ⟨by omega, found.2, ?_⟩⟩
      rw [skipLoop, if_pos found]
    · obtain ⟨j, after, skipped, outcome⟩ := ih { s with blob := s.blob + 1 } (by simp only; omega)
      simp only at after skipped outcome
      refine ⟨j, by omega, fun i low high => ?_, ?_⟩
      · by_cases first : i = s.blob
        · rwa [first]
        · exact skipped i (by omega) high
      · rwa [skipLoop, if_neg found]

/-- `UpdateData` stops at the blob that `SkipEmptyBlobs` finds, or at the end of the input. -/
theorem updateData_outcome {s : InputBuffer} (reached : s.blob ≤ s.blobEnd) :
    ∃ j, s.blob ≤ j ∧
      (∀ i, s.blob ≤ i → i < j → ¬ ((s.buffer.blobAt i).item.isSome ∧ (s.buffer.blobAt i).size ≠ 0)) ∧
      ((j < s.blobEnd ∧ (s.buffer.blobAt j).size ≠ 0 ∧
          s.updateData = (true, { s with
            blob := j, ptr := (s.buffer.blobAt j).data,
            ptrEnd := (s.buffer.blobAt j).data.add (s.blobLength j) })) ∨
        (j = s.blobEnd ∧
          s.updateData = (false, { s with
            blob := s.blobEnd, isEof := true, ptr := Ptr.null, ptrEnd := Ptr.null }))) := by
  obtain ⟨j, after, skipped, ⟨before, nonempty, outcome⟩ | ⟨arrived, outcome⟩⟩ :=
    skipLoop_outcome (s.blobEnd - s.blob) s (by omega)
  · refine ⟨j, after, skipped, Or.inl ⟨before, nonempty, ?_⟩⟩
    simp only [updateData, skipEmptyBlobs, outcome, current, blobLength]
  · refine ⟨j, after, skipped, Or.inr ⟨arrived, ?_⟩⟩
    simp only [updateData, skipEmptyBlobs, outcome]

theorem updateData_spec {s : InputBuffer} (bounded : s.Bounded) (reached : s.blob ≤ s.blobEnd)
    (flag : s.isEof = decide (s.blob = s.blobEnd)) :
    s.SameInput s.updateData.2 ∧
      s.updateData.2.pos = (if s.blob = s.blobEnd then s.stop else start s.buffer.segments s.blob) ∧
      s.blob ≤ s.updateData.2.blob ∧
      (∀ i, s.blob ≤ i → i < s.updateData.2.blob → (s.buffer.blobAt i).size = 0) ∧
      (s.updateData.1 = true ∧ s.updateData.2.Inside 0 ∧ 0 < s.updateData.2.blobLength s.updateData.2.blob ∨
        s.updateData.1 = false ∧ s.updateData.2.AtEnd) := by
  obtain ⟨j, after, skipped, outcome⟩ := updateData_outcome reached
  have empty : ∀ i, s.blob ≤ i → i < j → (s.buffer.blobAt i).size = 0 := by
    intro i low high
    have nothing := skipped i low high
    rw [isEof_iff_of_item (bounded.valid.blobAt i)] at nothing
    exact not_not.mp nothing
  have same : start s.buffer.segments j = start s.buffer.segments s.blob :=
    bounded.valid.start_eq_of_empty after empty
  rcases outcome with ⟨before, nonempty, result⟩ | ⟨arrived, result⟩
  · have inside : s.updateData.2.Inside 0 := by
      rw [result]
      refine ⟨?_, before, nonempty, rfl, rfl, Nat.zero_le _⟩
      simp only [flag, decide_eq_false_iff_not]
      omega
    have covered : 0 < s.updateData.2.blobLength s.updateData.2.blob := by
      rw [result]
      simp only [blobLength]
      split <;> omega
    refine ⟨by rw [result]; exact ⟨rfl, rfl, rfl⟩, ?_, by rw [result]; exact after,
      by rw [result]; exact empty, Or.inl ⟨by rw [result], inside, covered⟩⟩
    rw [inside.pos, if_neg (by omega), result, Nat.add_zero]
    exact same
  · have atEnd : s.updateData.2.AtEnd := by
      rw [result]
      exact ⟨rfl, rfl, rfl, rfl⟩
    have sameInput : s.SameInput s.updateData.2 := by
      rw [result]
      exact ⟨rfl, rfl, rfl⟩
    refine ⟨sameInput, ?_, by rw [result]; exact reached, ?_, Or.inr ⟨by rw [result], atEnd⟩⟩
    rotate_left
    · rw [result, ← arrived]
      exact empty
    rw [atEnd.pos, sameInput.stop]
    split
    · rfl
    · next more =>
      -- a cut-off last blob is not empty, so the loop would have stopped at it
      have uncut : s.lastOffset = 0 := by
        by_contra cut
        obtain ⟨positive, limit⟩ := bounded.last cut
        have none := empty (s.blobEnd - 1) (by omega) (by omega)
        omega
      rw [InputBuffer.stop, if_neg (not_not.mpr uncut), ← same, arrived]

/-- `EndRead` moves on where the read has arrived at the end of the input in its blob, and nowhere else. -/
theorem endRead_outcome {s : InputBuffer} {o : Nat} (ptr : s.ptr = s.current.data.add o)
    (ptrEnd : s.ptrEnd = s.current.data.add (s.blobLength s.blob)) (n : Nat) :
    s.endRead (s.ptr.add n) =
      if o + n = s.blobLength s.blob then s.moveNext else { s with ptr := s.current.data.add (o + n) } := by
  have target : s.ptr.add n = s.current.data.add (o + n) := by rw [ptr, Ptr.add_add]
  rw [endRead, target, ptrEnd]
  by_cases arrives : o + n = s.blobLength s.blob
  · rw [if_pos arrives, arrives, if_neg (not_not.mpr rfl)]
  · rw [if_neg arrives, if_pos]
    intro same
    have offsets := congrArg Ptr.offset same
    simp only [Ptr.add_offset] at offsets
    omega

theorem endRead_spec {s : InputBuffer} (bounded : s.Bounded) {o n : Nat} (inside : s.Inside o)
    (fits : o + n ≤ s.blobLength s.blob) :
    s.SameInput (s.endRead (s.ptr.add n)) ∧ (s.endRead (s.ptr.add n)).pos = s.pos + n ∧
      (s.endRead (s.ptr.add n)).Settled := by
  rw [endRead_outcome inside.ptr inside.ptrEnd]
  by_cases last : o + n = s.blobLength s.blob
  · rw [if_pos last, moveNext]
    have advanced : s.SameInput { s with blob := s.blob + 1, isEof := s.blob + 1 = s.blobEnd } :=
      ⟨rfl, rfl, rfl⟩
    have boundary := bounded.start_add_blobLength s.blob
    obtain ⟨same, position, _, _, cursor⟩ := updateData_spec (advanced.bounded bounded)
      (by have := inside.blob_lt; simp only; omega) rfl
    refine ⟨advanced.trans same, ?_, same.bounded (advanced.bounded bounded), ?_⟩
    · rw [position, inside.pos, Nat.add_assoc, last, boundary]
      rfl
    · rcases cursor with ⟨_, atFirst, covered⟩ | ⟨_, atEnd⟩
      · exact Or.inr ⟨0, atFirst, covered⟩
      · exact Or.inl atEnd
  · rw [if_neg last]
    have same : s.SameInput { s with ptr := s.current.data.add (o + n) } := ⟨rfl, rfl, rfl⟩
    have moved : InputBuffer.Inside { s with ptr := s.current.data.add (o + n) } (o + n) :=
      ⟨inside.isEof, inside.blob_lt, inside.nonempty, rfl, inside.ptrEnd, fits⟩
    refine ⟨same, ?_, same.bounded bounded, Or.inr ⟨_, moved, Nat.lt_of_le_of_ne fits last⟩⟩
    rw [moved.pos, inside.pos, Nat.add_assoc]

theorem load_eq {s : InputBuffer} (bounded : s.Bounded) {o n : Nat} (inside : s.Inside o)
    (fits : o + n ≤ s.blobLength s.blob) : s.load s.ptr n = s.remaining.take n := by
  have limit := bounded.blobLength_le s.blob
  have valid : s.current.Valid := bounded.valid.blobAt s.blob
  have within : o + n ≤ s.current.size := Nat.le_trans fits limit
  have before := bounded.start_add_blobLength_le_stop inside.blob_lt
  calc s.load s.ptr n
      = (s.current.bytes.drop o).take n := by
        rw [load, inside.offset, ConstBlob.bytes, List.drop_take, List.drop_drop, List.take_take,
          Nat.min_eq_left (by omega)]
    _ = (s.buffer.bytes.drop s.pos).take n := by
        rw [inside.pos, bounded.valid.drop_take_blobAt within]
        rfl
    _ = s.remaining.take n := by
        rw [remaining, List.drop_take, List.take_take, inside.pos, Nat.min_eq_left (by omega)]

/-- The next `n` bytes can be read at once exactly when they lie in one blob. -/
theorem inside_iff_whole {s : InputBuffer} (inv : s.Invariant) {n : Nat} (positive : 0 < n) :
    (∃ o, s.Inside o ∧ o + n ≤ s.blobLength s.blob) ↔
      n ≤ s.remaining.length ∧ Whole s.buffer.segments s.pos n := by
  have covered := inv.pos_le_stop
  rw [inv.remaining_length]
  constructor
  · rintro ⟨o, inside, fits⟩
    have before := inv.bounded.start_add_blobLength_le_stop inside.blob_lt
    have limit := inv.bounded.blobLength_le s.blob
    have next := inv.bounded.valid.start_succ s.blob
    have position := inside.pos
    exact ⟨by omega, s.blob, by omega, by omega⟩
  · rintro ⟨available, i, low, high⟩
    rcases inv.cursor with atEnd | ⟨o, inside, _, unparked⟩
    · have := atEnd.pos
      omega
    · have position := inside.pos
      have limit := inv.bounded.blobLength_le s.blob
      have next := inv.bounded.valid.start_succ s.blob
      have boundary := inv.bounded.start_add_blobLength s.blob
      have before : o < s.blobLength s.blob := by
        rcases unparked with before | last
        · exact before
        · rw [if_pos last] at boundary
          omega
      have same : s.blob = i := segment_unique (by omega) (by omega) low (by omega)
      subst same
      refine ⟨o, inside, ?_⟩
      split at boundary <;> omega

theorem readSingle_spec {α : Type} {s : InputBuffer} (inv : s.Invariant) (n : Nat)
    (func : InputBuffer → α) :
    (∃ o t, s.Inside o ∧ o + n ≤ s.blobLength s.blob ∧ readSingle n func s = .ok (func s) t ∧
      s.SameInput t ∧ t.pos = s.pos + n ∧ t.Settled) ∨
    ((∀ o, s.Inside o → s.blobLength s.blob < o + n) ∧ readSingle n func s = .error .outOfRange s) := by
  rw [readSingle_run]
  rcases inv.cursor with atEnd | ⟨o, inside, _, _⟩
  · refine Or.inr ⟨fun o inside => ?_, by rw [if_pos (Or.inr atEnd.isEof)]⟩
    have := inside.isEof
    rw [atEnd.isEof] at this
    cases this
  · by_cases fits : o + n ≤ s.blobLength s.blob
    · obtain ⟨same, position, next⟩ := endRead_spec inv.bounded inside fits
      refine Or.inl ⟨o, _, inside, fits, ?_, same, position, next⟩
      rw [if_neg]
      rw [inside.isEof, inside.offset, inside.endOffset]
      simp
      omega
    · refine Or.inr ⟨fun o' inside' => ?_, ?_⟩
      · have := inside.pos
        have := inside'.pos
        omega
      · rw [if_pos]
        rw [inside.offset, inside.endOffset]
        omega

end IpcBond.InputBuffer
