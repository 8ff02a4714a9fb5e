import IpcBond.BufferRange
import IpcBond.TypedStream

/-! `IsEof`: which inputs it is exact for. A cursor that a range starts at the end of the covered
part of its blob has no byte left, and is not at the end. -/

namespace IpcBond
open Library.Segments

namespace Range

def null : Range := ⟨ConstBuffer.null, 0, 0, 0, 0⟩

theorem null_wellFormed : null.buffer.Valid ∧ null.WellFormed := by decide

theorem isEmpty_iff (range : Range) :
    range.isEmpty = true ↔ range.firstBlob = range.lastBlob ∧ range.firstOffset = range.lastOffset := by
  rw [isEmpty, decide_eq_true_iff]

end Range

namespace InputBuffer

variable {s : InputBuffer} (inv : s.Invariant)
include inv

theorem Invariant.remaining_eq_nil : s.remaining = [] ↔ s.pos = s.stop := by
  have covered := inv.pos_le_stop
  rw [← List.length_eq_zero_iff, inv.remaining_length]
  omega

/-- The flag is exact wherever the cursor is settled, and nowhere else. -/
theorem Invariant.isEof_iff : (s.isEof = true ↔ s.remaining = []) ↔ s.Settled := by
  rw [inv.remaining_eq_nil]
  constructor
  · intro agrees
    refine ⟨inv.bounded, ?_⟩
    rcases inv.cursor with atEnd | ⟨o, inside, _, unparked⟩
    · exact Or.inl atEnd
    · refine Or.inr ⟨o, inside, ?_⟩
      rcases unparked with before | last
      · exact before
      · have boundary := inv.bounded.start_add_blobLength s.blob
        have position := inside.pos
        have fits := inside.fits
        rw [if_pos last] at boundary
        have more : s.pos ≠ s.stop := fun ended => by
          have flag := agrees.2 ended
          rw [inside.isEof] at flag
          cases flag
        omega
  · intro settled
    exact settled.isEof_iff

end InputBuffer

namespace Input

theorem opened_of_empty {range : Range} (valid : range.buffer.Valid) (bounds : range.InBounds)
    (empty : range.isEmpty = true) (cut : range.lastOffset ≠ 0) :
    (InputBuffer.ofRange range).isEof = false := by
  obtain ⟨same, _⟩ := range.isEmpty_iff.1 empty
  have limit := bounds.lastOffset_le
  have nonempty : (range.buffer.blobAt range.firstBlob).size ≠ 0 := by
    rw [same]
    omega
  have found : (range.buffer.blobAt range.firstBlob).item.isSome = true ∧
      (range.buffer.blobAt range.firstBlob).size ≠ 0 :=
    ⟨(valid.blobAt range.firstBlob).item_isSome nonempty, nonempty⟩
  simp [InputBuffer.ofRange, InputBuffer.make, InputBuffer.members, InputBuffer.updateData,
    InputBuffer.skipEmptyBlobs, InputBuffer.skipLoop, InputBuffer.current, cut, ← same, found]

/-- A fresh cursor is settled unless its range is an empty one from inside a blob. -/
theorem opened_settled_iff {input : Input} (formed : input.WellFormed) :
    input.opened.Settled ↔ (input.asRange.isEmpty = true → input.asRange.lastOffset = 0) := by
  obtain ⟨inv, same, pos, stop⟩ := opened_spec formed
  have wellFormed : input.asRange.buffer.Valid ∧ input.asRange.WellFormed := by
    cases input with
    | ofBuffer whole => exact ⟨formed, Range.whole_wellFormed whole⟩
    | ofRange range => exact formed
  have built : input.opened = .ofRange input.asRange := by
    cases input with
    | ofBuffer whole => exact InputBuffer.ofBuffer_eq whole
    | ofRange range => rfl
  obtain ⟨valid, bounds, _⟩ := wellFormed
  rw [← asRange_buffer] at same
  generalize input.asRange = range at *
  constructor
  · intro settled empty
    by_contra cut
    have ended : input.opened.pos = input.opened.stop := by
      obtain ⟨sameBlob, sameOffset⟩ := range.isEmpty_iff.1 empty
      rw [pos, stop, Range.startPos, Range.stopPos, sameBlob, sameOffset]
    have flag := settled.isEof_iff.2 ended
    rw [built, opened_of_empty valid bounds empty cut] at flag
    cases flag
  · intro uncut
    refine ⟨inv.bounded, ?_⟩
    rcases inv.cursor with atEnd | ⟨o, inside, before, unparked⟩
    · exact Or.inl atEnd
    · refine Or.inr ⟨o, inside, ?_⟩
      by_contra parked
      have covered := inside.blobLength_pos
      have fits := inside.fits
      have ended : input.opened.pos = input.opened.stop := by
        have last : input.opened.blob + 1 = input.opened.blobEnd := unparked.resolve_left parked
        have boundary := inv.bounded.start_add_blobLength input.opened.blob
        have position := inside.pos
        rw [if_pos last] at boundary
        omega
      have position := inside.pos
      rw [pos, stop, Range.startPos, Range.stopPos] at ended
      rw [pos, Range.startPos, same] at position
      by_cases cut : range.lastOffset = 0
      · -- the end of the input is between two blobs, and the cursor is not
        have next := valid.start_succ input.opened.blob
        rw [InputBuffer.current, same] at before
        by_cases later : range.lastBlob ≤ input.opened.blob
        · have order := start_mono range.buffer.segments later
          omega
        · have order := start_mono range.buffer.segments (show input.opened.blob + 1 ≤ range.lastBlob by omega)
          omega
      · have nonempty : ¬ range.isEmpty = true := fun empty => cut (uncut empty)
        rw [Range.isEmpty_iff] at nonempty
        rcases bounds.ordered with less | ⟨sameBlob, _⟩
        · have next := valid.start_succ range.firstBlob
          have order := start_mono range.buffer.segments (show range.firstBlob + 1 ≤ range.lastBlob from less)
          have limit := bounds.firstOffset_le
          omega
        · rw [sameBlob] at ended
          exact nonempty ⟨sameBlob, by omega⟩

end Input

/-- Where the input of an `InputBuffer` comes from: a buffer, a range that is well formed, one that
is default-constructed, or the one that `GetBufferRange` returns for two cursors of one buffer,
the first not after the last. -/
inductive Input.Obtained (bond : BondCodec) : Input → Prop where
  | ofBuffer {buffer : ConstBuffer} (valid : buffer.Valid) : Obtained bond (.ofBuffer buffer)
  | ofRange {range : Range} (valid : range.buffer.Valid) (formed : range.WellFormed) : Obtained bond (.ofRange range)
  | null : Obtained bond (.ofRange .null)
  | between {front back : Input} {first last : InputBuffer} (opened : Obtained bond front)
      (opened' : Obtained bond back) (reach : InputBuffer.Reachable bond front.opened first)
      (reach' : InputBuffer.Reachable bond back.opened last) (same : last.buffer = first.buffer)
      (order : first.blob < last.blob ∨ first.blob = last.blob ∧ first.blobOffset ≤ last.blobOffset) :
      Obtained bond (.ofRange (InputBuffer.getBufferRange first last))

theorem Input.Obtained.wellFormed {bond : BondCodec} {input : Input} (obtained : input.Obtained bond) :
    input.WellFormed := by
  induction obtained with
  | ofBuffer valid => exact valid
  | ofRange valid formed => exact ⟨valid, formed⟩
  | null => exact Range.null_wellFormed
  | between _ _ reach reach' same order formed formed' =>
    have inv := (reach.spec (Input.opened_spec formed).1).invariant
    have inv' := (reach'.spec (Input.opened_spec formed').1).invariant
    exact ⟨inv.bounded.valid, InputBuffer.getBufferRange_wellFormed_of_le inv inv' same order⟩

open InputBuffer in
/-- `IsEof` is exact in every state exactly when the input is not an empty range from inside a
blob; what it asserts about its flag holds in every state of every input. -/
theorem isEof_exact_iff (bond : BondCodec) (input : Input) (obtained : input.Obtained bond) :
    (∀ s, Reachable bond input.opened s → s.isEof = decide (s.blob = s.blobEnd)) ∧
    (((∀ s, Reachable bond input.opened s → (s.isEof = true ↔ s.remaining = [])) ∧
        (input.asRange.isEmpty = true → input.opened.isEof = true)) ↔
      (input.asRange.isEmpty = true → input.asRange.lastOffset = 0)) := by
  have formed := obtained.wellFormed
  obtain ⟨inv, _, pos, stop⟩ := Input.opened_spec formed
  rw [← Input.opened_settled_iff formed]
  refine ⟨fun s reach => (reach.spec inv).invariant.flag, ?_, ?_⟩
  · rintro ⟨agrees, _⟩
    exact inv.isEof_iff.1 (agrees _ .origin)
  · intro settled
    refine ⟨fun s reach => ?_, fun empty => ?_⟩
    · have moved := reach.spec inv
      exact moved.invariant.isEof_iff.2 (moved.settled settled)
    · obtain ⟨sameBlob, sameOffset⟩ := input.asRange.isEmpty_iff.1 empty
      apply settled.isEof_iff.2
      rw [pos, stop, Range.startPos, Range.stopPos, sameBlob, sameOffset]

/-- Five bytes from inside a blob. -/
theorem isEof_exact_inside :
    let input : Input := .ofRange ⟨⟨some [⟨some ⟨1, [0, 1, 2, 3, 4, 5, 6, 7, 8, 9]⟩, 0, 10⟩]⟩, 0, 3, 0, 8⟩
    ∀ s, InputBuffer.Reachable sevenBitCodec input.opened s → (s.isEof = true ↔ s.remaining = []) := by
  intro input
  have obtained : input.Obtained sevenBitCodec := .ofRange (by decide) (by decide)
  exact ((isEof_exact_iff sevenBitCodec input obtained).2.2 (by decide)).1

open InputBuffer in
/-- The range between a cursor inside a blob and itself. -/
theorem isEof_not_exact_empty :
    let buffer : ConstBuffer := ⟨some [⟨some ⟨1, [0, 1, 2, 3, 4, 5, 6, 7, 8, 9]⟩, 0, 10⟩]⟩
    let cursor := ReadOp.after sevenBitCodec (.ofBuffer buffer) (.bytes 3)
    let range := getBufferRange cursor cursor
    (Input.ofRange range).Obtained sevenBitCodec ∧ range.isEmpty = true ∧
      (ofRange range).remaining = [] ∧ (ofRange range).isEof = false := by
  intro buffer cursor range
  have origin : (Input.ofBuffer buffer).Obtained sevenBitCodec := .ofBuffer (by decide)
  have reach : Reachable sevenBitCodec (Input.ofBuffer buffer).opened cursor := .step .origin _
  exact ⟨.between origin origin reach reach rfl (Or.inr ⟨rfl, Nat.le_refl _⟩), by decide, by decide, by decide⟩

end IpcBond
