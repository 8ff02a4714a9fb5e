import IpcBond.InputRefinement
import IpcBond.OutputRefinement

/-! `GetBufferRange`: the range between two cursors of one input, read again through an
`InputBuffer` or written to an `OutputBuffer`. A cursor inside a blob is encoded exactly; a
cursor at the end of the input is encoded as the end of the last blob. -/

namespace IpcBond
open Library.Segments Library.StateExcept

namespace OutputBuffer

theorem written_flatten_iff (memory : SharedMemory) {blobs : List ConstBlob}
    (valid : ∀ blob ∈ blobs, blob.Valid) :
    (blobs.map (written memory)).flatten = (blobs.map ConstBlob.bytes).flatten ↔
      ∀ blob ∈ blobs, memory.contains blob.data = false → blob.size < 2 ^ 32 := by
  have shorter : ∀ blob : ConstBlob, (written memory blob).length ≤ blob.bytes.length := by
    intro blob
    unfold written
    split
    · exact Nat.le_refl _
    · exact List.length_take_le' _ _
  constructor
  · intro same
    induction blobs with
    | nil => simp
    | cons blob rest ih =>
      have rest_le : (rest.map (written memory)).flatten.length ≤ (rest.map ConstBlob.bytes).flatten.length := by
        clear ih valid same
        induction rest with
        | nil => exact Nat.le_refl _
        | cons other rest ih =>
          simp only [List.map_cons, List.flatten_cons, List.length_append]
          exact Nat.add_le_add (shorter other) ih
      simp only [List.map_cons, List.flatten_cons] at same
      have lengths := congrArg List.length same
      rw [List.length_append, List.length_append] at lengths
      have head_le := shorter blob
      obtain ⟨head, tail⟩ := List.append_inj same (by omega)
      intro other member outside
      rcases List.mem_cons.1 member with rfl | later
      · have length := congrArg List.length head
        have blobLength := (valid other List.mem_cons_self).bytes_length
        rw [written, outside, if_neg (by decide), List.length_take, blobLength] at length
        have := Nat.mod_lt other.size (show 2 ^ 32 > 0 by decide)
        omega
      · exact ih (fun other member => valid other (List.mem_cons_of_mem _ member)) tail other later outside
  · intro small
    exact congrArg List.flatten (List.map_congr_left fun blob member => written_eq (valid blob member) (small blob member))

theorem Ready.writeRange_contents {pool : BufferPool} {s t : OutputBuffer} (ready : s.Ready pool.memory)
    {range : Range} (valid : range.buffer.Valid) (bounds : range.InBounds)
    (run : writeRange pool range s = .ok () t) :
    t.contents = s.contents ++ (range.parts.map (written pool.memory)).flatten := by
  rw [writeRange_eq pool valid bounds] at run
  have wrote := ready.writeBlobs_appends (bounds.parts_cut valid).2 t run
  rw [contents, wrote.segments.1, List.flatten_append]
  rfl

theorem Ready.writeRange_full_iff {pool : BufferPool} {s t : OutputBuffer} (ready : s.Ready pool.memory)
    {range : Range} (valid : range.buffer.Valid) (bounds : range.InBounds) (run : writeRange pool range s = .ok () t) :
    t.contents = s.contents ++ range.bytes ↔
      ∀ i, pool.memory.contains (range.buffer.blobAt i).data = false → range.lengthIn i < 2 ^ 32 := by
  obtain ⟨cut, parts⟩ := bounds.parts_cut valid
  have bytes : (range.parts.map ConstBlob.bytes).flatten = range.bytes := by
    rw [cut.1, Range.bytes, List.drop_take]
    rfl
  rw [ready.writeRange_contents valid bounds run, List.append_cancel_left_eq, ← bytes,
    written_flatten_iff pool.memory parts, bounds.parts_small valid pool.memory (by decide)]

end OutputBuffer

namespace InputBuffer

/-- Reading takes exactly these bytes, and then nothing more. -/
def Yields (s : InputBuffer) (bytes : List Byte) : Prop :=
  ∃ t, readBytes bytes.length s = .ok bytes t ∧ ∀ n, 0 < n → readBytes n t = .error .outOfRange t

theorem Invariant.yields_iff {s : InputBuffer} (inv : s.Invariant) {bytes : List Byte} :
    s.Yields bytes ↔ s.remaining = bytes := by
  constructor
  · rintro ⟨t, run, exhausted⟩
    rcases readMultiple_spec inv bytes.length (fun n s => s.load s.ptr n) with
      ⟨available, parts, t', run', same, moved, inv', _, loaded⟩ | ⟨_, failed⟩
    · rw [readBytes, run'] at run
      cases run
      have ended := exhausted 1 (by decide)
      rcases readBytes_takes inv' 1 with ⟨_, value, u, again, _⟩ | ⟨none, _⟩
      · rw [again] at ended
        cases ended
      · have rest := remaining_drop same moved
        have length := congrArg List.length rest
        rw [List.length_drop] at length
        have whole : s.remaining.take bytes.length = s.remaining := List.take_of_length_le (by omega)
        exact (whole.symm.trans (loaded rfl).symm)
    · rw [readBytes, failed] at run
      cases run
  · rintro rfl
    rcases readMultiple_spec inv s.remaining.length (fun n s => s.load s.ptr n) with
      ⟨_, parts, t, run, same, moved, inv', _, loaded⟩ | ⟨short, _⟩
    · refine ⟨t, ?_, fun n positive => ?_⟩
      · rw [readBytes, run, loaded rfl, List.take_length]
      · have rest := remaining_drop same moved
        rw [List.drop_length] at rest
        rcases readBytes_takes inv' n with ⟨available, _⟩ | ⟨_, failed⟩
        · rw [rest] at available
          simp at available
          omega
        · exact failed
    · omega

/-- The flat position that a cursor is encoded as. -/
def encoded (s : InputBuffer) : Nat := start s.buffer.segments s.blob + s.blobOffset

theorem Inside.blobOffset_eq {s : InputBuffer} (bounded : s.Bounded) {o : Nat} (inside : s.Inside o) :
    s.blobOffset = o := by
  have limit := bounded.blobLength_le s.blob
  have small := (bounded.valid.blobAt s.blob).size_lt
  have fits := inside.fits
  unfold blobOffset
  rw [inside.isEof, if_neg (by decide), inside.ptr, Ptr.sub, Ptr.add_offset]
  unfold sizeT
  omega

theorem AtEnd.blobOffset_eq {s : InputBuffer} (atEnd : s.AtEnd) : s.blobOffset = 0 := by
  rw [blobOffset, atEnd.isEof, if_pos rfl]

/-- Only a cursor at the end of a cut-off input is encoded elsewhere. -/
theorem Invariant.encoded_eq {s : InputBuffer} (inv : s.Invariant) :
    s.encoded = if s.isEof then start s.buffer.segments s.blobEnd else s.pos := by
  rcases inv.cursor with atEnd | ⟨o, inside, _, _⟩
  · rw [encoded, atEnd.blobOffset_eq, atEnd.isEof, if_pos rfl, atEnd.blob, Nat.add_zero]
  · rw [encoded, inside.blobOffset_eq inv.bounded, inside.isEof, if_neg (by decide), inside.pos]

def consumed (first last : InputBuffer) : List Byte := first.remaining.take (last.pos - first.pos)

def consumedIn (first last : InputBuffer) (i : Nat) : Nat :=
  min (start first.buffer.segments (i + 1)) last.pos - max (start first.buffer.segments i) first.pos

theorem Advances.atEnd {s t : InputBuffer} (later : s.Advances t) (inv : s.Invariant) (atEnd : s.AtEnd) :
    t.AtEnd := by
  have settled := later.settled ⟨inv.bounded, Or.inl atEnd⟩
  have ended : t.isEof = true := by
    have := later.forward
    have := later.invariant.pos_le_stop
    have := atEnd.pos
    have := later.same.stop
    exact settled.isEof_iff.2 (by omega)
  rcases settled.cursor with atEnd | ⟨o, inside, _⟩
  · exact atEnd
  · rw [inside.isEof] at ended
    cases ended

theorem getBufferRange_wellFormed_of_le {first last : InputBuffer} (inv : first.Invariant) (inv' : last.Invariant)
    (same : last.buffer = first.buffer)
    (order : first.blob < last.blob ∨ first.blob = last.blob ∧ first.blobOffset ≤ last.blobOffset) :
    (getBufferRange first last).WellFormed := by
  have place : ∀ {s : InputBuffer}, s.Invariant → s.blob ≤ s.buffer.blobs.length ∧
      (s.blobOffset = 0 ∨ s.blobOffset < (s.buffer.blobAt s.blob).size) := by
    intro s inv
    have limit := inv.bounded.blobEnd_le
    rcases inv.cursor with atEnd | ⟨o, inside, before, _⟩
    · exact ⟨atEnd.blob ▸ limit, Or.inl atEnd.blobOffset_eq⟩
    · rw [inside.blobOffset_eq inv.bounded]
      exact ⟨Nat.le_trans (Nat.le_of_lt inside.blob_lt) limit, Or.inr before⟩
  obtain ⟨_, firstOffset⟩ := place inv
  obtain ⟨lastBlob_le, lastOffset⟩ := place inv'
  rw [same] at lastBlob_le lastOffset
  have first_le : first.blobOffset ≤ (first.buffer.blobAt first.blob).size := by omega
  have last_le : last.blobOffset ≤ (first.buffer.blobAt last.blob).size := by omega
  exact ⟨⟨order, lastBlob_le, first_le, last_le⟩, firstOffset⟩

theorem Advances.ordered {first last : InputBuffer} (inv : first.Invariant) (later : first.Advances last) :
    first.blob < last.blob ∨ first.blob = last.blob ∧ first.blobOffset ≤ last.blobOffset := by
  have buffer := later.same.buffer
  have blobEnd := later.same.blobEnd
  rcases inv.cursor with atEnd | ⟨o, inside, _, _⟩
  · have ended := later.atEnd inv atEnd
    refine Or.inr ⟨?_, ?_⟩
    · rw [atEnd.blob, ended.blob, blobEnd]
    · rw [atEnd.blobOffset_eq]
      exact Nat.zero_le _
  · have blob_lt := inside.blob_lt
    have firstPos := inside.pos
    rcases later.invariant.cursor with ended | ⟨o', inside', before', _⟩
    · rw [ended.blob, blobEnd]
      exact Or.inl blob_lt
    · have lastPos := inside'.pos
      have forward := later.forward
      rw [current, buffer] at before'
      rw [buffer] at lastPos
      have next := inv.bounded.valid.start_succ last.blob
      rw [inside.blobOffset_eq inv.bounded, inside'.blobOffset_eq later.invariant.bounded]
      rcases Nat.lt_trichotomy first.blob last.blob with less | same | more
      · exact Or.inl less
      · rw [same] at firstPos
        exact Or.inr ⟨same, by omega⟩
      · have order := start_mono first.buffer.segments (show last.blob + 1 ≤ first.blob from more)
        omega

/-- The range between two cursors of one input is well formed again. -/
theorem getBufferRange_wellFormed {first last : InputBuffer} (inv : first.Invariant)
    (later : first.Advances last) : (getBufferRange first last).WellFormed :=
  getBufferRange_wellFormed_of_le inv later.invariant later.same.buffer (later.ordered inv)

theorem getBufferRange_positions {first last : InputBuffer} (later : first.Advances last) :
    (getBufferRange first last).startPos = first.encoded ∧ (getBufferRange first last).stopPos = last.encoded := by
  refine ⟨rfl, ?_⟩
  rw [encoded, later.same.buffer]
  rfl

theorem getBufferRange_bytes {first last : InputBuffer} (later : first.Advances last) :
    (getBufferRange first last).bytes =
      (first.buffer.bytes.drop first.encoded).take (last.encoded - first.encoded) := by
  rw [Range.bytes, (getBufferRange_positions later).1, (getBufferRange_positions later).2]
  rfl

theorem Bounded.stop_eq_iff {s : InputBuffer} (bounded : s.Bounded) :
    s.stop ≤ start s.buffer.segments s.blobEnd ∧
      (start s.buffer.segments s.blobEnd = s.stop ↔
        s.lastOffset = 0 ∨ s.lastOffset = (s.buffer.blobAt (s.blobEnd - 1)).size) := by
  unfold InputBuffer.stop
  by_cases cut : s.lastOffset = 0
  · simp [cut]
  · obtain ⟨positive, limit⟩ := bounded.last cut
    have next := bounded.valid.start_succ (s.blobEnd - 1)
    rw [Nat.sub_add_cancel positive] at next
    rw [if_pos cut]
    omega

theorem consumed_eq {first last : InputBuffer} (later : first.Advances last) :
    consumed first last = (first.buffer.bytes.drop first.pos).take (last.pos - first.pos) := by
  have := later.invariant.pos_le_stop
  have := later.same.stop
  rw [consumed, remaining_take (by have := later.forward; omega)]
  rfl

/-- The range denotes what was consumed unless it ends at the end of a cut-off input. -/
theorem getBufferRange_bytes_iff {first last : InputBuffer} (inv : first.Invariant)
    (later : first.Advances last) :
    (getBufferRange first last).bytes = consumed first last ↔
      first.isEof = true ∨ last.isEof = false ∨ first.lastOffset = 0 ∨
        first.lastOffset = (first.buffer.blobAt (first.blobEnd - 1)).size := by
  have buffer := later.same.buffer
  have firstEncoded := inv.encoded_eq
  have lastEncoded := later.invariant.encoded_eq
  rw [consumed_eq later, getBufferRange_bytes later]
  cases atEnd : first.isEof with
  | true =>
    have ended : first.AtEnd := by
      rcases inv.cursor with ended | ⟨o, inside, _, _⟩
      · exact ended
      · rw [inside.isEof] at atEnd
        cases atEnd
    have lastEnded := later.atEnd inv ended
    have order := later.forward
    have same : first.encoded = last.encoded := by
      rw [firstEncoded, lastEncoded, atEnd, lastEnded.isEof, if_pos rfl, if_pos rfl, buffer, later.same.blobEnd]
    have samePos : last.pos = first.pos := by rw [lastEnded.pos, ended.pos, later.same.stop]
    refine iff_of_true ?_ (Or.inl rfl)
    rw [same, samePos]
    simp
  | false =>
    rw [atEnd, if_neg (by decide)] at firstEncoded
    cases lastAtEnd : last.isEof with
    | false =>
      rw [lastAtEnd, if_neg (by decide)] at lastEncoded
      rw [firstEncoded, lastEncoded]
      exact iff_of_true rfl (Or.inr (Or.inl rfl))
    | true =>
      rw [lastAtEnd, if_pos rfl, buffer, later.same.blobEnd] at lastEncoded
      have lastPos : last.pos = first.stop := by rw [InputBuffer.pos, lastAtEnd, if_pos rfl, later.same.stop]
      obtain ⟨stop_le, exact_iff⟩ := inv.bounded.stop_eq_iff
      have pos_le := inv.pos_le_stop
      have total : start first.buffer.segments first.blobEnd ≤ first.buffer.bytes.length := start_le_length _ _
      rw [firstEncoded, lastEncoded, lastPos]
      simp only [Bool.false_eq_true, Bool.true_eq_false, false_or]
      rw [← exact_iff]
      constructor
      · intro same
        have lengths := congrArg List.length same
        simp only [List.length_take, List.length_drop] at lengths
        omega
      · intro same
        rw [same]

theorem getBufferRange_lengthIn {first last : InputBuffer} (inv : first.Invariant) (later : first.Advances last)
    (exact : (getBufferRange first last).bytes = consumed first last) (i : Nat) :
    (getBufferRange first last).lengthIn i = consumedIn first last i := by
  obtain ⟨startPos, stopPos⟩ := getBufferRange_positions later
  have buffer := later.same.buffer
  have firstEncoded := inv.encoded_eq
  have lastEncoded := later.invariant.encoded_eq
  have forward := later.forward
  have unfolded : (getBufferRange first last).lengthIn i =
      min (start first.buffer.segments (i + 1)) last.encoded - max (start first.buffer.segments i) first.encoded := by
    rw [Range.lengthIn, startPos, stopPos]
    rfl
  rw [unfolded, consumedIn]
  cases atEnd : first.isEof with
  | true =>
    have ended : first.AtEnd := by
      rcases inv.cursor with ended | ⟨o, inside, _, _⟩
      · exact ended
      · rw [inside.isEof] at atEnd
        cases atEnd
    have lastEnded := later.atEnd inv ended
    rw [atEnd, if_pos rfl] at firstEncoded
    rw [lastEnded.isEof, if_pos rfl, buffer, later.same.blobEnd] at lastEncoded
    have firstPos := ended.pos
    have lastPos := lastEnded.pos
    have stop := later.same.stop
    omega
  | false =>
    rw [atEnd, if_neg (by decide)] at firstEncoded
    have lengths := congrArg List.length exact
    rw [consumed_eq later, getBufferRange_bytes later] at lengths
    simp only [List.length_take, List.length_drop] at lengths
    have total := later.invariant.bounded.stop_le_length
    have last_le := later.invariant.pos_le_stop
    rw [buffer] at total
    have encoded_le : last.encoded ≤ first.buffer.bytes.length ∧ last.pos ≤ last.encoded := by
      rw [lastEncoded]
      split
      · have stop_le := later.invariant.bounded.stop_eq_iff.1
        rw [buffer] at stop_le ⊢
        exact ⟨start_le_length _ _, by omega⟩
      · omega
    rw [show last.encoded = last.pos by omega, firstEncoded]

end InputBuffer

open InputBuffer OutputBuffer in
/-- A range between two cursors is well formed again, so it may itself be read and cut further.
It stands for exactly what was consumed when no cursor at the end of a cut-off input is
encoded, and it is copied in full when no piece to be copied is too long. -/
theorem getBufferRange_exact_iff (bond : BondCodec) (input : Input) (formed : input.WellFormed)
    {first last : InputBuffer} (reach : Reachable bond input.opened first) (later : Reachable bond first last)
    (pool : BufferPool) {s t : OutputBuffer} (target : Reached pool s)
    (run : writeRange pool (getBufferRange first last) s = .ok () t) :
    (Input.ofRange (getBufferRange first last)).WellFormed ∧
    (((ofRange (getBufferRange first last)).Yields (consumed first last) ∧
        (∀ other, (createInputBuffer other (getBufferRange first last)).Yields (consumed first last)) ∧
        t.contents = s.contents ++ consumed first last) ↔
      (first.isEof = true ∨ last.isEof = false ∨ first.lastOffset = 0 ∨
        first.lastOffset = (first.buffer.blobAt (first.blobEnd - 1)).size) ∧
      ∀ i, pool.memory.contains (first.buffer.blobAt i).data = false → consumedIn first last i < 2 ^ 32) := by
  have inv := (reach.spec (Input.opened_spec formed).1).invariant
  have advances := later.spec inv
  have valid : (getBufferRange first last).buffer.Valid := inv.bounded.valid
  have wellFormed := getBufferRange_wellFormed inv advances
  refine ⟨⟨valid, wellFormed⟩, ?_⟩
  have created : ∀ other, createInputBuffer other (getBufferRange first last) =
      ofRange (getBufferRange first last) := fun _ => rfl
  have yields : (ofRange (getBufferRange first last)).Yields (consumed first last) ↔
      (getBufferRange first last).bytes = consumed first last := by
    rw [(ofRange_spec valid wellFormed).1.yields_iff]
    exact Eq.congr_left (Input.opened_remaining
      (show (Input.ofRange (getBufferRange first last)).WellFormed from ⟨valid, wellFormed⟩))
  have full := target.ready.writeRange_full_iff valid wellFormed.toInBounds run
  simp only [created, yields]
  rw [← getBufferRange_bytes_iff inv advances]
  constructor
  · rintro ⟨exact, _, all⟩
    refine ⟨exact, fun i outside => ?_⟩
    rw [← getBufferRange_lengthIn inv advances exact]
    exact full.1 (by rwa [exact]) i outside
  · rintro ⟨exact, small⟩
    refine ⟨exact, fun _ => exact, ?_⟩
    rw [← exact]
    refine full.2 fun i outside => ?_
    rw [getBufferRange_lengthIn inv advances exact]
    exact small i outside

def cutInput : Input := .ofRange ⟨⟨some [⟨some ⟨1, [0, 1, 2, 3, 4, 5, 6, 7, 8, 9]⟩, 0, 10⟩]⟩, 0, 0, 0, 5⟩

open InputBuffer OutputBuffer in
/-- Between two cursors inside the cut-off input the range is exact. -/
theorem getBufferRange_exact_inside :
    let first := ReadOp.after sevenBitCodec cutInput.opened (.bytes 1)
    let last := ReadOp.after sevenBitCodec first (.bytes 3)
    ∃ s t, writeRange (simplePool 4 0) (getBufferRange first last) s = .ok () t ∧
      (ofRange (getBufferRange first last)).Yields [1, 2, 3] ∧ t.contents = s.contents ++ [1, 2, 3] := by
  intro first last
  have returned : returns (fun _ => true) ((do
      setUp (simplePool 4 0) sevenBitCodec []
      writeRange (simplePool 4 0) (getBufferRange first last) : Writer Unit) (members 1)) = true := by decide +kernel
  obtain ⟨_, t, run, _⟩ := exists_of_returns _ returned
  obtain ⟨_, s, made, wrote⟩ := bind_ok.1 run
  have formed : cutInput.WellFormed := ⟨by decide, by decide⟩
  have consumed : consumed first last = [1, 2, 3] := by decide
  obtain ⟨yields, _, contents⟩ := (getBufferRange_exact_iff sevenBitCodec cutInput formed
    (.step .origin (.bytes 1)) (.step .origin (.bytes 3)) (simplePool 4 0)
    ⟨sevenBitCodec, 1, [], by simp, made⟩ wrote).2.2
    ⟨by decide, fun i _ => Nat.lt_of_le_of_lt (Nat.sub_le _ _)
      (Nat.lt_of_le_of_lt (Nat.min_le_right _ _) (by decide))⟩
  rw [consumed] at yields contents
  exact ⟨s, t, wrote, yields, contents⟩

open InputBuffer in
/-- At the end of the cut-off input the range runs on to the end of the blob. -/
theorem getBufferRange_not_exact_at_end :
    let first := cutInput.opened
    let last := ReadOp.after sevenBitCodec first (.bytes 5)
    cutInput.WellFormed ∧ Reachable sevenBitCodec cutInput.opened first ∧ Reachable sevenBitCodec first last ∧
      consumed first last = [0, 1, 2, 3, 4] ∧
      (ofRange (getBufferRange first last)).remaining = [0, 1, 2, 3, 4, 5, 6, 7, 8, 9] ∧
      ¬ (ofRange (getBufferRange first last)).Yields (consumed first last) := by
  intro first last
  have formed : cutInput.WellFormed := ⟨by decide, by decide⟩
  have later : Reachable sevenBitCodec first last := .step .origin (.bytes 5)
  have inv := (Input.opened_spec formed).1
  have range := getBufferRange_wellFormed inv (later.spec inv)
  refine ⟨formed, .origin, later, by decide, by decide, fun yields => ?_⟩
  have remaining := (ofRange_spec inv.bounded.valid range).1.yields_iff.1 yields
  exact absurd remaining (by decide)

end IpcBond
