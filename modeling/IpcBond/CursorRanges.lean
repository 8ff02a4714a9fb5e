import IpcBond.EndOfInput
import IpcBond.BufferRange

/-! Cursors of one input as places in it. What `operator==` compares determines a cursor, and the ranges between
cursors one behind another fit together: a range may be cut at any cursor, and its parts passed on one by one. -/

namespace IpcBond
open Library.Segments Library.StateExcept

namespace InputBuffer

variable {s t : InputBuffer}

/-- A cursor is determined by its input, its position and whether it stands at the end. -/
theorem Invariant.unique (inv : s.Invariant) (inv' : t.Invariant) (same : s.SameInput t) (position : t.pos = s.pos)
    (flags : t.isEof = s.isEof) : t = s := by
  have cursor : t.ptr = s.ptr ∧ t.ptrEnd = s.ptrEnd ∧ t.blob = s.blob := by
    rcases inv.cursor with atEnd | ⟨o, inside, before, _⟩
    · rcases inv'.cursor with atEnd' | ⟨o', inside', _⟩
      · exact ⟨atEnd'.ptr.trans atEnd.ptr.symm, atEnd'.ptrEnd.trans atEnd.ptrEnd.symm,
          atEnd'.blob.trans (same.blobEnd.trans atEnd.blob.symm)⟩
      · rw [inside'.isEof, atEnd.isEof] at flags
        cases flags
    · rcases inv'.cursor with atEnd' | ⟨o', inside', before', _⟩
      · rw [inside.isEof, atEnd'.isEof] at flags
        cases flags
      · have here := inside.pos
        have there := inside'.pos
        have next := inv.bounded.valid.start_succ s.blob
        have next' := inv'.bounded.valid.start_succ t.blob
        rw [current] at before before'
        rw [same.buffer] at there next' before'
        have blob : t.blob = s.blob := segment_unique
          (show start s.buffer.segments t.blob ≤ s.pos by omega) (by omega) (by omega) (by omega)
        have offset : o' = o := by
          rw [blob] at there
          omega
        have current : t.current = s.current := by rw [InputBuffer.current, InputBuffer.current, same.buffer, blob]
        have length : t.blobLength t.blob = s.blobLength s.blob := by
          simp only [blobLength, same.lastOffset, same.blobEnd, same.buffer, blob]
        exact ⟨by rw [inside'.ptr, inside.ptr, current, offset],
          by rw [inside'.ptrEnd, inside.ptrEnd, current, length], blob⟩
  obtain ⟨ptr, ptrEnd, blob⟩ := cursor
  obtain ⟨buffer, blobEnd, lastOffset⟩ := same
  cases s
  cases t
  simp_all

theorem Invariant.eq_of_equal (inv : s.Invariant) (inv' : t.Invariant) (same : s.SameInput t)
    (equal : s.equal t = true) : t = s := by
  obtain ⟨ptr, blob, _, _⟩ := of_decide_eq_true equal
  have flags : t.isEof = s.isEof := by rw [inv'.flag, inv.flag, blob, same.blobEnd]
  refine inv.unique inv' same ?_ flags
  rw [pos, pos, flags, same.stop, same.buffer, blob, ptr, current, current, same.buffer, blob]

def rangesBetween : InputBuffer → List InputBuffer → List Range
  | _, [] => []
  | s, t :: rest => getBufferRange s t :: rangesBetween t rest

theorem Advances.encoded_le (inv : s.Invariant) (later : s.Advances t) : s.encoded ≤ t.encoded := by
  rw [inv.encoded_eq, later.invariant.encoded_eq, later.same.buffer, later.same.blobEnd]
  have forward := later.forward
  rcases inv.cursor with atEnd | ⟨o, inside, _⟩
  · rw [atEnd.isEof, (later.atEnd inv atEnd).isEof]
    exact Nat.le_refl _
  · rw [inside.isEof, if_neg (by decide)]
    split
    · have stop := inv.bounded.stop_eq_iff.1
      have covered := inv.pos_le_stop
      omega
    · exact forward

theorem Advances.isEmpty_iff {t : InputBuffer} (inv : s.Invariant) (later : s.Advances t) :
    (getBufferRange s t).isEmpty = true ↔ s = t := by
  have buffer := later.same.buffer
  have blobEnd := later.same.blobEnd
  rw [Range.isEmpty_iff]
  constructor
  · rintro ⟨blob, offset⟩
    change s.blob = t.blob at blob
    change s.blobOffset = t.blobOffset at offset
    refine (inv.unique later.invariant later.same ?_ ?_).symm
    · rcases inv.cursor with atEnd | ⟨o, inside, _⟩
      · rw [(later.atEnd inv atEnd).pos, atEnd.pos, later.same.stop]
      · rcases later.invariant.cursor with ended | ⟨o', inside', _⟩
        · have within := inside.blob_lt
          rw [blob, ended.blob, blobEnd] at within
          exact absurd within (Nat.lt_irrefl _)
        · rw [inside.blobOffset_eq inv.bounded, inside'.blobOffset_eq later.invariant.bounded] at offset
          rw [inside.pos, inside'.pos, buffer, blob, offset]
    · rw [later.invariant.flag, inv.flag, blob, blobEnd]
  · rintro rfl
    exact ⟨rfl, rfl⟩

theorem Invariant.encoded_le (inv : s.Invariant) : s.encoded ≤ s.buffer.bytes.length := by
  rw [inv.encoded_eq]
  split
  · exact start_le_length _ _
  · exact Nat.le_trans inv.pos_le_stop inv.bounded.stop_le_length

theorem Settled.eq_of_pos {t : InputBuffer} (settled : s.Settled) (later : s.Advances t) (position : t.pos = s.pos) :
    s = t := by
  refine (settled.invariant.unique later.invariant later.same position ?_).symm
  rw [Bool.eq_iff_iff, (later.settled settled).isEof_iff, settled.isEof_iff, position, later.same.stop]

theorem Settled.eq_of_encoded {t : InputBuffer} (settled : s.Settled) (later : s.Advances t)
    (encoded : t.encoded = s.encoded) : s = t := by
  have inv := settled.invariant
  refine settled.eq_of_pos later ?_
  rw [inv.encoded_eq, later.invariant.encoded_eq, later.same.buffer, later.same.blobEnd] at encoded
  have bound := inv.bounded.stop_eq_iff.1
  have covered := inv.pos_le_stop
  have flag := settled.isEof_iff
  have flag' := (later.settled settled).isEof_iff
  have stop := later.same.stop
  have forward := later.forward
  cases known : s.isEof with
  | true =>
    have covered' := later.invariant.pos_le_stop
    have atStop := flag.1 known
    omega
  | false =>
    cases ended : t.isEof with
    | true =>
      rw [known, ended, if_pos rfl, if_neg (by decide)] at encoded
      have atStop := flag.2 (by omega)
      rw [known] at atStop
      cases atStop
    | false =>
      rw [known, ended, if_neg (by decide), if_neg (by decide)] at encoded
      exact encoded

/-- A range is cut in two at a cursor, however the end of the input is encoded. -/
theorem Advances.split {u : InputBuffer} (inv : s.Invariant) (first : s.Advances t) (second : t.Advances u) :
    (getBufferRange s u).bytes = (getBufferRange s t).bytes ++ (getBufferRange t u).bytes := by
  have order := first.encoded_le inv
  have order' := second.encoded_le first.invariant
  rw [getBufferRange_bytes (first.trans second), getBufferRange_bytes first, getBufferRange_bytes second,
    first.same.buffer, show u.encoded - s.encoded = (t.encoded - s.encoded) + (u.encoded - t.encoded) by omega,
    List.take_add, List.drop_drop, Nat.add_sub_cancel' order]

theorem rangesBetween_bytes {bond : BondCodec} (inv : s.Invariant) {cursors : List InputBuffer}
    (chain : List.IsChain (Reachable bond) (s :: cursors)) :
    s.Advances (cursors.getLastD s) ∧
      (rangesBetween s cursors).flatMap Range.bytes = (getBufferRange s (cursors.getLastD s)).bytes := by
  induction cursors generalizing s with
  | nil =>
    refine ⟨.refl inv, ?_⟩
    change [] = (getBufferRange s s).bytes
    rw [getBufferRange_bytes (.refl inv), Nat.sub_self, List.take_zero]
  | cons t rest ih =>
    obtain ⟨reach, later⟩ := List.isChain_cons_cons.1 chain
    have first := reach.spec inv
    obtain ⟨others, joined⟩ := ih first.invariant later
    rw [List.getLastD_cons]
    refine ⟨first.trans others, ?_⟩
    rw [rangesBetween, List.flatMap_cons, joined, first.split inv others]

theorem rangesBetween_wellFormed {bond : BondCodec} (inv : s.Invariant) {cursors : List InputBuffer}
    (chain : List.IsChain (Reachable bond) (s :: cursors)) :
    ∀ range ∈ rangesBetween s cursors, range.buffer = s.buffer ∧ range.WellFormed := by
  induction cursors generalizing s with
  | nil => simp [rangesBetween]
  | cons t rest ih =>
    obtain ⟨reach, later⟩ := List.isChain_cons_cons.1 chain
    have first := reach.spec inv
    rw [rangesBetween, List.forall_mem_cons]
    refine ⟨⟨rfl, getBufferRange_wellFormed inv first⟩, fun range member => ?_⟩
    obtain ⟨buffer, formed⟩ := ih first.invariant later range member
    exact ⟨buffer.trans first.same.buffer, formed⟩

end InputBuffer

theorem Range.InBounds.copyable {range : Range} (bounds : range.InBounds) (valid : range.buffer.Valid)
    (memory : SharedMemory) (small : ∀ blob ∈ range.buffer.blobs, blob.size < 2 ^ 32) :
    (OutputBuffer.WriteOp.range range).Copyable memory := by
  intro part member
  refine (bounds.parts_small valid memory (by decide)).2 (fun i _ => ?_) part member
  exact Nat.lt_of_le_of_lt (Range.lengthIn_le range valid i) (ConstBuffer.blobAt_size_lt (by decide) small i)

open InputBuffer in
/-- Cursors of one input compare equal exactly when they stand at one position and agree on the end, and then they
agree in all members. Where the input was not opened empty inside a blob, the position alone decides. -/
theorem cursors_equal_iff (bond : BondCodec) (input : Input) (formed : input.WellFormed) {s t : InputBuffer}
    (reach : Reachable bond input.opened s) (reach' : Reachable bond input.opened t) :
    (s.equal t = true ↔ s.pos = t.pos ∧ s.isEof = t.isEof) ∧ (s.equal t = true → s = t) ∧
      (input.opened.Settled → (s.equal t = true ↔ s.pos = t.pos)) := by
  obtain ⟨inv, _⟩ := Input.opened_spec formed
  have toFirst := reach.spec inv
  have toSecond := reach'.spec inv
  have same : t.SameInput s := by
    obtain ⟨buffer, blobEnd, lastOffset⟩ := toFirst.same
    obtain ⟨buffer', blobEnd', lastOffset'⟩ := toSecond.same
    exact ⟨buffer.trans buffer'.symm, blobEnd.trans blobEnd'.symm, lastOffset.trans lastOffset'.symm⟩
  have reflexive : s.equal s = true := decide_eq_true ⟨rfl, rfl, rfl, rfl⟩
  have whole : s.equal t = true → s = t := by
    intro equal
    obtain ⟨ptr, blob, blobEnd, lastOffset⟩ := of_decide_eq_true equal
    exact toSecond.invariant.eq_of_equal toFirst.invariant same
      (decide_eq_true ⟨ptr.symm, blob.symm, blobEnd.symm, lastOffset.symm⟩)
  have place : s.equal t = true ↔ s.pos = t.pos ∧ s.isEof = t.isEof := by
    constructor
    · intro equal
      cases whole equal
      exact ⟨rfl, rfl⟩
    · rintro ⟨position, flags⟩
      rw [← toSecond.invariant.unique toFirst.invariant same position flags]
      exact reflexive
  refine ⟨place, whole, fun settled => place.trans ⟨And.left, fun position => ⟨position, ?_⟩⟩⟩
  have first := (toFirst.settled settled).isEof_iff
  have second := (toSecond.settled settled).isEof_iff
  rw [Bool.eq_iff_iff, first, second, position, same.stop]

open InputBuffer in
/-- Over a range that cuts its last blob, the cursor after one read and the cursor after two others. -/
theorem cursors_equal_cut :
    let s := ReadOp.after sevenBitCodec cutInput.opened (.bytes 3)
    let t := ReadOp.after sevenBitCodec (ReadOp.after sevenBitCodec cutInput.opened (.value 2)) (.skip 1)
    s.equal t = true ∧ s = t := by
  intro s t
  have reach : Reachable sevenBitCodec cutInput.opened s := .step .origin _
  have reach' : Reachable sevenBitCodec cutInput.opened t := .step (.step .origin _) _
  obtain ⟨place, whole, _⟩ := cursors_equal_iff sevenBitCodec cutInput ⟨by decide, by decide⟩ reach reach'
  have equal := place.2 (by decide)
  exact ⟨equal, whole equal⟩

open InputBuffer in
/-- A range between two cursors is empty exactly when they are one cursor. Where the input was not opened empty inside a
blob, that is when nothing was read between them, and when the range denotes nothing. -/
theorem range_empty_iff (bond : BondCodec) (input : Input) (formed : input.WellFormed) {first last : InputBuffer}
    (reach : Reachable bond input.opened first) (later : Reachable bond first last) :
    ((getBufferRange first last).isEmpty = true ↔ first = last) ∧
      (input.opened.Settled →
        ((getBufferRange first last).isEmpty = true ↔ consumed first last = []) ∧
          ((getBufferRange first last).isEmpty = true ↔ (getBufferRange first last).bytes = [])) := by
  obtain ⟨opened, _⟩ := Input.opened_spec formed
  have toFirst := reach.spec opened
  have inv := toFirst.invariant
  have advances := later.spec inv
  have empty := advances.isEmpty_iff inv
  refine ⟨empty, fun start => ?_⟩
  have settled := toFirst.settled start
  rw [empty, getBufferRange_bytes advances]
  constructor
  · constructor
    · rintro rfl
      rw [consumed, Nat.sub_self, List.take_zero]
    · intro none
      have lengths := congrArg List.length none
      rw [consumed, List.length_take, inv.remaining_length, List.length_nil] at lengths
      have covered := advances.invariant.pos_le_stop
      have stop := advances.same.stop
      have forward := advances.forward
      exact settled.eq_of_pos advances (by omega)
  · constructor
    · rintro rfl
      rw [Nat.sub_self, List.take_zero]
    · intro none
      have lengths := congrArg List.length none
      simp only [List.length_take, List.length_drop, List.length_nil] at lengths
      have within := advances.invariant.encoded_le
      rw [advances.same.buffer] at within
      have order := advances.encoded_le inv
      exact settled.eq_of_encoded advances (by omega)

open InputBuffer in
/-- Over a range that cuts its last blob: empty between two cursors at its end, not empty up to the end. -/
theorem range_empty_cut :
    let first := ReadOp.after sevenBitCodec cutInput.opened (.bytes 4)
    let last := ReadOp.after sevenBitCodec first (.skip 1)
    (getBufferRange first last).isEmpty = false ∧ consumed first last ≠ [] ∧
      (getBufferRange last (ReadOp.after sevenBitCodec last (.skip 1))).isEmpty = true := by
  intro first last
  have reach : Reachable sevenBitCodec cutInput.opened first := .step .origin _
  have later : Reachable sevenBitCodec first last := .step .origin _
  have formed : cutInput.WellFormed := ⟨by decide, by decide⟩
  have settled : cutInput.opened.Settled := by
    rw [Input.opened_settled_iff formed]
    decide
  have nonempty : (getBufferRange first last).isEmpty = false := by decide
  obtain ⟨_, read⟩ := range_empty_iff sevenBitCodec cutInput formed reach later
  refine ⟨nonempty, fun none => ?_, ?_⟩
  · have empty := (read settled).1.2 none
    rw [nonempty] at empty
    cases empty
  · exact (range_empty_iff sevenBitCodec cutInput formed (.step reach _) (.step .origin (.skip 1))).1.2 (by decide)

open InputBuffer OutputBuffer in
/-- Ranges compose: those between cursors one behind another denote what the range from the first to the last does,
also where its end is encoded as that of its blob; and written one by one they append what it appends. -/
theorem ranges_compose (bond : BondCodec) (input : Input) (formed : input.WellFormed) {first : InputBuffer}
    (reach : Reachable bond input.opened first) {cursors : List InputBuffer}
    (chain : List.IsChain (Reachable bond) (first :: cursors)) :
    (rangesBetween first cursors).flatMap Range.bytes = (getBufferRange first (cursors.getLastD first)).bytes ∧
      ((∀ blob ∈ input.buffer.blobs, blob.size < 2 ^ 32) → ∀ pool s, Reached pool s → ∀ t u,
        runOps pool bond ((rangesBetween first cursors).map .range) s = .ok () t →
        writeRange pool (getBufferRange first (cursors.getLastD first)) s = .ok () u → t.contents = u.contents) := by
  obtain ⟨inv, buffer, _⟩ := Input.opened_spec formed
  have advances := reach.spec inv
  have source : first.buffer = input.buffer := advances.same.buffer.trans buffer
  have valid := advances.invariant.bounded.valid
  obtain ⟨later, joined⟩ := rangesBetween_bytes advances.invariant chain
  refine ⟨joined, fun small pool s reached t u parts all => ?_⟩
  have within := rangesBetween_wellFormed advances.invariant chain
  have ops : ∀ op ∈ (rangesBetween first cursors).map WriteOp.range, op.WellFormed ∧ op.Copyable pool.memory := by
    intro op member
    obtain ⟨range, inside, rfl⟩ := List.mem_map.1 member
    obtain ⟨same, formed⟩ := within range inside
    refine ⟨⟨by rwa [same], formed.toInBounds⟩, formed.toInBounds.copyable (by rwa [same]) _ ?_⟩
    rwa [same, source]
  have wrote := reached.ready.ops_append (fun op member => (ops op member).1) t parts
  have appended : t.contents = s.contents ++ ((rangesBetween first cursors).map WriteOp.range).flatMap WriteOp.bytes := by
    rw [contents, wrote.segments.1, List.flatten_append,
      WriteOp.pieces_flatMap (fun op member => (ops op member).1) fun op member => (ops op member).2]
    rfl
  rw [List.flatMap_map] at appended
  have short : ∀ blob ∈ first.buffer.blobs, blob.size < 2 ^ 32 := by rwa [source]
  have wholeFormed := getBufferRange_wellFormed advances.invariant later
  have wholeWritten := (reached.ready.writeRange_full_iff
    (show (getBufferRange first (cursors.getLastD first)).buffer.Valid from valid) wholeFormed.toInBounds all).2
    fun i _ => Nat.lt_of_le_of_lt (Range.lengthIn_le _ valid i)
      (ConstBuffer.blobAt_size_lt (by decide) short i)
  rw [appended, wholeWritten, ← joined]
  rfl

open InputBuffer OutputBuffer in
/-- Three parts of a range that cuts its last blob, up to its end and twice there, written one by one and as a whole. -/
theorem ranges_compose_cut :
    let first := cutInput.opened
    let second := ReadOp.after sevenBitCodec first (.skip 2)
    let third := ReadOp.after sevenBitCodec second (.skip 3)
    let parts := rangesBetween first [second, third, third]
    let pool := simplePool 4 0
    let s := finalState (setUp pool sevenBitCodec [.value [7]] (members 2))
    parts.flatMap Range.bytes = [0, 1, 2, 3, 4, 5, 6, 7, 8, 9] ∧
      (getBufferRange first third).bytes = [0, 1, 2, 3, 4, 5, 6, 7, 8, 9] ∧
      ∃ t u, runOps pool sevenBitCodec (parts.map .range) s = .ok () t ∧
        writeRange pool (getBufferRange first third) s = .ok () u ∧ t.contents = u.contents := by
  intro first second third parts pool s
  have chain : List.IsChain (Reachable sevenBitCodec) [first, second, third, third] := by
    have last : List.IsChain (Reachable sevenBitCodec) [third, third] :=
      List.isChain_cons_cons.2 ⟨.origin, .singleton third⟩
    exact List.isChain_cons_cons.2 ⟨.step .origin _, List.isChain_cons_cons.2 ⟨.step .origin _, last⟩⟩
  obtain ⟨joined, written⟩ := ranges_compose sevenBitCodec cutInput ⟨by decide, by decide⟩ .origin chain
  have bytes : (getBufferRange first third).bytes = [0, 1, 2, 3, 4, 5, 6, 7, 8, 9] := by decide
  have reached : Reached pool s := ⟨sevenBitCodec, 2, [.value [7]], by simp [WriteOp.WellFormed], rfl⟩
  obtain ⟨_, t, wrote, _⟩ := exists_of_returns (fun _ => true)
    (by decide +kernel : returns _ (runOps pool sevenBitCodec (parts.map .range) s) = true)
  obtain ⟨_, u, whole, _⟩ := exists_of_returns (fun _ => true)
    (by decide +kernel : returns _ (writeRange pool (getBufferRange first third) s) = true)
  have small : ∀ blob ∈ cutInput.buffer.blobs, blob.size < 2 ^ 32 := by decide
  exact ⟨joined.trans bytes, bytes, t, u, wrote, whole, written small pool s reached t u wrote whole⟩

end IpcBond
