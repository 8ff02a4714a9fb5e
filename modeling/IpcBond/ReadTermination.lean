import IpcBond.InputRefinement
import IpcBond.Library.Loop
import IpcBond.RangeParts

/-! The loop of `ReadMultiple` ends on every input. The offsets of a range may be malformed here: the cursor may
stand past the end of its blob, where the distance to the end wraps around as a `std::size_t`, and the end may lie
past the blob. -/

namespace IpcBond
open Library.StateExcept Library.Loop

/-- The iterators of a range are of its buffer, with an element at the last one where that is read. Nothing is
known of the offsets but the type of the last one. -/
structure Range.OverBuffer (range : Range) : Prop where
  ordered : range.firstBlob ≤ range.stopBlob
  stopBlob_le : range.stopBlob ≤ range.buffer.blobs.length
  lastOffset_lt : range.lastOffset < 2 ^ 64

namespace InputBuffer

def chunk (s : InputBuffer) (size : Nat) : Nat := min (sizeT (s.ptrEnd.sub s.ptr)) size

/-- The loop of `ReadMultiple`, from the bytes still to be read and the cursor to those after one iteration, or to
how the loop is left: at size zero, or by an exception. The callback does not change the cursor. -/
def readRound : Nat × InputBuffer → (Nat × InputBuffer) ⊕ EStateM.Result Error InputBuffer Unit
  | (size, s) =>
    if size = 0 then .inr (.ok () s)
    else match readSingle (s.chunk size) (fun _ => ()) s with
      | .ok _ t => .inl (size - s.chunk size, t)
      | .error e t => .inr (.error e t)

structure Anchored (s : InputBuffer) (o : Nat) : Prop where
  isEof : s.isEof = false
  blob_lt : s.blob < s.blobEnd
  ptr : s.ptr = s.current.data.add o
  ptrEnd : s.ptrEnd = s.current.data.add (s.blobLength s.blob)

structure Tracked (s : InputBuffer) : Prop where
  lastOffset_lt : s.lastOffset < 2 ^ 64
  cursor : s.AtEnd ∨ ∃ o, s.Anchored o

structure Onward (s t : InputBuffer) : Prop where
  same : s.SameInput t
  blob_le : s.blob ≤ t.blob
  tracked : t.Tracked

theorem Onward.refl {s : InputBuffer} (tracked : s.Tracked) : s.Onward s := ⟨.refl s, Nat.le_refl _, tracked⟩

theorem Onward.trans {s t u : InputBuffer} (first : s.Onward t) (second : t.Onward u) : s.Onward u :=
  ⟨first.same.trans second.same, Nat.le_trans first.blob_le second.blob_le, second.tracked⟩

theorem Tracked.flag {s : InputBuffer} (tracked : s.Tracked) : s.isEof = decide (s.blob = s.blobEnd) := by
  rcases tracked.cursor with atEnd | ⟨o, anchored⟩
  · rw [atEnd.isEof, decide_eq_true atEnd.blob]
  · have before := anchored.blob_lt
    rw [anchored.isEof, decide_eq_false (by omega)]

theorem Tracked.blob_le {s : InputBuffer} (tracked : s.Tracked) : s.blob ≤ s.blobEnd := by
  rcases tracked.cursor with atEnd | ⟨o, anchored⟩
  · exact Nat.le_of_eq atEnd.blob
  · exact Nat.le_of_lt anchored.blob_lt

theorem blobLength_lt {s : InputBuffer} (lastOffset_lt : s.lastOffset < 2 ^ 64) (i : Nat) :
    s.blobLength i < 2 ^ 64 := by
  unfold blobLength
  split
  · exact lastOffset_lt
  · unfold ConstBlob.size sizeT
    omega

theorem updateData_tracked {s : InputBuffer} (reached : s.blob ≤ s.blobEnd)
    (flag : s.isEof = decide (s.blob = s.blobEnd)) :
    s.SameInput s.updateData.2 ∧ s.blob ≤ s.updateData.2.blob ∧
      (s.updateData.1 = true ∧ s.updateData.2.Anchored 0 ∨ s.updateData.1 = false ∧ s.updateData.2.AtEnd) := by
  obtain ⟨j, after, _, ⟨before, _, result⟩ | ⟨_, result⟩⟩ := updateData_outcome reached
  · rw [result]
    refine ⟨⟨rfl, rfl, rfl⟩, after, Or.inl ⟨rfl, ?_, before, rfl, rfl⟩⟩
    simp only [flag, decide_eq_false_iff_not]
    omega
  · rw [result]
    exact ⟨⟨rfl, rfl, rfl⟩, reached, Or.inr ⟨rfl, rfl, rfl, rfl, rfl⟩⟩

theorem ofRange_tracked {range : Range} (iterators : range.OverBuffer) :
    (ofRange range).Tracked ∧ (ofRange range).buffer = range.buffer ∧ (ofRange range).blobEnd = range.stopBlob := by
  obtain ⟨same, _, ⟨found, anchored⟩ | ⟨ended, atEnd⟩⟩ :=
    updateData_tracked (s := members range.buffer range.firstBlob range.lastBlob range.lastOffset) iterators.ordered rfl
  all_goals
    have lastOffset_lt := iterators.lastOffset_lt
    unfold ofRange make
  · simp only [found, if_true]
    refine ⟨⟨same.lastOffset ▸ lastOffset_lt, Or.inr ⟨range.firstOffset, ?_⟩⟩, same.buffer, same.blobEnd⟩
    refine ⟨anchored.isEof, anchored.blob_lt, ?_, anchored.ptrEnd⟩
    simp only [anchored.ptr, Ptr.add_zero]
    rfl
  · simp only [ended, Bool.false_eq_true, if_false]
    exact ⟨⟨same.lastOffset ▸ lastOffset_lt, Or.inl atEnd⟩, same.buffer, same.blobEnd⟩

theorem endRead_tracked {s : InputBuffer} (tracked : s.Tracked) {o : Nat} (anchored : s.Anchored o) (n : Nat) :
    s.Onward (s.endRead (s.ptr.add n)) ∧
      (o + n = s.blobLength s.blob → s.blob < (s.endRead (s.ptr.add n)).blob) := by
  have before := anchored.blob_lt
  rw [endRead_outcome anchored.ptr anchored.ptrEnd]
  by_cases arrives : o + n = s.blobLength s.blob
  · rw [if_pos arrives]
    obtain ⟨same, moved, cursor⟩ :=
      updateData_tracked (s := { s with blob := s.blob + 1, isEof := s.blob + 1 = s.blobEnd }) before rfl
    have later : s.blob < s.moveNext.blob := moved
    refine ⟨⟨⟨same.buffer, same.blobEnd, same.lastOffset⟩, Nat.le_of_lt later, ?_, ?_⟩, fun _ => later⟩
    · exact same.lastOffset ▸ tracked.lastOffset_lt
    · rcases cursor with ⟨_, atFirst⟩ | ⟨_, atEnd⟩
      · exact Or.inr ⟨0, atFirst⟩
      · exact Or.inl atEnd
  · rw [if_neg arrives]
    constructor
    · refine ⟨⟨rfl, rfl, rfl⟩, Nat.le_refl _, tracked.lastOffset_lt, Or.inr ⟨o + n, ?_⟩⟩
      exact ⟨anchored.isEof, before, rfl, anchored.ptrEnd⟩
    · intro same
      exact absurd same arrives

theorem readSingle_tracked {α : Type} {s : InputBuffer} (tracked : s.Tracked) (n : Nat) (func : InputBuffer → α) :
    readSingle n func s = .error .outOfRange s ∨
      ∃ o t, s.Anchored o ∧ o + n ≤ s.blobLength s.blob ∧ readSingle n func s = .ok (func s) t ∧ s.Onward t ∧
        (o + n = s.blobLength s.blob → s.blob < t.blob) := by
  rw [readSingle_run]
  rcases tracked.cursor with atEnd | ⟨o, anchored⟩
  · exact Or.inl (by rw [if_pos (Or.inr atEnd.isEof)])
  · by_cases out : s.ptrEnd.offset < s.ptr.offset + n ∨ s.isEof = true
    · exact Or.inl (by rw [if_pos out])
    · have fits : o + n ≤ s.blobLength s.blob := by
        rw [anchored.ptr, anchored.ptrEnd] at out
        simp only [Ptr.add_offset] at out
        omega
      obtain ⟨onward, arrives⟩ := endRead_tracked tracked anchored n
      exact Or.inr ⟨o, _, anchored, fits, by rw [if_neg out], onward, arrives⟩

/-- An iteration throws where it stands, or it reads all that was left or moves on to a later blob: a cursor past
the end asks for more than there is, and any other for no more than up to the end. -/
theorem Tracked.readRound_spec {s : InputBuffer} (tracked : s.Tracked) {size : Nat} (more : size ≠ 0) :
    readRound (size, s) = .inr (.error .outOfRange s) ∨
      ∃ t, readRound (size, s) = .inl (size - s.chunk size, t) ∧ s.Onward t ∧
        (s.chunk size = size ∨ s.blob < t.blob) := by
  simp only [readRound, if_neg more]
  rcases readSingle_tracked tracked (s.chunk size) (fun _ => ()) with
    failed | ⟨o, t, anchored, fits, run, onward, arrives⟩
  · exact Or.inl (by rw [failed])
  · refine Or.inr ⟨t, by rw [run], onward, ?_⟩
    have distance : sizeT (s.ptrEnd.sub s.ptr) = s.blobLength s.blob - o := by
      have length_lt := blobLength_lt tracked.lastOffset_lt s.blob
      rw [Ptr.sub, anchored.ptr, anchored.ptrEnd, Ptr.add_offset, Ptr.add_offset]
      unfold sizeT
      omega
    by_cases all : s.chunk size = size
    · exact Or.inl all
    · refine Or.inr (arrives ?_)
      unfold chunk at all fits ⊢
      omega

/-- How many more iterations there can be: each blob that is left may take one, and one may end inside a blob. -/
def roundsLeft : Nat × InputBuffer → Nat
  | (size, s) => if size = 0 then 0 else s.blobEnd - s.blob + 1

theorem roundsLeft_le (size : Nat) (s : InputBuffer) : roundsLeft (size, s) ≤ s.blobEnd - s.blob + 1 := by
  simp only [roundsLeft]
  split <;> omega

theorem Onward.round {s : InputBuffer} {state next : Nat × InputBuffer} (onward : s.Onward state.2)
    (taken : readRound state = .inl next) : s.Onward next.2 ∧ roundsLeft next < roundsLeft state := by
  obtain ⟨size, t⟩ := state
  have tracked : t.Tracked := onward.tracked
  by_cases none : size = 0
  · subst none
    cases taken
  · rcases tracked.readRound_spec none with failed | ⟨u, run, step, progress⟩
    · rw [failed] at taken
      cases taken
    · rw [run] at taken
      cases taken
      have before := step.tracked.blob_le
      have blobEnd := step.same.blobEnd
      refine ⟨onward.trans step, ?_⟩
      simp only [roundsLeft, if_neg none]
      split
      · exact Nat.succ_pos _
      · omega

theorem Onward.rounds {s : InputBuffer} {n : Nat} {state last : Nat × InputBuffer} (onward : s.Onward state.2)
    (rounds : Rounds readRound n state last) : s.Onward last.2 :=
  rounds.invariant (fun _ _ onward taken => (Onward.round onward taken).1) onward

theorem readLoop_round (func : Nat → InputBuffer → List Byte) (fuel size : Nat) (s : InputBuffer) :
    readLoop func (fuel + 1) size s =
      match readRound (size, s) with
      | .inl (left, t) => ((func (s.chunk size) s ++ ·) <$> readLoop func fuel left) t
      | .inr (.ok _ t) => .ok [] t
      | .inr (.error e t) => .error e t := by
  by_cases none : size = 0
  · subst none
    rfl
  · rw [readLoop_succ func _ none, ← chunk, readSingle_run]
    simp only [readRound, if_neg none, readSingle_run]
    by_cases out : s.ptrEnd.offset < s.ptr.offset + s.chunk size ∨ s.isEof = true
    · simp only [if_pos out]
    · simp only [if_neg out, run_map]
      cases readLoop func fuel (size - s.chunk size) (s.endRead (s.ptr.add (s.chunk size))) <;> rfl

/-- The loop of the model goes through the same iterations. -/
theorem readLoop_rounds (func : Nat → InputBuffer → List Byte) {n : Nat} {state last : Nat × InputBuffer}
    (rounds : Rounds readRound n state last) (fuel : Nat) :
    ∃ parts, readLoop func (n + fuel) state.1 state.2 = ((parts ++ ·) <$> readLoop func fuel last.1) last.2 := by
  induction rounds with
  | none state =>
    refine ⟨[], ?_⟩
    rw [Nat.zero_add, run_map]
    cases readLoop func fuel state.1 state.2 <;> rfl
  | @round n state middle last first _ ih =>
    obtain ⟨rest, later⟩ := ih
    refine ⟨func (state.2.chunk state.1) state.2 ++ rest, ?_⟩
    rw [Nat.add_right_comm, readLoop_round, first, run_map]
    simp only [later, run_map]
    cases readLoop func fuel last.1 last.2 with
    | ok parts t => simp only [List.append_assoc]
    | error e t => rfl

theorem Tracked.readMultiple_ends {s : InputBuffer} (tracked : s.Tracked) (size : Nat)
    (func : Nat → InputBuffer → List Byte) :
    (∃ n t, n ≤ s.blobEnd - s.blob + 1 ∧ Rounds readRound n (size, s) (0, t) ∧
      ∃ parts, readMultiple size func s = .ok parts t) ∨
    ∃ n left t, n ≤ s.blobEnd - s.blob ∧ Rounds readRound n (size, s) (left, t) ∧
      readRound (left, t) = .inr (.error .outOfRange t) ∧ readMultiple size func s = .error .outOfRange s := by
  obtain ⟨n, ⟨left, t⟩, result, rounds, leaves, onward, bound⟩ :=
    exists_end roundsLeft (fun _ _ onward taken => Onward.round (s := s) onward taken) (s := (size, s)) (.refl tracked)
  have limit := roundsLeft_le size s
  rw [readMultiple_run]
  by_cases done : left = 0
  · subst done
    obtain ⟨parts, run⟩ := readLoop_rounds func rounds (size + (s.blobEnd - s.blob) + 1 - n)
    rw [Nat.add_sub_cancel' (by omega)] at run
    refine Or.inl ⟨n, t, by omega, rounds, parts, ?_⟩
    rw [run]
    simp [readLoop]
  · have thrown : readRound (left, t) = .inr (.error .outOfRange t) := by
      rcases onward.tracked.readRound_spec done with thrown | ⟨u, run, _⟩
      · exact thrown
      · rw [run] at leaves
        cases leaves
    have count : n ≤ s.blobEnd - s.blob := by
      simp only [roundsLeft, if_neg done] at bound limit
      omega
    obtain ⟨parts, run⟩ := readLoop_rounds func rounds (size + (s.blobEnd - s.blob) - n + 1)
    rw [← Nat.add_assoc, Nat.add_sub_cancel' (Nat.le_trans count (Nat.le_add_left _ _))] at run
    refine Or.inr ⟨n, left, t, count, rounds, thrown, ?_⟩
    rw [run, run_map, readLoop_round, thrown]
    simp only [restored tracked.flag onward.same]

theorem readSingle_onward {α : Type} {s : InputBuffer} (tracked : s.Tracked) (n : Nat) (func : InputBuffer → α) :
    s.Onward (finalState (readSingle n func s)) := by
  rcases readSingle_tracked tracked n func with failed | ⟨o, t, _, _, run, onward, _⟩
  · rw [failed]
    exact .refl tracked
  · rw [run]
    exact onward

theorem readMultiple_onward {s : InputBuffer} (tracked : s.Tracked) (size : Nat)
    (func : Nat → InputBuffer → List Byte) : s.Onward (finalState (readMultiple size func s)) := by
  rcases tracked.readMultiple_ends size func with ⟨n, t, _, rounds, parts, run⟩ | ⟨n, left, t, _, _, _, run⟩
  · rw [run]
    exact Onward.rounds (.refl tracked) rounds
  · rw [run]
    exact .refl tracked

theorem readVariableUnsigned_onward (bond : BondCodec) (width : Width) {s : InputBuffer} (tracked : s.Tracked) :
    s.Onward (finalState (readVariableUnsigned bond width s)) := by
  rw [readVariableUnsigned_run]
  split
  · next fast =>
    rcases tracked.cursor with atEnd | ⟨o, anchored⟩
    · rw [atEnd.ptr, atEnd.ptrEnd] at fast
      cases fast
    · exact (endRead_tracked tracked anchored _).1
  · exact readVariableLoop_keeps (fun _ moved => moved.trans (readSingle_onward moved.tracked 1 _)) _ _ _
      (.refl tracked)

theorem ReadOp.after_onward (bond : BondCodec) {s : InputBuffer} (tracked : s.Tracked) (op : ReadOp) :
    s.Onward (op.after bond s) :=
  op.after_cases (readSingle_onward tracked) (readMultiple_onward tracked)
    fun width => readVariableUnsigned_onward bond width tracked

theorem Reachable.onward {bond : BondCodec} {origin s : InputBuffer} (tracked : origin.Tracked)
    (reach : Reachable bond origin s) : origin.Onward s := by
  induction reach with
  | origin => exact .refl tracked
  | step _ op ih => exact ih.trans (op.after_onward bond ih.tracked)

end InputBuffer

open InputBuffer in
/-- The loop of `ReadMultiple` ends in every state of an `InputBuffer` over any range, after at most one iteration
more than the buffer has blobs: with nothing left to be read, or by `std::out_of_range`, and then the state is as
it was before. An iteration that transfers no bytes moves on to a later blob or throws. -/
theorem readMultiple_terminates (bond : BondCodec) (range : Range) (iterators : range.OverBuffer) {s : InputBuffer}
    (reach : Reachable bond (ofRange range) s) (size : Nat) (func : Nat → InputBuffer → List Byte) :
    ((∃ n t, n ≤ range.buffer.blobs.length + 1 ∧ Rounds readRound n (size, s) (0, t) ∧
        ∃ parts, readMultiple size func s = .ok parts t) ∨
      ∃ n left t, n ≤ range.buffer.blobs.length ∧ Rounds readRound n (size, s) (left, t) ∧
        readRound (left, t) = .inr (.error .outOfRange t) ∧ readMultiple size func s = .error .outOfRange s) ∧
    ∀ n left t, Rounds readRound n (size, s) (left, t) → left ≠ 0 → t.chunk left = 0 →
      readRound (left, t) = .inr (.error .outOfRange t) ∨
        ∃ u, readRound (left, t) = .inl (left, u) ∧ t.blob < u.blob := by
  obtain ⟨opened, _, blobEnd⟩ := ofRange_tracked iterators
  have onward := reach.onward opened
  have blobs : s.blobEnd ≤ range.buffer.blobs.length := by
    rw [onward.same.blobEnd, blobEnd]
    exact iterators.stopBlob_le
  refine ⟨?_, fun n left t rounds more nothing => ?_⟩
  · rcases onward.tracked.readMultiple_ends size func with ⟨n, t, count, rounds, run⟩ | ⟨n, left, t, count, rest⟩
    · exact Or.inl ⟨n, t, by omega, rounds, run⟩
    · exact Or.inr ⟨n, left, t, by omega, rest⟩
  · have tracked := (Onward.rounds (.refl onward.tracked) rounds).tracked
    rcases tracked.readRound_spec more with thrown | ⟨u, run, _, progress⟩
    · exact Or.inl thrown
    · rw [nothing] at run progress
      exact Or.inr ⟨u, run, progress.resolve_left more.symm⟩

open InputBuffer in
/-- A range from the end of one blob to a position past another: the first iteration transfers nothing. -/
theorem readMultiple_terminates_malformed :
    let buffer : ConstBuffer := ⟨some [⟨some ⟨1, [1, 2, 3]⟩, 0, 3⟩, .null, ⟨some ⟨2, [4, 5]⟩, 0, 2⟩]⟩
    let s := ofRange ⟨buffer, 0, 3, 2, 9⟩
    (∃ n t, n ≤ 4 ∧ Rounds readRound n (4, s) (0, t)) ∧ s.chunk 4 = 0 ∧
      ∃ u, readRound (4, s) = .inl (4, u) ∧ s.blob < u.blob := by
  intro buffer s
  have iterators : Range.OverBuffer ⟨buffer, 0, 3, 2, 9⟩ := ⟨by decide, by decide, by decide⟩
  obtain ⟨ends, advances⟩ := readMultiple_terminates sevenBitCodec _ iterators .origin 4 fun _ _ => []
  have nothing : s.chunk 4 = 0 := by decide
  refine ⟨?_, nothing, ?_⟩
  · rcases ends with ⟨n, t, count, rounds, _⟩ | ⟨n, left, t, _, _, _, failed⟩
    · exact ⟨n, t, count, rounds⟩
    · obtain ⟨parts, t, run, _⟩ := exists_of_returns (fun _ => true)
        (by decide +kernel : returns _ (readMultiple 4 (fun _ _ => []) s) = true)
      rw [run] at failed
      cases failed
  · rcases advances 0 4 s (.none _) (by decide) nothing with thrown | advanced
    · have goes : (readRound (4, s)).isLeft = true := by decide +kernel
      rw [thrown] at goes
      cases goes
    · exact advanced

end IpcBond
