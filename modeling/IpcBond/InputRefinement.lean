import IpcBond.InputCursor
import IpcBond.Library.StateExcept

/-! `InputBuffer` refines a flat byte cursor: in every reachable state each operation takes the
next bytes of the input, whatever blob boundaries they cross, or fails and changes nothing. -/

namespace IpcBond
open Library.Segments Library.StateExcept

namespace InputBuffer

theorem readLoop_succ (func : Nat → InputBuffer → List Byte) (fuel : Nat) {size : Nat}
    (more : size ≠ 0) (s : InputBuffer) :
    readLoop func (fuel + 1) size s =
      match readSingle (min (sizeT (s.ptrEnd.sub s.ptr)) size)
          (func (min (sizeT (s.ptrEnd.sub s.ptr)) size)) s with
      | .error e t => .error e t
      | .ok part t =>
        match readLoop func fuel (size - min (sizeT (s.ptrEnd.sub s.ptr)) size) t with
        | .error e u => .error e u
        | .ok rest u => .ok (part ++ rest) u := by
  obtain ⟨size, rfl⟩ := Nat.exists_eq_succ_of_ne_zero more
  simp only [readLoop, run_bind, run_get]
  split
  · next part t run =>
    rw [run]
    simp only
    split <;> simp_all
  · next e t run => rw [run]

theorem Inside.distance {s : InputBuffer} (bounded : s.Bounded) {o : Nat} (inside : s.Inside o) :
    sizeT (s.ptrEnd.sub s.ptr) = s.blobLength s.blob - o := by
  have limit := bounded.blobLength_le s.blob
  have small := (bounded.valid.blobAt s.blob).size_lt
  have fits := inside.fits
  unfold sizeT
  rw [Ptr.sub, inside.offset, inside.endOffset]
  omega

theorem readLoop_settled (func : Nat → InputBuffer → List Byte) (fuel : Nat) {size : Nat}
    (enough : size < fuel) {s : InputBuffer} (settled : s.Settled) :
    (size ≤ s.remaining.length ∧ ∃ parts t, readLoop func fuel size s = .ok parts t ∧ s.SameInput t ∧
      t.pos = s.pos + size ∧ t.Settled ∧
      (func = (fun n s => s.load s.ptr n) → parts = s.remaining.take size)) ∨
    (s.remaining.length < size ∧ ∃ t, readLoop func fuel size s = .error .outOfRange t ∧ s.SameInput t) := by
  induction fuel generalizing size s with
  | zero => omega
  | succ fuel ih =>
    have inv := settled.invariant
    have length := inv.remaining_length
    by_cases more : size = 0
    · subst more
      exact Or.inl ⟨Nat.zero_le _, [], s, rfl, .refl s, rfl, settled, fun _ => rfl⟩
    · rw [readLoop_succ func fuel more]
      rcases settled.cursor with atEnd | ⟨o, inside, before⟩
      · have := atEnd.pos
        refine Or.inr ⟨by omega, s, ?_, .refl s⟩
        rw [readSingle_run, if_pos (Or.inr atEnd.isEof)]
      · rw [inside.distance settled.bounded]
        obtain ⟨o', t, inside', fits, run, same, position, next⟩ | ⟨blocked, _⟩ :=
          readSingle_spec inv (min (s.blobLength s.blob - o) size) (func (min (s.blobLength s.blob - o) size))
        · have stop := same.stop
          have nextLength := next.invariant.remaining_length
          have covered := next.invariant.pos_le_stop
          simp only [run]
          rcases ih (show size - min (s.blobLength s.blob - o) size < fuel by omega) next with
            ⟨available, parts, u, rest, sameRest, positionRest, nextRest, loaded⟩ | ⟨short, u, rest, sameRest⟩
          · refine Or.inl ⟨by omega, _, u, by rw [rest], same.trans sameRest, by omega, nextRest, ?_⟩
            rintro rfl
            change s.load s.ptr _ ++ parts = _
            rw [loaded rfl, load_eq settled.bounded inside' fits, remaining_drop same position,
              ← List.take_add, Nat.add_sub_cancel' (Nat.min_le_right _ _)]
          · exact Or.inr ⟨by omega, u, by rw [rest], same.trans sameRest⟩
        · have := blocked o inside
          omega

theorem readMultiple_run (size : Nat) (func : Nat → InputBuffer → List Byte) (s : InputBuffer) :
    readMultiple size func s =
      match readLoop func (size + (s.blobEnd - s.blob) + 1) size s with
      | .ok parts t => .ok parts t
      | .error e t => .error e { t with
          ptr := s.ptr, ptrEnd := s.ptrEnd, blob := s.blob, isEof := s.blob = t.blobEnd } := by
  cases run : readLoop func (size + (s.blobEnd - s.blob) + 1) size s with
  | ok parts t =>
    simp only [readMultiple, run_bind, run_get, run_tryCatch, run]
  | error e t =>
    simp only [readMultiple, run_bind, run_get, run_tryCatch, run]
    rfl

theorem restored {s t : InputBuffer} (flag : s.isEof = decide (s.blob = s.blobEnd)) (same : s.SameInput t) :
    { t with ptr := s.ptr, ptrEnd := s.ptrEnd, blob := s.blob, isEof := s.blob = t.blobEnd } = s := by
  obtain ⟨buffer, blobEnd, lastOffset⟩ := same
  rw [buffer, blobEnd, lastOffset, ← flag]

/-- `ReadMultiple`: takes the next bytes of the input, or throws and changes nothing. -/
theorem readMultiple_spec {s : InputBuffer} (inv : s.Invariant) (size : Nat)
    (func : Nat → InputBuffer → List Byte) :
    (size ≤ s.remaining.length ∧ ∃ parts t, readMultiple size func s = .ok parts t ∧ s.SameInput t ∧
      t.pos = s.pos + size ∧ t.Invariant ∧ (s.Settled → t.Settled) ∧
      (func = (fun n s => s.load s.ptr n) → parts = s.remaining.take size)) ∨
    (s.remaining.length < size ∧ readMultiple size func s = .error .outOfRange s) := by
  have loop : (size ≤ s.remaining.length ∧ ∃ parts t,
      readLoop func (size + (s.blobEnd - s.blob) + 1) size s = .ok parts t ∧ s.SameInput t ∧
        t.pos = s.pos + size ∧ t.Invariant ∧ (s.Settled → t.Settled) ∧
        (func = (fun n s => s.load s.ptr n) → parts = s.remaining.take size)) ∨
      (s.remaining.length < size ∧ ∃ t,
        readLoop func (size + (s.blobEnd - s.blob) + 1) size s = .error .outOfRange t ∧ s.SameInput t) := by
    by_cases settled : s.Settled
    · rcases readLoop_settled func (size + (s.blobEnd - s.blob) + 1) (show size < _ by omega) settled with
        ⟨available, parts, t, run, same, position, next, loaded⟩ | short
      · exact Or.inl ⟨available, parts, t, run, same, position, next.invariant, fun _ => next, loaded⟩
      · exact Or.inr short
    · -- the first iteration of a parked cursor reads nothing and moves to the end
      obtain ⟨o, inside, last, parked⟩ : ∃ o, s.Inside o ∧ s.blob + 1 = s.blobEnd ∧ o = s.blobLength s.blob := by
        rcases inv.cursor with atEnd | ⟨o, inside, _, unparked⟩
        · exact absurd ⟨inv.bounded, Or.inl atEnd⟩ settled
        · have fits := inside.fits
          have parked : ¬ o < s.blobLength s.blob :=
            fun before => settled ⟨inv.bounded, Or.inr ⟨o, inside, before⟩⟩
          exact ⟨o, inside, by omega, by omega⟩
      have boundary := inv.bounded.start_add_blobLength s.blob
      rw [if_pos last] at boundary
      have position := inside.pos
      have length := inv.remaining_length
      by_cases more : size = 0
      · subst more
        exact Or.inl ⟨Nat.zero_le _, [], s, by simp [readLoop, pure, EStateM.pure], .refl s, rfl, inv, id, fun _ => rfl⟩
      · rw [readLoop_succ func _ more, inside.distance inv.bounded,
          show min (s.blobLength s.blob - o) size = 0 by omega]
        obtain ⟨_, t, _, _, run, same, positionNext, next⟩ | ⟨blocked, _⟩ := readSingle_spec inv 0 (func 0)
        · have stop := same.stop
          have nextLength := next.invariant.remaining_length
          simp only [run]
          rcases readLoop_settled func (size + (s.blobEnd - s.blob)) (show size - 0 < _ by omega) next with
            ⟨available, _⟩ | ⟨short, u, rest, sameRest⟩
          · omega
          · exact Or.inr ⟨by omega, u, by rw [rest], same.trans sameRest⟩
        · have := blocked o inside
          omega
  rw [readMultiple_run]
  rcases loop with ⟨available, parts, t, run, rest⟩ | ⟨short, t, run, same⟩
  · exact Or.inl ⟨available, parts, t, by rw [run], rest⟩
  · refine Or.inr ⟨short, ?_⟩
    simp only [run, restored inv.flag same]

theorem readSingle_whole {α : Type} {s : InputBuffer} (inv : s.Invariant) {n : Nat} (positive : 0 < n)
    (func : InputBuffer → α) :
    ((n ≤ s.remaining.length ∧ Whole s.buffer.segments s.pos n) ∧
      ∃ o t, s.Inside o ∧ o + n ≤ s.blobLength s.blob ∧ readSingle n func s = .ok (func s) t ∧
        s.SameInput t ∧ t.pos = s.pos + n ∧ t.Settled) ∨
    (¬ (n ≤ s.remaining.length ∧ Whole s.buffer.segments s.pos n) ∧
      readSingle n func s = .error .outOfRange s) := by
  rcases readSingle_spec inv n func with ⟨o, t, inside, fits, rest⟩ | ⟨blocked, run⟩
  · exact Or.inl ⟨(inside_iff_whole inv positive).1 ⟨o, inside, fits⟩, o, t, inside, fits, rest⟩
  · refine Or.inr ⟨fun whole => ?_, run⟩
    obtain ⟨o, inside, fits⟩ := (inside_iff_whole inv positive).2 whole
    exact Nat.not_lt_of_le fits (blocked o inside)

theorem readBlob_value {s : InputBuffer} (bounded : s.Bounded) {o n : Nat} (inside : s.Inside o)
    (fits : o + n ≤ s.blobLength s.blob) (small : s.current.size < 2 ^ 32) :
    let blob := (BondBlob.ofConstBlob s.current).assign (sizeT (s.ptr.sub s.current.data) % 2 ^ 32) n
    blob.Valid ∧ blob.bytes = s.remaining.take n := by
  have limit := bounded.blobLength_le s.blob
  have within : o + n ≤ s.current.size := Nat.le_trans fits limit
  have valid : s.current.Valid := bounded.valid.blobAt s.blob
  have extent := valid.begin_add_size
  have inMemory := valid.inside
  have offset : sizeT (s.ptr.sub s.current.data) % 2 ^ 32 = o := by
    rw [inside.ptr, Ptr.sub, Ptr.add_offset]
    unfold sizeT
    omega
  have start : s.current.data.offset = s.current.beginAt := by
    rw [ConstBlob.data_of_nonempty inside.nonempty]
  simp only [offset]
  constructor
  · refine ⟨?_, ?_, ?_⟩
    · simp only [BondBlob.assign, BondBlob.ofConstBlob, Ptr.add_offset, start]
      omega
    · simp only [BondBlob.assign]
      omega
    · rintro blob holder
      cases holder
      exact ⟨valid, rfl, o, rfl, within⟩
  · rw [← load_eq bounded inside fits, load, inside.offset, BondBlob.bytes]
    simp only [BondBlob.assign, BondBlob.ofConstBlob, Ptr.add_offset, start]

/-- What any call does to the cursor: it stays in its input and never moves back. -/
structure Advances (s t : InputBuffer) : Prop where
  same : s.SameInput t
  forward : s.pos ≤ t.pos
  invariant : t.Invariant
  settled : s.Settled → t.Settled

theorem Advances.refl {s : InputBuffer} (inv : s.Invariant) : s.Advances s :=
  ⟨.refl s, Nat.le_refl _, inv, id⟩

theorem Advances.trans {s t u : InputBuffer} (first : s.Advances t) (second : t.Advances u) :
    s.Advances u :=
  ⟨first.same.trans second.same, Nat.le_trans first.forward second.forward, second.invariant,
    fun start => second.settled (first.settled start)⟩

theorem readSingle_after {α : Type} {s : InputBuffer} (inv : s.Invariant) (n : Nat)
    (func : InputBuffer → α) : s.Advances (finalState (readSingle n func s)) := by
  rcases readSingle_spec inv n func with ⟨o, t, _, _, run, same, moved, next⟩ | ⟨_, run⟩
  · rw [run]
    exact ⟨same, by simp only [finalState]; omega, next.invariant, fun _ => next⟩
  · rw [run]
    exact .refl inv

theorem readMultiple_after {s : InputBuffer} (inv : s.Invariant) (n : Nat)
    (func : Nat → InputBuffer → List Byte) : s.Advances (finalState (readMultiple n func s)) := by
  rcases readMultiple_spec inv n func with ⟨_, parts, t, run, same, moved, next, settled, _⟩ | ⟨_, run⟩
  · rw [run]
    exact ⟨same, by simp only [finalState]; omega, next, settled⟩
  · rw [run]
    exact .refl inv

theorem readVariableLoop_succ {Acc : Type} (feed : Acc → Byte → Acc ⊕ Nat) (fuel : Nat) (acc : Acc)
    (s : InputBuffer) :
    readVariableLoop feed (fuel + 1) acc s =
      match readValue 1 s with
      | .error e t => .error e t
      | .ok byte t =>
        match feed acc (byte.headD 0) with
        | .inl next => readVariableLoop feed fuel next t
        | .inr value => .ok value t := by
  simp only [readVariableLoop, bind, EStateM.bind]
  cases readValue 1 s with
  | error e t => rfl
  | ok byte t =>
    simp only
    cases feed acc (byte.headD 0) <;> rfl

theorem readVariableLoop_keeps {holds : InputBuffer → Prop}
    (keeps : ∀ s, holds s → holds (finalState (readValue 1 s))) {Acc : Type} (feed : Acc → Byte → Acc ⊕ Nat)
    (fuel : Nat) (acc : Acc) {s : InputBuffer} (start : holds s) :
    holds (finalState (readVariableLoop feed fuel acc s)) := by
  induction fuel generalizing acc s with
  | zero => exact start
  | succ fuel ih =>
    have first := keeps s start
    rw [readVariableLoop_succ]
    cases run : readValue 1 s with
    | error e t => rwa [run] at first
    | ok byte t =>
      rw [run] at first
      simp only
      cases feed acc (byte.headD 0) with
      | inl acc => exact ih acc first
      | inr value => exact first

theorem readVariableLoop_after {Acc : Type} (feed : Acc → Byte → Acc ⊕ Nat) (fuel : Nat) (acc : Acc)
    {s : InputBuffer} (inv : s.Invariant) : s.Advances (finalState (readVariableLoop feed fuel acc s)) :=
  readVariableLoop_keeps
    (fun _ moved => moved.trans (readSingle_after moved.invariant 1 _)) feed fuel acc (.refl inv)

theorem readVariableUnsigned_run (bond : BondCodec) (width : Width) (s : InputBuffer) :
    readVariableUnsigned bond width s =
      if s.ptr.offset + width.bits / 7 < s.ptrEnd.offset then
        .ok (bond.readUnchecked width (s.current.memory.drop s.ptr.offset)).1
          (s.endRead (s.ptr.add (bond.readUnchecked width (s.current.memory.drop s.ptr.offset)).2))
      else readVariableLoop (bond.readByte width) (s.buffer.bytes.length + 1) (bond.readStart width) s := by
  simp only [readVariableUnsigned, run_bind, run_get]
  split <;> rfl

/-- The guard of the fast path holds inside a blob only, with room for the longest encoding. -/
theorem fast_path_room {s : InputBuffer} (inv : s.Invariant) {width : Width}
    (fast : s.ptr.offset + width.bits / 7 < s.ptrEnd.offset) :
    ∃ o, s.Inside o ∧ o + width.maxBytes ≤ s.blobLength s.blob := by
  rcases inv.cursor with atEnd | ⟨o, inside, _, _⟩
  · rw [atEnd.ptr, atEnd.ptrEnd] at fast
    simp [Ptr.null] at fast
  · rw [inside.offset, inside.endOffset] at fast
    have := width.maxBytes_eq
    exact ⟨o, inside, by omega⟩

theorem readVariableUnsigned_after (bond : BondCodec) (width : Width) {s : InputBuffer}
    (inv : s.Invariant) : s.Advances (finalState (readVariableUnsigned bond width s)) := by
  rw [readVariableUnsigned_run]
  split
  · next fast =>
    obtain ⟨o, inside, room⟩ := fast_path_room inv fast
    have touched := bond.readUnchecked_le width (s.current.memory.drop s.ptr.offset)
    obtain ⟨same, moved, next⟩ := endRead_spec inv.bounded inside
      (n := (bond.readUnchecked width (s.current.memory.drop s.ptr.offset)).2) (by omega)
    exact ⟨same, by simp only [finalState]; omega, next.invariant, fun _ => next⟩
  · exact readVariableLoop_after _ _ _ inv

theorem members_spec {range : Range} (valid : range.buffer.Valid) (bounds : range.InBounds) :
    let s := members range.buffer range.firstBlob range.lastBlob range.lastOffset
    s.Bounded ∧ s.stop = range.stopPos ∧ s.blob ≤ s.blobEnd := by
  obtain ⟨ordered, lastBlob_le, _, lastOffset_le⟩ := bounds
  refine ⟨⟨valid, ?_, ?_⟩, ?_, ?_⟩
  · simp only [members]
    split
    · exact ConstBuffer.blobAt_inside (by omega)
    · exact lastBlob_le
  · intro cut
    simp only [members] at cut ⊢
    rw [if_pos cut, Nat.add_sub_cancel]
    exact ⟨by omega, lastOffset_le⟩
  · by_cases cut : range.lastOffset = 0 <;> simp [stop, members, Range.stopPos, cut]
  · simp only [members]
    split <;> omega

theorem ofRange_spec {range : Range} (valid : range.buffer.Valid) (formed : range.WellFormed) :
    (ofRange range).Invariant ∧ (ofRange range).buffer = range.buffer ∧
      (ofRange range).pos = range.startPos ∧ (ofRange range).stop = range.stopPos := by
  obtain ⟨bounded, stop_eq, reached⟩ := members_spec valid formed.toInBounds
  obtain ⟨ordered, _, _, _⟩ := formed.toInBounds
  have first_inside := formed.first_inside
  generalize start_eq : members range.buffer range.firstBlob range.lastBlob range.lastOffset = s
    at bounded stop_eq reached
  have blob : s.blob = range.firstBlob := by rw [← start_eq]; rfl
  have buffer : s.buffer = range.buffer := by rw [← start_eq]; rfl
  have lastOffset : s.lastOffset = range.lastOffset := by rw [← start_eq]; rfl
  have blobEnd : s.blobEnd = if range.lastOffset ≠ 0 then range.lastBlob + 1 else range.lastBlob := by
    rw [← start_eq]; rfl
  obtain ⟨same, position, later, skipped, cursor⟩ := updateData_spec bounded reached (by rw [← start_eq]; rfl)
  have moved : range.firstOffset ≠ 0 → s.updateData.2.blob = range.firstBlob := by
    intro offset
    by_contra other
    have empty := skipped s.blob (Nat.le_refl _) (by omega)
    rw [blob, buffer] at empty
    omega
  have built : ofRange range = if s.updateData.1 then
      { s.updateData.2 with ptr := s.updateData.2.ptr.add range.firstOffset } else s.updateData.2 := by
    rw [← start_eq]
    rfl
  rcases cursor with ⟨found, inside, covered⟩ | ⟨found, atEnd⟩
  · rw [if_pos found] at built
    have open_ : s.blob ≠ s.blobEnd := by
      intro arrived
      have := inside.pos
      have := (same.bounded bounded).start_add_blobLength_le_stop inside.blob_lt
      rw [if_pos arrived] at position
      rw [same.stop] at this
      omega
    rw [if_neg open_, blob, buffer] at position
    have sameAll : s.SameInput (ofRange range) := by
      rw [built]
      exact ⟨same.buffer, same.blobEnd, same.lastOffset⟩
    have reach : range.firstOffset ≤ s.updateData.2.blobLength s.updateData.2.blob ∧
        (range.firstOffset < s.updateData.2.blobLength s.updateData.2.blob ∨
          s.updateData.2.blob + 1 = s.updateData.2.blobEnd) := by
      by_cases offset : range.firstOffset = 0
      · omega
      · rw [moved offset, blobLength, same.lastOffset, same.blobEnd, same.buffer, lastOffset, buffer, blobEnd]
        by_cases cut : range.lastOffset = 0
        · simp only [cut, ne_eq, not_true_eq_false, false_and, if_false]
          omega
        · simp only [cut, ne_eq, not_false_eq_true, true_and, if_true]
          split <;> omega
    have inside' : (ofRange range).Inside range.firstOffset := by
      rw [built]
      exact ⟨inside.isEof, inside.blob_lt, inside.nonempty, by rw [inside.ptr]; simp [current],
        inside.ptrEnd, reach.1⟩
    have before : range.firstOffset < (ofRange range).current.size := by
      by_cases offset : range.firstOffset = 0
      · have := inside'.nonempty
        omega
      · have same : (ofRange range).current = range.buffer.blobAt range.firstBlob := by
          rw [current, sameAll.buffer, buffer, built]
          exact congrArg _ (moved offset)
        rw [same]
        omega
    refine ⟨⟨sameAll.bounded bounded, Or.inr ⟨_, inside', before, ?_⟩⟩, sameAll.buffer.trans buffer, ?_,
      sameAll.stop.trans stop_eq⟩
    · rw [built]
      exact reach.2
    · rw [inside'.pos, Range.startPos, sameAll.buffer, buffer]
      have atStart := inside.pos
      rw [same.buffer, buffer] at atStart
      rw [built]
      simp only
      omega
  · rw [if_neg (by rw [found]; decide)] at built
    rw [built]
    refine ⟨⟨same.bounded bounded, Or.inl atEnd⟩, same.buffer.trans buffer, ?_, same.stop.trans stop_eq⟩
    have endBlob := atEnd.blob
    rw [same.blobEnd] at endBlob
    have offset : s.blob ≠ s.blobEnd → range.firstOffset = 0 := by
      intro more
      by_contra offset
      have := moved offset
      omega
    rw [position, Range.startPos, blob, buffer]
    split
    · next arrived =>
      rw [blobEnd] at arrived
      rw [stop_eq, Range.stopPos]
      split at arrived
      · omega
      · next uncut =>
        have uncut := not_not.mp uncut
        rw [arrived]
        omega
    · next more => rw [offset (by omega), Nat.add_zero]

theorem ofBuffer_eq (buffer : ConstBuffer) : ofBuffer buffer = ofRange (.whole buffer) := by
  unfold ofBuffer
  split
  · rfl
  · next null =>
    obtain ⟨item⟩ := buffer
    cases item with
    | none => rfl
    | some blobs => exact absurd rfl null

end InputBuffer

inductive Input where
  | ofBuffer (buffer : ConstBuffer)
  | ofRange (range : Range)

namespace Input

def asRange : Input → Range
  | ofBuffer buffer => .whole buffer
  | ofRange range => range

def opened : Input → InputBuffer
  | ofBuffer buffer => .ofBuffer buffer
  | ofRange range => .ofRange range

def bytes : Input → List Byte
  | ofBuffer buffer => buffer.bytes
  | ofRange range => range.bytes

def buffer : Input → ConstBuffer
  | ofBuffer buffer => buffer
  | ofRange range => range.buffer

def WellFormed : Input → Prop
  | ofBuffer buffer => buffer.Valid
  | ofRange range => range.buffer.Valid ∧ range.WellFormed

theorem opened_spec {input : Input} (formed : input.WellFormed) :
    input.opened.Invariant ∧ input.opened.buffer = input.buffer ∧
      input.opened.pos = input.asRange.startPos ∧ input.opened.stop = input.asRange.stopPos := by
  cases input with
  | ofBuffer buffer =>
    have valid : (Range.whole buffer).buffer.Valid := formed
    have spec := InputBuffer.ofRange_spec valid (Range.whole_wellFormed buffer)
    rw [← InputBuffer.ofBuffer_eq] at spec
    exact spec
  | ofRange range => exact InputBuffer.ofRange_spec formed.1 formed.2

theorem asRange_bytes (input : Input) : input.asRange.bytes = input.bytes := by
  cases input with
  | ofBuffer buffer => exact Range.whole_bytes buffer
  | ofRange range => rfl

theorem asRange_buffer (input : Input) : input.asRange.buffer = input.buffer := by
  cases input <;> rfl

theorem opened_remaining {input : Input} (formed : input.WellFormed) :
    input.opened.remaining = input.bytes := by
  obtain ⟨_, buffer, pos, stop⟩ := opened_spec formed
  rw [InputBuffer.remaining, buffer, pos, stop, List.drop_take, ← asRange_bytes, Range.bytes, asRange_buffer]

end Input

namespace InputBuffer

inductive ReadOp where
  | value (size : Nat)
  | bytes (size : Nat)
  | blob (size : Nat)
  | allocate (size : Nat)
  | skip (size : Nat)
  | variableUnsigned (width : Width)
  deriving DecidableEq, Repr

def ReadOp.after (bond : BondCodec) (s : InputBuffer) : ReadOp → InputBuffer
  | value size => finalState (readValue size s)
  | bytes size => finalState (readBytes size s)
  | blob size => finalState (readBlob size s)
  | allocate size => finalState (InputBuffer.allocate size s)
  | skip size => finalState (InputBuffer.skip size s)
  | variableUnsigned width => finalState (readVariableUnsigned bond width s)

/-- The states of an `InputBuffer` after any sequence of successful and failed operations. -/
inductive Reachable (bond : BondCodec) (origin : InputBuffer) : InputBuffer → Prop where
  | origin : Reachable bond origin origin
  | step {s : InputBuffer} (reach : Reachable bond origin s) (op : ReadOp) :
      Reachable bond origin (op.after bond s)

theorem skip_run (size : Nat) (s : InputBuffer) :
    skip size s = match readMultiple size (fun _ _ => []) s with
      | .ok _ t => .ok () t
      | .error e t => .error e t := by
  simp only [skip, bind, EStateM.bind]
  cases readMultiple size (fun _ _ => []) s <;> rfl

theorem ReadOp.after_cases {bond : BondCodec} {s : InputBuffer} {holds : InputBuffer → Prop}
    (single : ∀ {α : Type} (size : Nat) (func : InputBuffer → α), holds (finalState (readSingle size func s)))
    (multiple : ∀ size func, holds (finalState (readMultiple size func s)))
    (unsigned : ∀ width, holds (finalState (readVariableUnsigned bond width s))) (op : ReadOp) :
    holds (op.after bond s) := by
  cases op with
  | value size => exact single size _
  | bytes size => exact multiple size _
  | blob size => exact single size _
  | allocate size => exact single size _
  | skip size =>
    have skipped := multiple size fun _ _ => []
    simp only [ReadOp.after, skip_run]
    cases run : readMultiple size (fun _ _ => []) s with
    | ok parts t => rwa [run] at skipped
    | error e t => rwa [run] at skipped
  | variableUnsigned width => exact unsigned width

theorem ReadOp.after_spec (bond : BondCodec) {s : InputBuffer} (inv : s.Invariant) (op : ReadOp) :
    s.Advances (op.after bond s) :=
  op.after_cases (readSingle_after inv) (readMultiple_after inv) fun width => readVariableUnsigned_after bond width inv

theorem Reachable.spec {bond : BondCodec} {origin s : InputBuffer} (inv : origin.Invariant)
    (reach : Reachable bond origin s) : origin.Advances s := by
  induction reach with
  | origin => exact .refl inv
  | step _ op ih => exact ih.trans (op.after_spec bond ih.invariant)

/-- The operation returns `value` and takes the next `n` bytes when `allowed`; otherwise it
throws and leaves the state as it is. -/
def Takes {α : Type} (s : InputBuffer) (run : Reader α) (n : Nat) (allowed : Prop)
    (delivers : α → Prop) : Prop :=
  (allowed ∧ ∃ value t, run s = .ok value t ∧ delivers value ∧ t.remaining = s.remaining.drop n) ∨
  (¬ allowed ∧ run s = .error .outOfRange s)

/-- The next `n` bytes of the input lie in one blob of its buffer. -/
def NextWhole (s : InputBuffer) (n : Nat) : Prop :=
  n ≤ s.remaining.length ∧ Whole s.buffer.segments s.pos n

theorem readBytes_takes {s : InputBuffer} (inv : s.Invariant) (n : Nat) :
    s.Takes (readBytes n) n (n ≤ s.remaining.length) (· = s.remaining.take n) := by
  rcases readMultiple_spec inv n fun n s => s.load s.ptr n with
    ⟨available, parts, t, run, same, moved, _, _, loaded⟩ | ⟨short, run⟩
  · exact Or.inl ⟨available, parts, t, run, loaded rfl, remaining_drop same moved⟩
  · exact Or.inr ⟨by omega, run⟩

theorem skip_takes {s : InputBuffer} (inv : s.Invariant) (n : Nat) :
    s.Takes (skip n) n (n ≤ s.remaining.length) (fun _ => True) := by
  rcases readMultiple_spec inv n fun _ _ => [] with
    ⟨available, parts, t, run, same, moved, _⟩ | ⟨short, run⟩
  · exact Or.inl ⟨available, (), t, by rw [skip_run, run], trivial, remaining_drop same moved⟩
  · exact Or.inr ⟨by omega, by rw [skip_run, run]⟩

theorem readSingle_takes {α : Type} {s : InputBuffer} (inv : s.Invariant) {n : Nat} (positive : 0 < n)
    (func : InputBuffer → α) (delivers : α → Prop)
    (delivered : ∀ o, s.Inside o → o + n ≤ s.blobLength s.blob → delivers (func s)) :
    s.Takes (readSingle n func) n (s.NextWhole n) delivers := by
  rcases readSingle_whole inv positive func with
    ⟨whole, o, t, inside, fits, run, same, moved, _⟩ | ⟨broken, run⟩
  · exact Or.inl ⟨whole, func s, t, run, delivered o inside fits, remaining_drop same moved⟩
  · exact Or.inr ⟨broken, run⟩

theorem readValue_takes {s : InputBuffer} (inv : s.Invariant) {n : Nat} (positive : 0 < n) :
    s.Takes (readValue n) n (s.NextWhole n) (· = s.remaining.take n) :=
  readSingle_takes inv positive _ _ fun _ inside fits => load_eq inv.bounded inside fits

theorem allocate_takes {s : InputBuffer} (inv : s.Invariant) {n : Nat} (positive : 0 < n) :
    s.Takes (allocate n) n (s.NextWhole n) (fun result => result.1 = s.ptr ∧ result.2 = s.remaining.take n) :=
  readSingle_takes inv positive _ _ fun _ inside fits => ⟨rfl, load_eq inv.bounded inside fits⟩

theorem readBlob_takes {s : InputBuffer} (inv : s.Invariant) (small : s.current.size < 2 ^ 32)
    {n : Nat} (positive : 0 < n) :
    s.Takes (readBlob n) n (s.NextWhole n) (fun blob => blob.Valid ∧ blob.bytes = s.remaining.take n) :=
  readSingle_takes inv positive _ _ fun _ inside fits => readBlob_value inv.bounded inside fits small

end InputBuffer

/-- `InputBuffer` refines a flat byte cursor. The remaining bytes of a fresh one are those of
its buffer or range; in every reachable state each operation takes exactly the next ones, or
throws and leaves every member as it was. -/
theorem input_refines_flat_cursor (bond : BondCodec) (input : Input) (formed : input.WellFormed)
    (small : ∀ blob ∈ input.buffer.blobs, blob.size < 2 ^ 32) :
    input.opened.remaining = input.bytes ∧
    ∀ s, InputBuffer.Reachable bond input.opened s →
      s.buffer = input.buffer ∧ s.pos + s.remaining.length = input.asRange.stopPos ∧
      (∀ n, s.Takes (InputBuffer.readBytes n) n (n ≤ s.remaining.length) (· = s.remaining.take n)) ∧
      (∀ n, s.Takes (InputBuffer.skip n) n (n ≤ s.remaining.length) (fun _ => True)) ∧
      ∀ n, 0 < n →
        s.Takes (InputBuffer.readValue n) n (s.NextWhole n) (· = s.remaining.take n) ∧
        s.Takes (InputBuffer.readBlob n) n (s.NextWhole n) (fun blob => blob.bytes = s.remaining.take n) ∧
        s.Takes (InputBuffer.allocate n) n (s.NextWhole n)
          (fun result => result.1 = s.ptr ∧ result.2 = s.remaining.take n) := by
  refine ⟨Input.opened_remaining formed, fun s reach => ?_⟩
  obtain ⟨fresh, buffer, _, stop⟩ := Input.opened_spec formed
  obtain ⟨same, _, inv, _⟩ := reach.spec fresh
  have sameBuffer : s.buffer = input.buffer := same.buffer.trans buffer
  have currentSmall : s.current.size < 2 ^ 32 :=
    ConstBuffer.blobAt_size_lt (by decide) (sameBuffer ▸ small) s.blob
  refine ⟨sameBuffer, ?_, InputBuffer.readBytes_takes inv, InputBuffer.skip_takes inv, ?_⟩
  · have := inv.pos_le_stop
    rw [inv.remaining_length, ← stop, ← same.stop]
    omega
  · intro n positive
    refine ⟨InputBuffer.readValue_takes inv positive, ?_, InputBuffer.allocate_takes inv positive⟩
    rcases InputBuffer.readBlob_takes inv currentSmall positive with
      ⟨whole, value, t, run, delivers, rest⟩ | failed
    · exact Or.inl ⟨whole, value, t, run, delivers.2, rest⟩
    · exact Or.inr failed

/-- A range that ends inside its last blob, with a null blob in between. -/
theorem input_refines_flat_cursor_range :
    let buffer : ConstBuffer := ⟨some [⟨some ⟨1, [1, 2, 3]⟩, 0, 3⟩, .null, ⟨some ⟨2, [4, 5]⟩, 0, 2⟩]⟩
    let input := Input.ofRange ⟨buffer, 0, 1, 2, 1⟩
    input.opened.remaining = [2, 3, 4] ∧
      input.opened.Takes (InputBuffer.readValue 2) 2 (input.opened.NextWhole 2)
        (· = input.opened.remaining.take 2) := by
  intro buffer input
  have formed : input.WellFormed := ⟨by decide, by decide⟩
  have spec := input_refines_flat_cursor sevenBitCodec input formed (by decide)
  exact ⟨spec.1.trans (by decide), ((spec.2 _ .origin).2.2.2.2 2 (by decide)).1⟩

end IpcBond
