import IpcBond.BufferRange

/-! The bound checks of `ConstBlob::GetRange` and `Write(const ConstBuffer::Range&)` in 64-bit arithmetic. The sum
that is checked may wrap around, and so may the difference that a range passes on as a count. -/

namespace IpcBond
open Library.Segments Library.StateExcept

namespace ConstBlob

def GetRangeExact (blob : ConstBlob) (offset count : Nat) : Prop :=
  if offset + count ≤ blob.size then
    ∃ range, blob.getRange offset count = .ok range ∧ range.item = blob.item ∧ range.size = count ∧
      range.bytes = (blob.bytes.drop offset).take count
  else blob.getRange offset count = .error .outOfRange

/-- The check is exact unless the sum wraps back into the blob. -/
theorem Valid.getRangeExact_iff {blob : ConstBlob} (valid : blob.Valid) {offset count : Nat}
    (offset_lt : offset < 2 ^ 64) (count_lt : count < 2 ^ 64) :
    blob.GetRangeExact offset count ↔ ¬ (2 ^ 64 ≤ offset + count ∧ offset + count - 2 ^ 64 ≤ blob.size) := by
  have size_lt := valid.size_lt
  unfold GetRangeExact
  split
  · next fits =>
    refine iff_of_true ?_ (by omega)
    exact ⟨_, valid.getRange_eq fits, rfl, valid.sub_size fits, valid.sub_bytes fits⟩
  · next outside =>
    have sum : wrap (offset + count) = if offset + count < 2 ^ 64 then offset + count else offset + count - 2 ^ 64 := by
      unfold wrap
      split <;> omega
    simp only [getRange, sum]
    constructor
    · rintro thrown ⟨wraps, inside⟩
      rw [if_neg (by omega : ¬ offset + count < 2 ^ 64), if_neg (by omega)] at thrown
      cases thrown
    · intro apart
      rw [if_pos]
      split <;> omega

end ConstBlob

namespace Range

/-- A range inside one blob, between any two 64-bit offsets: the second one is either given or the end of the
blob. -/
structure InOneBlob (range : Range) : Prop where
  inside : range.firstBlob < range.buffer.blobs.length
  one : range.stopBlob = range.firstBlob + 1
  first_lt : range.firstOffset < 2 ^ 64
  last_lt : range.lastOffset < 2 ^ 64

instance (range : Range) : Decidable range.InOneBlob :=
  decidable_of_iff (range.firstBlob < range.buffer.blobs.length ∧ range.stopBlob = range.firstBlob + 1 ∧
      range.firstOffset < 2 ^ 64 ∧ range.lastOffset < 2 ^ 64)
    ⟨fun ⟨inside, one, first_lt, last_lt⟩ => ⟨inside, one, first_lt, last_lt⟩,
      fun ⟨inside, one, first_lt, last_lt⟩ => ⟨inside, one, first_lt, last_lt⟩⟩

def blob (range : Range) : ConstBlob := range.buffer.blobAt range.firstBlob

end Range

namespace OutputBuffer

variable {pool : BufferPool} {s : OutputBuffer} {range : Range}

theorem writeRange_one (valid : range.buffer.Valid) (one : range.InOneBlob) :
    writeRange pool range =
      if range.isEmpty then return
      else if range.blob.size < range.lastLength then throw .outOfRange
      else writeConstBlob pool ⟨range.blob.item, wrap (range.blob.beginAt + range.firstOffset),
        wrap (wrap (range.blob.beginAt + range.firstOffset) + sizeT (range.lastLength - range.firstOffset))⟩ := by
  have stop : (if range.lastOffset ≠ 0 then range.lastBlob + 1 else range.lastBlob) = range.stopBlob := rfl
  have size_lt := (valid.blobAt range.firstBlob).size_lt
  have length : (if range.lastOffset ≠ 0 then range.lastOffset else (range.buffer.blobAt range.firstBlob).size) =
      range.lastLength := by rw [Range.lastLength, one.one, Nat.add_sub_cancel]
  have last_lt : range.lastLength < 2 ^ 64 := by
    rw [← length]
    split
    · exact one.last_lt
    · exact size_lt
  have first_lt := one.first_lt
  have sum : wrap (range.firstOffset + sizeT (range.lastLength - range.firstOffset)) = range.lastLength := by
    unfold wrap sizeT
    omega
  unfold writeRange
  cases empty : range.isEmpty with
  | true => rfl
  | false =>
    simp only [Bool.not_false, if_true, Bool.false_eq_true, if_false, stop, length]
    rw [one.one, if_pos (Nat.add_sub_cancel_left _ _), ConstBlob.getRange, sum, Range.blob]
    split
    · rfl
    · rfl

/-- Whatever blob it is given, valid or not, a write throws only where an allocation fails. -/
theorem Ready.writeShared_throws (ready : s.Ready pool.memory) {blob : ConstBlob} {other : List Byte} {e : Error}
    {t : OutputBuffer} (run : writeShared pool blob other s = .error e t) : ∃ allocation, e = .badAlloc allocation := by
  unfold writeShared at run
  split at run
  · rcases bind_error.1 run with failed | ⟨_, u, _, pushed⟩
    · have outcome := ready.flush_outcome.1
      rw [failed] at outcome
      obtain ⟨allocation, same, _⟩ := outcome
      exact ⟨allocation, same⟩
    · rw [pushBack_run] at pushed
      split at pushed
      · cases pushed
      · cases pushed
        exact ⟨_, rfl⟩
  · have short : (other.take (other.length % 2 ^ 32)).length < 2 ^ 32 := by
      rw [List.length_take]
      have := Nat.mod_lt other.length (show 2 ^ 32 > 0 by decide)
      omega
    have outcome := ready.writeBytes_outcome short
    rw [run] at outcome
    obtain ⟨allocation, same, _⟩ := outcome
    exact ⟨allocation, same⟩

theorem Ready.writeConstBlob_full_iff (ready : s.Ready pool.memory) {blob : ConstBlob} (valid : blob.Valid)
    {t : OutputBuffer} (run : writeConstBlob pool blob s = .ok () t) :
    t.contents = s.contents ++ blob.bytes ↔ (pool.memory.contains blob.data = false → blob.size < 2 ^ 32) := by
  have outcome := ready.writeConstBlob_outcome valid
  rw [run] at outcome
  have contents : t.contents = s.contents ++ written pool.memory blob := by
    rw [OutputBuffer.contents, outcome.segments.1, List.flatten_append]
    simp [OutputBuffer.contents]
  have whole : ([blob].map (written pool.memory)).flatten = ([blob].map ConstBlob.bytes).flatten ↔
      ∀ other ∈ [blob], pool.memory.contains other.data = false → other.size < 2 ^ 32 :=
    written_flatten_iff pool.memory (by simpa using valid)
  simp only [List.map_cons, List.map_nil, List.flatten_cons, List.flatten_nil, List.append_nil,
    List.mem_singleton, forall_eq] at whole
  rw [contents, List.append_cancel_left_eq, whole]

/-- `Write(Range)` returns with the bytes between the two offsets appended, or throws `out_of_range` and leaves
the output as it was. What a failed allocation leaves is not considered here. -/
def WritesExactly (pool : BufferPool) (range : Range) (s : OutputBuffer) : Prop :=
  match writeRange pool range s with
  | .ok _ t => range.firstOffset ≤ range.lastLength ∧
      (range.firstOffset = range.lastLength ∨ range.lastLength ≤ range.blob.size) ∧
      t.contents = s.contents ++ (range.blob.bytes.drop range.firstOffset).take (range.lastLength - range.firstOffset)
  | .error .outOfRange t => t = s
  | .error _ _ => True

theorem Ready.writesExactly_iff (ready : s.Ready pool.memory) (valid : range.buffer.Valid) (one : range.InOneBlob)
    (enough : ∀ allocation t, writeRange pool range s ≠ .error (.badAlloc allocation) t) :
    WritesExactly pool range s ↔
      (range.firstOffset ≤ range.lastLength ∨ range.blob.size < range.lastLength) ∧
      (pool.memory.contains range.blob.data = false → range.firstOffset ≤ range.lastLength →
        range.lastLength ≤ range.blob.size → range.lastLength - range.firstOffset < 2 ^ 32) := by
  have blobValid : range.blob.Valid := valid.blobAt _
  unfold WritesExactly
  rw [writeRange_one valid one] at enough ⊢
  cases empty : range.isEmpty with
  | true =>
    have same : range.firstOffset = range.lastLength := by
      simp only [Range.isEmpty, decide_eq_true_eq] at empty
      have given : range.lastOffset ≠ 0 := by
        intro none
        have stop := one.one
        rw [Range.stopBlob, if_neg (not_not.mpr none)] at stop
        omega
      rw [Range.lastLength, if_pos given, empty.2]
    refine iff_of_true ⟨Nat.le_of_eq same, Or.inl same, ?_⟩ ⟨Or.inl (Nat.le_of_eq same), fun _ _ _ => by omega⟩
    rw [same, Nat.sub_self, List.take_zero, List.append_nil]
  | false =>
    rw [empty] at enough
    simp only [Bool.false_eq_true, if_false] at enough ⊢
    by_cases outside : range.blob.size < range.lastLength
    · rw [if_pos outside]
      exact iff_of_true rfl ⟨Or.inr outside, fun _ _ _ => by omega⟩
    · rw [if_neg outside] at enough ⊢
      have returned : ∃ t, writeConstBlob pool ⟨range.blob.item, wrap (range.blob.beginAt + range.firstOffset),
          wrap (wrap (range.blob.beginAt + range.firstOffset) +
            sizeT (range.lastLength - range.firstOffset))⟩ s = .ok () t := by
        cases run : writeConstBlob pool _ s with
        | ok _ t => exact ⟨t, rfl⟩
        | error e t =>
          obtain ⟨allocation, rfl⟩ := ready.writeShared_throws run
          exact absurd run (enough allocation t)
      obtain ⟨t, run⟩ := returned
      rw [run]
      simp only
      by_cases inverted : range.lastLength < range.firstOffset
      · exact iff_of_false (fun both => by omega) fun both => by omega
      · have fits : range.firstOffset + (range.lastLength - range.firstOffset) ≤ range.blob.size := by omega
        have extent := blobValid.begin_add_size
        have inMemory := blobValid.inside
        have small := blobValid.small
        rw [sizeT_sub (by omega) (by omega), wrap_of_lt (by omega), wrap_of_lt (by omega)] at run
        have full := ready.writeConstBlob_full_iff (blobValid.sub_valid fits) run
        rw [blobValid.sub_bytes fits, blobValid.sub_size fits] at full
        rw [full]
        by_cases nothing : range.lastLength - range.firstOffset = 0
        · exact iff_of_true ⟨by omega, by omega, fun _ => by omega⟩ ⟨by omega, fun _ _ _ => by omega⟩
        · have contained := blobValid.part_contained pool.memory fits nothing
          rw [ConstBlob.part] at contained
          rw [contained]
          constructor
          · rintro ⟨order, _, short⟩
            exact ⟨Or.inl order, fun outside _ _ => short outside⟩
          · rintro ⟨_, short⟩
            exact ⟨by omega, by omega, fun outside => short outside (by omega) (by omega)⟩

end OutputBuffer

open OutputBuffer

/-- The range checks are exact where the checked sum does not wrap back into the blob, and a range inside one blob
is written exactly or rejected unless it is inverted with its end in the blob (or too long for a copy). -/
theorem range_checks_iff (pool : BufferPool) :
    (∀ blob : ConstBlob, blob.Valid → ∀ offset count, offset < 2 ^ 64 → count < 2 ^ 64 →
      (blob.GetRangeExact offset count ↔ ¬ (2 ^ 64 ≤ offset + count ∧ offset + count - 2 ^ 64 ≤ blob.size))) ∧
    ∀ s, Reached pool s → ∀ range : Range, range.buffer.Valid → range.InOneBlob →
      (∀ allocation t, writeRange pool range s ≠ .error (.badAlloc allocation) t) →
      (WritesExactly pool range s ↔
        (range.firstOffset ≤ range.lastLength ∨ range.blob.size < range.lastLength) ∧
        (pool.memory.contains range.blob.data = false → range.firstOffset ≤ range.lastLength →
          range.lastLength ≤ range.blob.size → range.lastLength - range.firstOffset < 2 ^ 32)) :=
  ⟨fun _ valid _ _ offset_lt count_lt => valid.getRangeExact_iff offset_lt count_lt,
    fun _ reached _ valid one enough => reached.ready.writesExactly_iff valid one enough⟩

/-- Two parts of a blob, one of them written. -/
theorem range_checks_inside :
    let blob : ConstBlob := ⟨some ⟨100, [0, 1, 2, 3, 4, 5, 6, 7, 8, 9]⟩, 0, 10⟩
    blob.GetRangeExact 3 4 ∧ blob.GetRangeExact 3 8 ∧
      ∃ s, Reached (simplePool 4 0) s ∧ WritesExactly (simplePool 4 0) ⟨⟨some [blob]⟩, 0, 3, 0, 7⟩ s := by
  intro blob
  obtain ⟨ranges, writes⟩ := range_checks_iff (simplePool 4 0)
  have valid : blob.Valid := by decide
  refine ⟨(ranges blob valid 3 4 (by decide) (by decide)).2 (by decide),
    (ranges blob valid 3 8 (by decide) (by decide)).2 (by decide), ?_⟩
  obtain ⟨_, t, run, _⟩ := exists_of_returns (fun _ => true)
    (by decide +kernel : returns _ ((do
      setUp (simplePool 4 0) sevenBitCodec []
      writeRange (simplePool 4 0) ⟨⟨some [blob]⟩, 0, 3, 0, 7⟩) (members 1)) = true)
  obtain ⟨_, s, made, wrote⟩ := bind_ok.1 run
  have reached : Reached (simplePool 4 0) s := ⟨sevenBitCodec, 1, [], by simp, made⟩
  refine ⟨s, reached, (writes s reached _ (by decide) (by decide) fun _ _ failed => ?_).2 (by decide)⟩
  rw [wrote] at failed
  cases failed

/-- An inverted range passes the check, since its count and the sum both wrap. It is written as a blob that ends
before it begins. -/
theorem range_checks_wrap :
    let blob : ConstBlob := ⟨some ⟨100, [0, 1, 2, 3, 4, 5, 6, 7, 8, 9]⟩, 0, 10⟩
    let inverted : ConstBlob := ⟨some ⟨100, [0, 1, 2, 3, 4, 5, 6, 7, 8, 9]⟩, 3, 2⟩
    blob.Valid ∧ blob.getRange 3 (2 ^ 64 - 1) = .ok inverted ∧ inverted.size = 2 ^ 64 - 1 ∧
      ∃ s t, Reached (simplePool 4 0) s ∧
        writeRange (simplePool 4 0) ⟨⟨some [blob]⟩, 0, 3, 0, 2⟩ s = .ok () t ∧ s.buffer = [] ∧
        t.buffer = [inverted] := by
  intro blob inverted
  refine ⟨by decide, by decide, by decide, ?_⟩
  obtain ⟨buffers, t, run, same⟩ := exists_of_returns
    (fun buffers : List ConstBlob × List ConstBlob => decide (buffers = ([], [inverted])))
    (by decide +kernel : returns _ ((do
      setUp (simplePool 4 0) sevenBitCodec []
      let before := (← get).buffer
      writeRange (simplePool 4 0) ⟨⟨some [blob]⟩, 0, 3, 0, 2⟩
      return (before, (← get).buffer)) (members 1)) = true)
  obtain ⟨_, s, made, rest⟩ := bind_ok.1 run
  obtain ⟨_, _, got, rest⟩ := bind_ok.1 rest
  cases got
  obtain ⟨_, u, wrote, rest⟩ := bind_ok.1 rest
  cases rest
  obtain ⟨before, after⟩ := Prod.mk.inj (of_decide_eq_true same)
  exact ⟨s, t, ⟨sevenBitCodec, 1, [], by simp, made⟩, wrote, before, after⟩

end IpcBond
