import IpcBond.BufferRange
import IpcBond.TypedStream

/-! The three narrowings of sizes and offsets to 32 bits: the length of a blob in `BlobCast`, the distance of the
cursor from the start of its blob in `Read(bond::blob&)`, and the length of a blob that `Write` copies. None of
them is checked, and a blob may be longer. -/

namespace IpcBond
open Library.Segments Library.StateExcept

theorem BondBlob.ofConstBlob_size_iff (blob : ConstBlob) :
    (ofConstBlob blob).size = blob.size ↔ blob.size < 2 ^ 32 :=
  Nat.mod_eq_iff_lt (by decide)

namespace InputBuffer

/-- `Read(bond::blob&, n)` returns, with the `n` bytes at the cursor where they lie. -/
def ReadsBlob (s : InputBuffer) (n : Nat) : Prop :=
  ∃ source t, readBlob n s = .ok source t ∧ source.content = s.ptr ∧ source.bytes = s.remaining.take n

theorem NextWhole.inside {s : InputBuffer} (inv : s.Invariant) {n : Nat} (whole : s.NextWhole n)
    (more : s.remaining ≠ []) : ∃ o, s.Inside o ∧ o + n ≤ s.blobLength s.blob := by
  rcases Nat.eq_zero_or_pos n with rfl | positive
  · rcases inv.cursor with atEnd | ⟨o, inside, _⟩
    · refine absurd (List.eq_nil_of_length_eq_zero ?_) more
      rw [inv.remaining_length, atEnd.pos, Nat.sub_self]
    · exact ⟨o, inside, inside.fits⟩
  · exact (inside_iff_whole inv positive).2 whole

/-- The content pointer is that of the cursor unless the distance to it is too long. -/
theorem Invariant.readsBlob_iff {s : InputBuffer} (inv : s.Invariant) {n : Nat} (whole : s.NextWhole n)
    (more : s.remaining ≠ []) : s.ReadsBlob n ↔ s.blobOffset < 2 ^ 32 := by
  obtain ⟨o, inside, fits⟩ := whole.inside inv more
  have distance := inside.blobOffset_eq inv.bounded
  have open_ : ¬ (s.ptrEnd.offset < s.ptr.offset + n ∨ s.isEof = true) := by
    rw [inside.isEof, inside.offset, inside.endOffset]
    simp
    omega
  have difference : sizeT (s.ptr.sub s.current.data) = o := by
    rw [← distance, blobOffset, inside.isEof]
    rfl
  rw [ReadsBlob, distance, readBlob, readSingle_run, if_neg open_, difference]
  constructor
  · rintro ⟨source, t, run, content, _⟩
    cases run
    rw [inside.ptr] at content
    have offset := congrArg Ptr.offset content
    simp only [BondBlob.assign, BondBlob.ofConstBlob, Ptr.add_offset] at offset
    have := Nat.mod_lt o (show 2 ^ 32 > 0 by decide)
    omega
  · intro small
    have start : s.current.data.offset = s.current.beginAt := by
      rw [ConstBlob.data_of_nonempty inside.nonempty]
    rw [Nat.mod_eq_of_lt small]
    refine ⟨_, _, rfl, inside.ptr.symm, ?_⟩
    rw [← load_eq inv.bounded inside fits, load, inside.offset, BondBlob.bytes]
    simp only [BondBlob.assign, BondBlob.ofConstBlob, Ptr.add_offset, start]

theorem Reachable.single_blob {bond : BondCodec} {blob : ConstBlob} (valid : blob.Valid) {s : InputBuffer}
    (reach : Reachable bond (.ofBuffer ⟨some [blob]⟩) s) (before : s.pos < blob.size) :
    s.blobOffset = s.pos ∧ s.remaining ≠ [] ∧ s.NextWhole 1 := by
  have bufferValid : ConstBuffer.Valid ⟨some [blob]⟩ := by simpa [ConstBuffer.Valid, ConstBuffer.blobs] using valid
  obtain ⟨fresh, buffer, _, stop⟩ := ofBuffer_spec bufferValid
  obtain ⟨same, _, inv, _⟩ := reach.spec fresh.invariant
  have length : s.stop = blob.size := by
    rw [same.stop, stop]
    simp [ConstBuffer.bytes, ConstBuffer.segments, ConstBuffer.blobs, valid.bytes_length]
  have count := inv.remaining_length
  have more : s.remaining.length = blob.size - s.pos := by omega
  refine ⟨?_, fun none => ?_, by omega, 0, ?_, ?_⟩
  · rcases inv.cursor with atEnd | ⟨o, inside, _⟩
    · have := atEnd.pos
      omega
    · have one : s.blobEnd ≤ 1 := by
        have limit := inv.bounded.blobEnd_le
        rwa [same.buffer, buffer] at limit
      have first : s.blob = 0 := by
        have := inside.blob_lt
        omega
      rw [inside.blobOffset_eq inv.bounded, inside.pos, first, start_zero, Nat.zero_add]
  · rw [none] at more
    simp only [List.length_nil] at more
    omega
  · rw [start_zero]
    exact Nat.zero_le _
  · rw [same.buffer, buffer]
    simp [ConstBuffer.segments, ConstBuffer.blobs, valid.bytes_length]
    omega

theorem Invariant.skip_pos (bond : BondCodec) {s : InputBuffer} (inv : s.Invariant) {n : Nat}
    (available : n ≤ s.remaining.length) : (ReadOp.after bond s (.skip n)).pos = s.pos + n := by
  rcases readMultiple_spec inv n fun _ _ => [] with ⟨_, parts, t, run, _, moved, _⟩ | ⟨short, _⟩
  · simp only [ReadOp.after, skip_run, run, finalState]
    exact moved
  · omega

end InputBuffer

namespace OutputBuffer

variable {pool : BufferPool} {s t : OutputBuffer}

theorem Ready.writeBuffer_full_iff (ready : s.Ready pool.memory) {buffer : ConstBuffer} (valid : buffer.Valid)
    (run : writeBuffer pool buffer s = .ok () t) :
    t.contents = s.contents ++ buffer.bytes ↔
      ∀ blob ∈ buffer.blobs, pool.memory.contains blob.data = false → blob.size < 2 ^ 32 := by
  have formed : (WriteOp.buffer buffer).WellFormed := valid
  have appends : Appends pool (writeBuffer pool buffer) ((WriteOp.buffer buffer).pieces pool.memory) s :=
    (ready.op_appends formed : Appends pool ((WriteOp.buffer buffer).run pool sevenBitCodec) _ s)
  have wrote := appends t run
  have contents : t.contents = s.contents ++ (buffer.blobs.map (written pool.memory)).flatten := by
    rw [OutputBuffer.contents, wrote.segments.1, List.flatten_append]
    rfl
  rw [contents, List.append_cancel_left_eq]
  exact written_flatten_iff pool.memory valid

end OutputBuffer

open InputBuffer OutputBuffer

/-- The narrowings lose nothing exactly where the values fit: the length of a blob that is cast, the distance of
the cursor from the start of its blob, and the length of each blob or part of a blob that is copied. -/
theorem narrowing_iff (bond : BondCodec) :
    (∀ blob : ConstBlob, (BondBlob.ofConstBlob blob).size = blob.size ↔ blob.size < 2 ^ 32) ∧
    (∀ input : Input, input.WellFormed → ∀ s, Reachable bond input.opened s →
      ∀ n, s.NextWhole n → s.remaining ≠ [] → (s.ReadsBlob n ↔ s.blobOffset < 2 ^ 32)) ∧
    ∀ pool s, Reached pool s →
      (∀ (buffer : ConstBuffer) t, buffer.Valid → writeBuffer pool buffer s = .ok () t →
        (t.contents = s.contents ++ buffer.bytes ↔
          ∀ blob ∈ buffer.blobs, pool.memory.contains blob.data = false → blob.size < 2 ^ 32)) ∧
      ∀ (range : Range) t, range.buffer.Valid → range.InBounds → writeRange pool range s = .ok () t →
        (t.contents = s.contents ++ range.bytes ↔
          ∀ i, pool.memory.contains (range.buffer.blobAt i).data = false → range.lengthIn i < 2 ^ 32) := by
  refine ⟨BondBlob.ofConstBlob_size_iff, fun input formed s reach n whole more => ?_, fun pool s reached => ⟨?_, ?_⟩⟩
  · exact (reach.spec (Input.opened_spec formed).1).invariant.readsBlob_iff whole more
  · exact fun buffer t valid run => reached.ready.writeBuffer_full_iff valid run
  · exact fun range t valid bounds run => reached.ready.writeRange_full_iff valid bounds run

/-- A part of a blob read into a `bond::blob`, and copied to another buffer. -/
theorem narrowing_fits :
    let buffer : ConstBuffer := ⟨some [⟨some ⟨1, [1, 2, 3]⟩, 0, 3⟩]⟩
    let cursor := ReadOp.after sevenBitCodec (.ofBuffer buffer) (.skip 1)
    cursor.ReadsBlob 2 ∧ ∃ s t, Reached (simplePool 4 0) s ∧
      writeRange (simplePool 4 0) ⟨buffer, 0, 1, 1, 0⟩ s = .ok () t ∧ t.contents = s.contents ++ [2, 3] := by
  intro buffer cursor
  obtain ⟨_, reads, writes⟩ := narrowing_iff sevenBitCodec
  have valid : buffer.Valid := by decide
  refine ⟨(reads (.ofBuffer buffer) valid cursor (.step .origin (.skip 1)) 2 ?_ (by decide)).2 (by decide), ?_⟩
  · exact ⟨by decide, 0, by decide, by decide⟩
  · obtain ⟨_, t, run, _⟩ := exists_of_returns (fun _ => true)
      (by decide +kernel : returns _ ((do
        setUp (simplePool 4 0) sevenBitCodec []
        writeRange (simplePool 4 0) ⟨buffer, 0, 1, 1, 0⟩) (members 1)) = true)
    obtain ⟨_, s, made, wrote⟩ := bind_ok.1 run
    have reached : Reached (simplePool 4 0) s := ⟨sevenBitCodec, 1, [], by simp, made⟩
    refine ⟨s, t, reached, wrote, ((writes _ s reached).2 _ t valid (by decide) wrote).2 fun i _ => ?_⟩
    refine Nat.lt_of_le_of_lt (Range.lengthIn_le _ valid i) ?_
    exact ConstBuffer.blobAt_size_lt (by decide) (by decide) i

def zeros (n : Nat) : ConstBlob := ⟨some ⟨1, List.replicate n 0⟩, 0, n⟩

section Zeros

variable {n : Nat} (small : n < 2 ^ 64)
include small

theorem zeros_valid : (zeros n).Valid := by
  have length : (zeros n).memory.length = n := List.length_replicate
  exact ⟨Nat.zero_le _, Nat.le_of_eq length.symm, by rwa [length]⟩

theorem zeros_size : (zeros n).size = n := (zeros_valid small).size_eq

theorem writeBuffer_zeros (positive : 0 < n) (multiple : n % 2 ^ 32 = 0) :
    writeBuffer (simplePool 4 0) ⟨some [zeros n]⟩ = writeBytes (simplePool 4 0) [] := by
  have nonempty : (zeros n).size ≠ 0 := by
    rw [zeros_size small]
    omega
  have outside : ¬ ((zeros n).item.isSome ∧ (simplePool 4 0).memory.contains (zeros n).data = true) := by
    rw [ConstBlob.data_of_nonempty nonempty]
    rintro ⟨_, contained⟩
    cases contained
  have nothing : (zeros n).bytes.take ((zeros n).bytes.length % 2 ^ 32) = [] := by
    rw [(zeros_valid small).bytes_length, zeros_size small, multiple, List.take_zero]
  change writeBlobs _ [zeros n] = _
  rw [writeBlobs, writeConstBlob, writeShared, if_neg outside, nothing]
  exact bind_pure _

theorem zeros_reach {a b : Nat} (total : n = a + b + 1) :
    ∃ s, Reachable sevenBitCodec (.ofBuffer ⟨some [zeros n]⟩) s ∧ s.pos = a + b ∧ s.Invariant := by
  have valid : ConstBuffer.Valid ⟨some [zeros n]⟩ := by
    simpa [ConstBuffer.Valid, ConstBuffer.blobs] using zeros_valid small
  obtain ⟨fresh, _, start, stop⟩ := InputBuffer.ofBuffer_spec valid
  have length : (ConstBuffer.bytes ⟨some [zeros n]⟩).length = n := by
    simp [ConstBuffer.bytes, ConstBuffer.segments, ConstBuffer.blobs, (zeros_valid small).bytes_length,
      zeros_size small]
  have inv := fresh.invariant
  have first := inv.skip_pos sevenBitCodec (n := a) (by rw [inv.remaining_length]; omega)
  have moved := (ReadOp.skip a).after_spec sevenBitCodec inv
  have second := moved.invariant.skip_pos sevenBitCodec (n := b) (by
    rw [moved.invariant.remaining_length, moved.same.stop]
    omega)
  refine ⟨_, .step (.step .origin (.skip a)) (.skip b), by omega, ?_⟩
  exact ((ReadOp.skip b).after_spec sevenBitCodec moved.invariant).invariant

end Zeros

/-- A blob of 2^32 bytes is cast to an empty one and written as nothing; a read at that distance from the start
of its blob designates other bytes. -/
theorem narrowing_loses_bytes :
    (BondBlob.ofConstBlob (zeros (2 ^ 32))).size = 0 ∧ (zeros (2 ^ 32)).bytes.length = 2 ^ 32 ∧
    (∃ s t, Reached (simplePool 4 0) s ∧ writeBuffer (simplePool 4 0) ⟨some [zeros (2 ^ 32)]⟩ s = .ok () t ∧
      t.contents ≠ s.contents ++ ConstBuffer.bytes ⟨some [zeros (2 ^ 32)]⟩) ∧
    ∃ s, Reachable sevenBitCodec (.ofBuffer ⟨some [zeros (2 ^ 32 + 1)]⟩) s ∧ s.remaining ≠ [] ∧ s.NextWhole 1 ∧
      ¬ s.ReadsBlob 1 := by
  have size : (zeros (2 ^ 32)).size = 2 ^ 32 := zeros_size (by decide)
  have valid : (zeros (2 ^ 32)).Valid := zeros_valid (by decide)
  refine ⟨?_, valid.bytes_length.trans size, ?_, ?_⟩
  · simp only [BondBlob.ofConstBlob, size]
    decide
  · obtain ⟨_, t, run, _⟩ := exists_of_returns (fun _ => true)
      (by decide +kernel : returns _ ((do setUp (simplePool 4 0) sevenBitCodec []; writeBytes (simplePool 4 0) [])
        (members 1)) = true)
    obtain ⟨_, s, made, wrote⟩ := bind_ok.1 run
    have reached : Reached (simplePool 4 0) s := ⟨sevenBitCodec, 1, [], by simp, made⟩
    rw [← writeBuffer_zeros (n := 2 ^ 32) (by decide) (by decide) (by decide)] at wrote
    have bufferValid : ConstBuffer.Valid ⟨some [zeros (2 ^ 32)]⟩ := by
      simpa [ConstBuffer.Valid, ConstBuffer.blobs] using valid
    refine ⟨s, t, reached, wrote, fun full => ?_⟩
    have short := (reached.ready.writeBuffer_full_iff bufferValid wrote).1 full _ (List.mem_singleton_self _)
    rw [ConstBlob.data_of_nonempty (by rw [size]; decide), size] at short
    exact Nat.lt_irrefl _ (short rfl)
  · have small : 2 ^ 32 + 1 < 2 ^ 64 := by decide
    obtain ⟨s, reach, position, inv⟩ := zeros_reach small (show 2 ^ 32 + 1 = (2 ^ 32 - 1) + 1 + 1 by decide)
    have before : s.pos < (zeros (2 ^ 32 + 1)).size := by
      rw [zeros_size small, position]
      decide
    obtain ⟨offset, more, whole⟩ := reach.single_blob (zeros_valid small) before
    refine ⟨s, reach, more, whole, ?_⟩
    rw [inv.readsBlob_iff whole more, offset, position]
    decide

end IpcBond
