import IpcBond.Layout

/-! What writing costs in requests for shared memory: the items taken, the vectors resized, the elements appended. A
blob that grows does so by `minBlobSize` at least, so that its growth is paid for by the bytes that are copied. -/

namespace IpcBond.OutputBuffer
open Library.StateExcept

def copies (memory : SharedMemory) (blob : ConstBlob) (other : List Byte) : Nat :=
  if memory.contains blob.data then 0 else other.length % 2 ^ 32

def copiesAll (memory : SharedMemory) (blobs : List ConstBlob) : Nat :=
  (blobs.map fun blob => copies memory blob blob.bytes).sum

/-- The bytes that an operation copies. -/
def WriteOp.copies (memory : SharedMemory) : WriteOp → Nat
  | .value bytes => bytes.length
  | .raw bytes => bytes.length
  | .allocated bytes => bytes.length
  | .variableUnsigned _ number => (encodeVariable number).length
  | .blob source =>
    match source.toConstBlob with
    | .ok part => OutputBuffer.copies memory part source.bytes
    | .error _ => 0
  | .buffer source => copiesAll memory source.blobs
  | .range source => copiesAll memory source.parts
  | .flush => 0

/-- The requests are paid for: three for the first blob, four for each blob published, and one for each growth by
`minBlobSize` bytes, which two rounds of copied bytes pay. The cursor is `offset` bytes into its blob, which is good for
`room` bytes; where it has not grown yet, the room is `minBlobSize` at least. -/
def Affordable (copied minBlobSize requests blobs offset room : Nat) : Prop :=
  (minBlobSize * requests + 2 * offset ≤ 2 * copied + minBlobSize * (4 * blobs + 3) ∧ minBlobSize ≤ room) ∨
    (minBlobSize * requests + minBlobSize + offset ≤ 2 * copied + room + minBlobSize * (4 * blobs + 3) ∧
      room ≤ offset + minBlobSize)

namespace Affordable

variable {copied minBlobSize requests blobs offset room : Nat}
  (affordable : Affordable copied minBlobSize requests blobs offset room)
include affordable

theorem total : minBlobSize * requests ≤ 2 * copied + minBlobSize * (4 * blobs + 3) := by
  rcases affordable with ⟨spent, _⟩ | ⟨spent, near⟩
  · omega
  · omega

theorem advance (n : Nat) : Affordable (copied + n) minBlobSize requests blobs (offset + n) room := by
  rcases affordable with ⟨spent, large⟩ | ⟨spent, near⟩
  · exact Or.inl ⟨by omega, large⟩
  · exact Or.inr ⟨by omega, by omega⟩

theorem grow {n : Nat} (full : room ≤ offset + n) :
    Affordable (copied + n) minBlobSize (requests + 1) blobs (offset + n) (offset + max n minBlobSize) := by
  rw [Affordable, Nat.mul_succ]
  rcases affordable with ⟨spent, large⟩ | ⟨spent, near⟩
  · exact Or.inr ⟨by omega, by omega⟩
  · exact Or.inr ⟨by omega, by omega⟩

theorem push : Affordable copied minBlobSize (requests + 1) (blobs + 1) offset room := by
  have one : minBlobSize * (requests + 1) = minBlobSize * requests + minBlobSize := Nat.mul_succ _ _
  have four : minBlobSize * (4 * (blobs + 1) + 3) = minBlobSize * (4 * blobs + 3) + 4 * minBlobSize := by ring
  rw [Affordable, one, four]
  rcases affordable with ⟨spent, large⟩ | ⟨spent, near⟩
  · exact Or.inl ⟨by omega, large⟩
  · exact Or.inr ⟨by omega, near⟩

theorem replace {fresh : Nat} (large : minBlobSize ≤ fresh) :
    Affordable copied minBlobSize (requests + 4) (blobs + 1) 0 fresh := by
  have four : minBlobSize * (requests + 4) = minBlobSize * requests + 4 * minBlobSize := by ring
  have budget : minBlobSize * (4 * (blobs + 1) + 3) = minBlobSize * (4 * blobs + 3) + 4 * minBlobSize := by ring
  have spent := affordable.total
  refine Or.inl ⟨?_, large⟩
  omega

theorem publish : minBlobSize * (requests + 2) ≤ 2 * copied + minBlobSize * (4 * (blobs + 1) + 3) := by
  have two : minBlobSize * (requests + 2) = minBlobSize * requests + 2 * minBlobSize := by ring
  have budget : minBlobSize * (4 * (blobs + 1) + 3) = minBlobSize * (4 * blobs + 3) + 4 * minBlobSize := by ring
  have spent := affordable.total
  omega

end Affordable

structure Paid (memory : SharedMemory) (minBlobSize copied : Nat) (s : OutputBuffer) : Prop where
  ready : s.Ready memory
  minimum : s.minBlobSize = minBlobSize
  affordable : Affordable copied minBlobSize s.requests s.buffer.length s.ptr.offset s.ptrEnd.offset

variable {pool : BufferPool} {bond : BondCodec} {s t : OutputBuffer} {minBlobSize copied : Nat}

/-- `Allocate` moves the cursor where there is room, else it makes one request and has room for `minBlobSize` bytes. -/
theorem Ready.allocate_cost (ready : s.Ready pool.memory) {size : Nat} (small : size < 2 ^ 32) {ptr : Ptr}
    (run : allocate pool size s = .ok ptr t) :
    t.buffer = s.buffer ∧ t.minBlobSize = s.minBlobSize ∧ t.ptr.offset = s.ptr.offset + size ∧
      ((t.ptrEnd.offset = s.ptrEnd.offset ∧ t.requests = s.requests) ∨
        (s.ptrEnd.offset ≤ s.ptr.offset + size ∧ t.ptrEnd.offset = s.ptr.offset + max size s.minBlobSize ∧
          t.requests = s.requests + 1)) := by
  rw [ready.allocate_eq small] at run
  split at run
  · next full =>
    split at run
    · next vector resized =>
      have newSize := (ByteVector.resizeDefault_spec resized).1
      cases run
      refine ⟨rfl, rfl, ?_, Or.inr ⟨full, ?_, rfl⟩⟩
      · simp [grown, Blob.begin_]
      · simp [grown, needed, newSize, Blob.begin_]
    · cases run
  · cases run
    exact ⟨rfl, rfl, rfl, Or.inl ⟨rfl, rfl⟩⟩

namespace Paid

theorem advance (paid : s.Paid pool.memory minBlobSize copied) (bytes : List Byte)
    (room : s.ptr.offset + bytes.length ≤ s.blob.vector.size) :
    (s.advance bytes).Paid pool.memory minBlobSize (copied + bytes.length) :=
  ⟨(paid.ready.advance_wrote bytes room).ready, paid.minimum, paid.affordable.advance bytes.length⟩

theorem writeBytes (paid : s.Paid pool.memory minBlobSize copied) {bytes : List Byte} (small : bytes.length < 2 ^ 32)
    (run : OutputBuffer.writeBytes pool bytes s = .ok () t) :
    t.Paid pool.memory minBlobSize (copied + bytes.length) := by
  have next := ((paid.ready.writeBytes_outcome small).appends t run).ready
  obtain ⟨ptr, u, allocated, stored⟩ := bind_ok.1 run
  obtain ⟨buffer, same, moved, cost⟩ := paid.ready.allocate_cost small allocated
  have minimum := same.trans paid.minimum
  have grown : Affordable (copied + bytes.length) minBlobSize u.requests u.buffer.length u.ptr.offset
      u.ptrEnd.offset := by
    rw [buffer, moved]
    rcases cost with ⟨room, requests⟩ | ⟨full, room, requests⟩
    · rw [room, requests]
      exact paid.affordable.advance _
    · rw [room, requests, paid.minimum]
      exact paid.affordable.grow full
  rw [store, run_modify] at stored
  cases stored
  refine ⟨next, ?_, ?_⟩
  · split <;> exact minimum
  · split <;> exact grown

theorem writeValue (paid : s.Paid pool.memory minBlobSize copied) {value : List Byte} (small : value.length < 2 ^ 32)
    (run : OutputBuffer.writeValue pool value s = .ok () t) :
    t.Paid pool.memory minBlobSize (copied + value.length) := by
  rw [OutputBuffer.writeValue, run_bind_of_ok (run_get s)] at run
  split at run
  · next fast =>
    have := paid.ready.ptr_le
    have := paid.ready.ptrEnd_le
    rw [store_advance paid.ready.ptr_base] at run
    cases run
    exact paid.advance value (by omega)
  · exact paid.writeBytes small run

theorem writeBytewise (paid : s.Paid pool.memory minBlobSize copied) {bytes : List Byte}
    (run : OutputBuffer.writeBytewise pool bytes s = .ok () t) :
    t.Paid pool.memory minBlobSize (copied + bytes.length) := by
  induction bytes generalizing s copied with
  | nil =>
    cases run
    exact paid
  | cons byte rest ih =>
    obtain ⟨_, u, first, others⟩ := bind_ok.1 run
    have next := ih (paid.writeValue (by simp : [byte].length < 2 ^ 32) first) others
    rwa [List.length_singleton, Nat.add_assoc, Nat.add_comm 1] at next

theorem writeVariableUnsigned (paid : s.Paid pool.memory minBlobSize copied) {width : Width} {value : Nat}
    (bound : value < 2 ^ width.bits) (run : OutputBuffer.writeVariableUnsigned pool bond width value s = .ok () t) :
    t.Paid pool.memory minBlobSize (copied + (encodeVariable value).length) := by
  rw [OutputBuffer.writeVariableUnsigned, run_bind_of_ok (run_get s)] at run
  split at run
  · next fast =>
    have := paid.ready.ptr_le
    have := paid.ready.ptrEnd_le
    have := width.maxBytes_eq
    have positive : 1 ≤ width.bits / 7 := by cases width <;> decide
    have fits := encodeVariable_fits bound
    simp only at run
    rw [store_advance paid.ready.ptr_base, bond.writeUnchecked_eq width value bound] at run
    cases run
    exact paid.advance _ (by omega)
  · rw [bond.writeGeneric_eq width value bound] at run
    exact paid.writeBytewise run

theorem flush (paid : s.Paid pool.memory minBlobSize copied) (run : OutputBuffer.flush pool s = .ok () t) :
    t.Paid pool.memory minBlobSize copied := by
  have outcome := paid.ready.flush_outcome.1
  rw [run] at outcome
  have ready := outcome.ready
  obtain ⟨merged, u, first, rest⟩ := bind_ok.1 run
  rw [paid.ready.merge_run] at first
  split at first
  · cases first
    cases rest
    exact paid
  · split at first
    · cases first
      rw [if_pos rfl, takeBlob_run] at rest
      split at rest
      · cases rest
      · next blob taken =>
        split at rest
        · cases rest
        · next vector resized =>
          cases rest
          have size := (ByteVector.resizeDefault_spec resized).1
          refine ⟨ready, paid.minimum, ?_⟩
          have large : minBlobSize ≤ vector.size := by
            rw [← paid.minimum, size]
            exact Nat.le_max_right _ _
          have fresh := paid.affordable.replace large
          rwa [← show (s.merged.buffer).length = s.buffer.length + 1 from List.length_append] at fresh
    · cases first

theorem writeShared (paid : s.Paid pool.memory minBlobSize copied) {blob : ConstBlob} (valid : blob.Valid)
    {other : List Byte} {pieces : List (List Byte)}
    (outcome : Outcome pool.memory s pieces (OutputBuffer.writeShared pool blob other s))
    (run : OutputBuffer.writeShared pool blob other s = .ok () t) :
    t.Paid pool.memory minBlobSize (copied + copies pool.memory blob other) := by
  rw [run] at outcome
  rw [OutputBuffer.writeShared] at run
  by_cases contained : pool.memory.contains blob.data = true
  · rw [if_pos ⟨valid.item_isSome (not_contains_empty contained), contained⟩] at run
    obtain ⟨_, u, flushed, push⟩ := bind_ok.1 run
    rw [pushBack_run] at push
    split at push
    · cases push
      have flushed := paid.flush flushed
      have pushed := flushed.affordable.push
      rw [copies, if_pos contained]
      refine ⟨outcome.ready, flushed.minimum, ?_⟩
      rwa [← show (u.buffer ++ [blob]).length = u.buffer.length + 1 from List.length_append] at pushed
    · cases push
  · have narrow := Nat.mod_lt other.length (show 2 ^ 32 > 0 by decide)
    have length : (other.take (other.length % 2 ^ 32)).length = other.length % 2 ^ 32 := by
      rw [List.length_take, Nat.min_eq_left (Nat.mod_le _ _)]
    rw [if_neg fun both => contained both.2] at run
    have wrote := paid.writeBytes (by rw [length]; exact narrow) run
    rwa [length, ← show copies pool.memory blob other = other.length % 2 ^ 32 from if_neg contained] at wrote

theorem writeBlobs (paid : s.Paid pool.memory minBlobSize copied) {blobs : List ConstBlob}
    (valid : ∀ blob ∈ blobs, blob.Valid) (run : OutputBuffer.writeBlobs pool blobs s = .ok () t) :
    t.Paid pool.memory minBlobSize (copied + copiesAll pool.memory blobs) := by
  induction blobs generalizing s copied with
  | nil =>
    cases run
    exact paid
  | cons blob rest ih =>
    obtain ⟨_, u, first, others⟩ := bind_ok.1 run
    have blobValid := valid blob List.mem_cons_self
    have one := paid.writeShared blobValid (paid.ready.writeConstBlob_outcome blobValid) first
    have next := ih one (fun other member => valid other (List.mem_cons_of_mem _ member)) others
    rwa [Nat.add_assoc] at next

theorem op (paid : s.Paid pool.memory minBlobSize copied) {op : WriteOp} (formed : op.WellFormed)
    (run : op.run pool bond s = .ok () t) : t.Paid pool.memory minBlobSize (copied + op.copies pool.memory) := by
  cases op with
  | value bytes => exact paid.writeValue formed run
  | raw bytes => exact paid.writeBytes formed run
  | allocated bytes => exact paid.writeBytes formed run
  | variableUnsigned width number => exact paid.writeVariableUnsigned formed run
  | blob source =>
    have outcome := paid.ready.writeBlob_outcome formed
    obtain ⟨part, u, cast, shared⟩ := bind_ok.1 run
    cases casts : source.toConstBlob with
    | error e =>
      rw [casts] at cast
      cases cast
    | ok back =>
      rw [casts] at cast
      cases cast
      rw [writeBlob, casts] at outcome
      rw [WriteOp.copies, casts]
      exact paid.writeShared (BondBlob.toConstBlob_valid formed casts) outcome shared
  | buffer source =>
    simp only [WriteOp.run, writeBuffer] at run
    split at run
    · exact paid.writeBlobs formed run
    · next null =>
      cases run
      obtain ⟨item⟩ := source
      cases item with
      | none => exact paid
      | some blobs => exact absurd rfl null
  | range source =>
    rw [WriteOp.run, writeRange_eq pool formed.1 formed.2] at run
    exact paid.writeBlobs (formed.2.parts_cut formed.1).2 run
  | flush => exact paid.flush run

theorem ops (paid : s.Paid pool.memory minBlobSize copied) {ops : List WriteOp} (formed : ∀ op ∈ ops, op.WellFormed)
    (run : runOps pool bond ops s = .ok () t) :
    t.Paid pool.memory minBlobSize (copied + (ops.map (WriteOp.copies pool.memory)).sum) := by
  induction ops generalizing s copied with
  | nil =>
    cases run
    exact paid
  | cons op rest ih =>
    obtain ⟨_, u, first, others⟩ := bind_ok.1 run
    have next := ih (paid.op (formed op List.mem_cons_self) first)
      (fun other member => formed other (List.mem_cons_of_mem _ member)) others
    rwa [Nat.add_assoc] at next

end Paid

theorem make_paid (run : make pool (members minBlobSize) = .ok () t) :
    t.Paid pool.memory (members minBlobSize).minBlobSize 0 := by
  have ready := (make_spec run).1
  rw [make, run_bind_of_ok (request_run _)] at run
  split at run
  · rw [takeBlob_run] at run
    split at run
    · cases run
    · next blob taken =>
      split at run
      · cases run
      · next vector resized =>
        cases run
        have size := (ByteVector.resizeDefault_spec resized).1
        have three : (members minBlobSize).minBlobSize * 3 + 2 * 0 ≤
            2 * 0 + (members minBlobSize).minBlobSize * (4 * 0 + 3) := by omega
        exact ⟨ready, rfl, Or.inl ⟨three, size ▸ Nat.le_max_right _ _⟩⟩
  · cases run

theorem Paid.finish (paid : s.Paid pool.memory minBlobSize copied) {finish : Finish} {buffer : ConstBuffer}
    (run : finish.run pool s = .ok buffer t) :
    minBlobSize * t.requests ≤ 2 * copied + minBlobSize * (4 * buffer.blobs.length + 3) := by
  cases finish with
  | unchanged =>
    rw [Finish.run, getBufferConst, run_bind_of_ok (run_get s)] at run
    split at run
    · cases run
    · cases run
      exact paid.affordable.total
  | flushed =>
    obtain ⟨_, u, flushed, result⟩ := bind_ok.1 run
    cases result
    exact (paid.flush flushed).affordable.total
  | moved =>
    obtain ⟨_, u, merged, result⟩ := bind_ok.1 run
    cases result
    rw [paid.ready.merge_run] at merged
    split at merged
    · cases merged
      exact paid.affordable.total
    · split at merged
      · cases merged
        have published := paid.affordable.publish
        rwa [← show s.merged.buffer.length = s.buffer.length + 1 from List.length_append] at published
      · cases merged

/-- The requests for shared memory that a finished buffer has cost: two for each `minBlobSize` bytes copied, four for
each of its blobs, and three, whatever the sizes of the writes and the capacities that the pool gives. So what is not
paid for by the bytes copied is eight for each blob shared, four for each flush, and seven. -/
theorem write_cost (pool : BufferPool) (bond : BondCodec) (minBlobSize : Nat) (ops : List WriteOp) (finish : Finish)
    (formed : ∀ op ∈ ops, op.WellFormed) {buffer : ConstBuffer} {t : OutputBuffer}
    (run : produce pool bond ops finish (members minBlobSize) = .ok buffer t) :
    let minimum := if minBlobSize ≠ 0 then minBlobSize else 4096
    let copied := (ops.map (WriteOp.copies pool.memory)).sum
    let shared := (Layout.finished pool.memory ops).countP Element.isShared
    minimum * t.requests ≤ 2 * copied + minimum * (4 * buffer.blobs.length + 3) ∧
      minimum * t.requests ≤ 2 * copied + minimum * (8 * shared + 4 * ops.countP WriteOp.isFlush + 7) := by
  intro minimum copied shared
  obtain ⟨_, u, wrote, finished⟩ := bind_ok.1 run
  obtain ⟨_, m, made, written⟩ := bind_ok.1 wrote
  have paid := ((make_paid made).ops formed written).finish finished
  rw [Nat.zero_add] at paid
  have compact := produce_compact formed run
  have fewer : 4 * buffer.blobs.length + 3 ≤ 8 * shared + 4 * ops.countP WriteOp.isFlush + 7 := by omega
  exact ⟨paid, paid.trans (Nat.add_le_add_left (Nat.mul_le_mul_left minimum fewer) _)⟩

theorem write_cost_grown :
    ∃ buffer t, produce (simplePool 4 0) sevenBitCodec grownOps .flushed (members 2) = .ok buffer t ∧
      2 * t.requests ≤ 2 * 8 + 2 * (4 * buffer.blobs.length + 3) ∧
        2 * t.requests ≤ 2 * 8 + 2 * (8 * 1 + 4 * 1 + 7) := by
  obtain ⟨buffer, t, run, _⟩ := exists_of_returns (fun _ => true)
    (by decide +kernel : returns _ (produce (simplePool 4 0) sevenBitCodec grownOps .flushed (members 2)) = true)
  have copied : (grownOps.map (WriteOp.copies (simplePool 4 0).memory)).sum = 8 := by decide
  have shared : (Layout.finished (simplePool 4 0).memory grownOps).countP Element.isShared = 1 := by decide
  have cost := write_cost (simplePool 4 0) sevenBitCodec 2 grownOps .flushed grownOps_formed run
  simp only [copied, shared] at cost
  exact ⟨buffer, t, run, cost⟩

end IpcBond.OutputBuffer
