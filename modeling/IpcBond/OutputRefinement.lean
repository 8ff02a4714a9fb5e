import IpcBond.OutputContents

/-! `OutputBuffer` refines a flat byte list: the blobs of a finished buffer, concatenated, are
the bytes of the writes in their order, and no write of one piece is cut in two. -/

namespace IpcBond
open Library.Segments Library.StateExcept

namespace OutputBuffer

inductive WriteOp where
  | value (value : List Byte)
  | raw (bytes : List Byte)
  | allocated (bytes : List Byte)
  | variableUnsigned (width : Width) (value : Nat)
  | blob (blob : BondBlob)
  | buffer (buffer : ConstBuffer)
  | range (range : Range)
  | flush

/-- What the caller then takes the buffer with: `GetBuffer() const &`, `GetBuffer() &` or
`GetBuffer() &&`. -/
inductive Finish where
  | unchanged
  | flushed
  | moved
  deriving DecidableEq, Repr

namespace WriteOp

def run (pool : BufferPool) (bond : BondCodec) : WriteOp → Writer Unit
  | .value bytes => writeValue pool bytes
  | .raw bytes => writeBytes pool bytes
  | .allocated bytes => do
    let ptr ← allocate pool bytes.length
    store ptr bytes
  | .variableUnsigned width number => writeVariableUnsigned pool bond width number
  | .blob source => writeBlob pool source
  | .buffer source => writeBuffer pool source
  | .range source => writeRange pool source
  | .flush => OutputBuffer.flush pool

def bytes : WriteOp → List Byte
  | .value bytes => bytes
  | .raw bytes => bytes
  | .allocated bytes => bytes
  | .variableUnsigned _ number => encodeVariable number
  | .blob source => source.bytes
  | .buffer source => source.bytes
  | .range source => source.bytes
  | .flush => []

def blobs : WriteOp → List ConstBlob
  | .buffer source => source.blobs
  | .range source => source.parts
  | _ => []

/-- The stretches that an operation leaves in one piece. -/
def pieces (memory : SharedMemory) : WriteOp → List (List Byte)
  | .value bytes => [bytes]
  | .raw bytes => [bytes]
  | .allocated bytes => [bytes]
  | .variableUnsigned _ number => (encodeVariable number).map fun byte => [byte]
  | .blob source => [source.bytes]
  | .buffer source => source.blobs.map (written memory)
  | .range source => source.parts.map (written memory)
  | .flush => []

def WellFormed : WriteOp → Prop
  | .value bytes => bytes.length < 2 ^ 32
  | .raw bytes => bytes.length < 2 ^ 32
  | .allocated bytes => bytes.length < 2 ^ 32
  | .variableUnsigned width number => number < 2 ^ width.bits
  | .blob source => source.Valid
  | .buffer source => source.Valid
  | .range source => source.buffer.Valid ∧ source.InBounds
  | .flush => True

def Copyable (memory : SharedMemory) (op : WriteOp) : Prop :=
  ∀ blob ∈ op.blobs, memory.contains blob.data = false → blob.size < 2 ^ 32

theorem blobs_valid {op : WriteOp} (formed : op.WellFormed) : ∀ blob ∈ op.blobs, blob.Valid := by
  cases op with
  | buffer buffer => exact formed
  | range range => exact (formed.2.parts_cut formed.1).2
  | value bytes => simp [blobs]
  | raw bytes => simp [blobs]
  | allocated bytes => simp [blobs]
  | variableUnsigned width value => simp [blobs]
  | blob blob => simp [blobs]
  | flush => simp [blobs]

theorem pieces_flatten {memory : SharedMemory} {op : WriteOp} (formed : op.WellFormed)
    (copyable : op.Copyable memory) : (op.pieces memory).flatten = op.bytes := by
  have exact : op.blobs.map (written memory) = op.blobs.map ConstBlob.bytes :=
    List.map_congr_left fun blob member => written_eq (blobs_valid formed blob member) (copyable blob member)
  cases op with
  | value bytes => exact List.append_nil _
  | raw bytes => exact List.append_nil _
  | allocated bytes => exact List.append_nil _
  | variableUnsigned width value => exact List.flatMap_singleton' _
  | blob blob => exact List.append_nil _
  | buffer buffer => exact congrArg List.flatten exact
  | range range =>
    have cut := (formed.2.parts_cut formed.1).1.1
    rw [bytes, Range.bytes, ← List.drop_take]
    exact (congrArg List.flatten exact).trans cut
  | flush => rfl

end WriteOp

theorem WriteOp.pieces_flatMap {memory : SharedMemory} {ops : List WriteOp} (formed : ∀ op ∈ ops, op.WellFormed)
    (copyable : ∀ op ∈ ops, op.Copyable memory) :
    (ops.flatMap (WriteOp.pieces memory)).flatten = ops.flatMap WriteOp.bytes := by
  rw [List.flatMap, List.flatten_flatten, List.map_map, List.flatMap]
  exact congrArg List.flatten (List.map_congr_left fun op member =>
    pieces_flatten (formed op member) (copyable op member))

variable {pool : BufferPool} {bond : BondCodec} {s t : OutputBuffer}

theorem Ready.op_appends (ready : s.Ready pool.memory) {op : WriteOp} (formed : op.WellFormed) :
    Appends pool (op.run pool bond) (op.pieces pool.memory) s := by
  cases op with
  | value bytes => exact (ready.writeValue_outcome formed).appends
  | raw bytes => exact (ready.writeBytes_outcome formed).appends
  | allocated bytes => exact (ready.writeBytes_outcome formed).appends
  | variableUnsigned width value => exact ready.writeVariableUnsigned_appends bond formed
  | blob blob => exact (ready.writeBlob_outcome formed).appends
  | buffer buffer =>
    intro t run
    simp only [WriteOp.run, writeBuffer] at run
    split at run
    · exact ready.writeBlobs_appends formed t run
    · next null =>
      cases run
      have empty : buffer.blobs = [] := by
        obtain ⟨item⟩ := buffer
        cases item with
        | none => rfl
        | some blobs => exact absurd rfl null
      simp only [WriteOp.pieces, empty, List.map_nil]
      exact .refl ready
  | range range =>
    intro t run
    simp only [WriteOp.run, writeRange_eq pool formed.1 formed.2] at run
    exact ready.writeBlobs_appends (formed.2.parts_cut formed.1).2 t run
  | flush => exact ready.flush_outcome.1.appends

def runOps (pool : BufferPool) (bond : BondCodec) : List WriteOp → Writer Unit
  | [] => return
  | op :: rest => do
    op.run pool bond
    runOps pool bond rest

theorem Ready.ops_append (ready : s.Ready pool.memory) {ops : List WriteOp}
    (formed : ∀ op ∈ ops, op.WellFormed) :
    Appends pool (runOps pool bond ops) (ops.flatMap (WriteOp.pieces pool.memory)) s := by
  induction ops generalizing s with
  | nil =>
    intro t run
    cases run
    exact .refl ready
  | cons op rest ih =>
    exact (ready.op_appends (formed op List.mem_cons_self)).then fun t next =>
      ih next fun other member => formed other (List.mem_cons_of_mem _ member)

theorem members_min (minBlobSize : Nat) : 0 < (members minBlobSize).minBlobSize := by
  simp only [members]
  split <;> omega

theorem make_spec {minBlobSize : Nat} (run : make pool (members minBlobSize) = .ok () t) :
    t.Ready pool.memory ∧ t.segments = [[]] := by
  rw [make, run_bind_of_ok (request_run _)] at run
  split at run
  · rw [takeBlob_run] at run
    split at run
    · cases run
    · next blob taken =>
      simp only at run
      split at run
      · cases run
      · next vector resized =>
        cases run
        obtain ⟨data, _⟩ := pool.takeBlob_data taken
        have size := (ByteVector.resizeDefault_spec resized).1
        have small : (members minBlobSize).minBlobSize < 2 ^ 63 := by
          have := vector.size_le
          have := vector.small
          omega
        have contained : pool.memory.contains blob.begin_ = true := pool.takeBlob_contained taken
        exact ⟨⟨rfl, data, contained, Nat.zero_le _, Nat.le_max_left _ _, members_min _, small, by simp [members], rfl⟩,
          rfl⟩
  · cases run

def Finish.run (pool : BufferPool) : Finish → Writer ConstBuffer
  | unchanged => getBufferConst
  | flushed => getBuffer pool
  | moved => getBufferMoved pool

theorem Ready.finish_spec (ready : s.Ready pool.memory) {finish : Finish} {buffer : ConstBuffer}
    (run : finish.run pool s = .ok buffer t) :
    Coarser s.segments buffer.segments ∧ ∀ blob ∈ buffer.blobs, Published pool.memory blob := by
  cases finish with
  | unchanged =>
    simp only [Finish.run, getBufferConst] at run
    rw [run_bind_of_ok (run_get s)] at run
    split at run
    · cases run
    · next start =>
      cases run
      have start : s.ptr.offset = 0 := by rw [not_not.mp start, Blob.begin_]
      rw [segments_at_start start]
      exact ⟨.drop_last _, ready.published⟩
  | flushed =>
    obtain ⟨_, u, flushed, result⟩ := bind_ok.1 run
    obtain ⟨outcome, fresh⟩ := ready.flush_outcome
    have start := fresh u flushed
    rw [flushed] at outcome
    cases result
    refine ⟨?_, outcome.ready.published⟩
    have segments := outcome.segments
    rw [List.append_nil, segments_at_start start] at segments
    exact segments.trans (.drop_last _)
  | moved =>
    obtain ⟨_, u, merged, result⟩ := bind_ok.1 run
    rw [ready.merge_run] at merged
    cases result
    split at merged
    · next start =>
      cases merged
      refine ⟨?_, ready.published⟩
      rw [segments_at_start start]
      exact .drop_last _
    · next started =>
      split at merged
      · cases merged
        refine ⟨?_, ready.merged_published started⟩
        have bytes := (ready.published_pending started).2
        simp only [ConstBuffer.segments, ConstBuffer.blobs, OutputBuffer.merged, Option.getD_some, List.map_append,
          List.map_cons, List.map_nil, bytes]
        exact .refl _
      · cases merged

def setUp (pool : BufferPool) (bond : BondCodec) (ops : List WriteOp) : Writer Unit := do
  make pool
  runOps pool bond ops

def Reached (pool : BufferPool) (s : OutputBuffer) : Prop :=
  ∃ bond minBlobSize ops, (∀ op ∈ ops, WriteOp.WellFormed op) ∧
    setUp pool bond ops (members minBlobSize) = .ok () s

def produce (pool : BufferPool) (bond : BondCodec) (ops : List WriteOp) (finish : Finish) : Writer ConstBuffer := do
  setUp pool bond ops
  finish.run pool

theorem setUp_spec {minBlobSize : Nat} {ops : List WriteOp} (formed : ∀ op ∈ ops, op.WellFormed)
    (run : setUp pool bond ops (members minBlobSize) = .ok () t) :
    t.Ready pool.memory ∧ Coarser (ops.flatMap (WriteOp.pieces pool.memory)) t.segments := by
  obtain ⟨_, u, made, wrote⟩ := bind_ok.1 run
  obtain ⟨ready, empty⟩ := make_spec made
  have appended := ready.ops_append formed t wrote
  refine ⟨appended.ready, Coarser.trans ?_ appended.segments⟩
  rw [empty]
  exact Coarser.append .add_empty (.refl _)

theorem Reached.ready (reached : Reached pool s) : s.Ready pool.memory := by
  obtain ⟨bond, minBlobSize, ops, formed, run⟩ := reached
  exact (setUp_spec formed run).1

/-- A finished buffer consists of the pieces written, some of them joined. -/
theorem produce_spec {minBlobSize : Nat} {ops : List WriteOp} {finish : Finish} {buffer : ConstBuffer}
    (formed : ∀ op ∈ ops, op.WellFormed)
    (run : produce pool bond ops finish (members minBlobSize) = .ok buffer t) :
    Coarser (ops.flatMap (WriteOp.pieces pool.memory)) buffer.segments ∧
      ∀ blob ∈ buffer.blobs, Published pool.memory blob := by
  obtain ⟨_, u, wrote, finished⟩ := bind_ok.1 run
  obtain ⟨ready, pieces⟩ := setUp_spec formed wrote
  obtain ⟨segments, published⟩ := ready.finish_spec finished
  exact ⟨pieces.trans segments, published⟩

/-- `OutputBuffer` refines a flat byte list, whichever operations share blobs and whichever copy. -/
theorem refines_flat_list (pool : BufferPool) (bond : BondCodec) (minBlobSize : Nat) (ops : List WriteOp)
    (finish : Finish) (formed : ∀ op ∈ ops, op.WellFormed) (copyable : ∀ op ∈ ops, op.Copyable pool.memory)
    {buffer : ConstBuffer} {t : OutputBuffer}
    (run : produce pool bond ops finish (members minBlobSize) = .ok buffer t) :
    buffer.bytes = ops.flatMap WriteOp.bytes ∧
      ∀ blob ∈ buffer.blobs, blob.item.isSome ∧ 1 ≤ blob.size ∧
        ∀ i < blob.size, pool.memory.contains (blob.data.add i) = true := by
  obtain ⟨segments, published⟩ := produce_spec formed run
  refine ⟨?_, fun blob member => ?_⟩
  · rw [ConstBuffer.bytes, segments.1, WriteOp.pieces_flatMap formed copyable]
  · obtain ⟨valid, item, nonempty, contained⟩ := published blob member
    refine ⟨item, Nat.pos_of_ne_zero nonempty, fun i _ => ?_⟩
    rw [ConstBlob.data_of_nonempty nonempty] at contained ⊢
    cases data : blob.item.map Data.id with
    | none =>
      rw [Option.map_eq_none_iff.1 data] at item
      cases item
    | some id =>
      rw [data] at contained
      rw [← contained]
      exact pool.memory.contains_data id _ _

/-- Shared and copied blobs, a range, a flush and a variable-length value. -/
theorem refines_flat_list_mixed :
    let shared : ConstBlob := ⟨some ⟨200, [7, 8, 9]⟩, 1, 3⟩
    let foreign : ConstBlob := ⟨some ⟨7, [4, 5, 6]⟩, 0, 3⟩
    let ops : List WriteOp := [.value [1, 2, 3], .blob (.ofBytes [4, 5]), .buffer ⟨some [shared, foreign]⟩,
      .range ⟨⟨some [shared, foreign]⟩, 0, 1, 1, 2⟩, .flush, .variableUnsigned .bits16 300]
    ∃ buffer t, produce (simplePool 4 0) sevenBitCodec ops .moved (members 2) = .ok buffer t ∧
      buffer.bytes = [1, 2, 3, 4, 5, 8, 9, 4, 5, 6, 9, 4, 5, 172, 2] := by
  intro shared foreign ops
  obtain ⟨buffer, t, run, _⟩ := exists_of_returns (fun _ => true)
    (by decide +kernel : returns _ (produce (simplePool 4 0) sevenBitCodec ops .moved (members 2)) = true)
  refine ⟨buffer, t, run, ?_⟩
  have inMemory : ∀ blob ∈ [shared, foreign], blob.Valid ∧ blob.size < 2 ^ 32 := by decide
  have copied : ∀ blob ∈ Range.parts ⟨⟨some [shared, foreign]⟩, 0, 1, 1, 2⟩, blob.size < 2 ^ 32 := by decide
  refine (refines_flat_list _ _ _ ops .moved ?_ ?_ run).1.trans (by decide +kernel)
  · simp only [ops, List.forall_mem_cons, WriteOp.WellFormed, List.length_cons, List.length_nil]
    refine ⟨by decide, BondBlob.ofBytes_valid (by decide), fun blob member => (inMemory blob member).1,
      ⟨fun blob member => (inMemory blob member).1, by decide⟩, trivial, by decide, by simp⟩
  · simp only [ops, List.forall_mem_cons, WriteOp.Copyable, WriteOp.blobs]
    exact ⟨by simp, by simp, fun blob member _ => (inMemory blob member).2, fun blob member _ => copied blob member,
      by simp, by simp, by simp⟩

end OutputBuffer

end IpcBond
