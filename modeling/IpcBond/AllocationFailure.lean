import IpcBond.OutputRefinement

/-! A failed allocation in an `OutputBuffer`. Growing the current blob and appending a shared one
fail cleanly. `Flush` does not: it trims the current blob, publishes it and replaces it in steps,
and an exception between two of them leaves the cursor and the blob apart. -/

namespace IpcBond.OutputBuffer
open Library.Memory Library.Segments Library.StateExcept

def WriteOp.single : WriteOp → Bool
  | .value _ => true
  | .raw _ => true
  | .allocated _ => true
  | .blob _ => true
  | .flush => true
  | _ => false

/-- The failures that leave the contents intact: while the current blob has at most one unused
byte, no write that follows a failed `push_back` in `Merge` can take the fast path. -/
def Tolerated (s : OutputBuffer) (allocation : Allocation) : Prop :=
  allocation = .growBlob ∨ allocation = .pushShared ∨
    allocation = .pushMerged ∧ s.ptrEnd.offset ≤ s.ptr.offset + 1

inductive Running (pool : BufferPool) (bond : BondCodec) : OutputBuffer → Prop where
  | made {minBlobSize : Nat} {s : OutputBuffer} (run : make pool (members minBlobSize) = .ok () s) :
      Running pool bond s
  | wrote {s t : OutputBuffer} (running : Running pool bond s) {op : WriteOp} (formed : op.WellFormed)
      (run : op.run pool bond s = .ok () t) : Running pool bond t
  | failed {s t : OutputBuffer} (running : Running pool bond s) {op : WriteOp} (single : op.single)
      (formed : op.WellFormed) {allocation : Allocation}
      (run : op.run pool bond s = .error (.badAlloc allocation) t) (tolerated : Tolerated s allocation) :
      Running pool bond t

/-- The exception has changed nothing: not the contents, nor what any later writes make of them,
whatever the pool answers from then on. -/
structure Survives (pool : BufferPool) (s t : OutputBuffer) : Prop where
  contents : t.contents = s.contents
  cursor : t.ptr.base = t.blob.data ∧ t.ptr.offset ≤ t.blob.vector.size
  later : ∀ (pool' : BufferPool) (bond : BondCodec) (ops : List WriteOp) (finish : Finish)
    (buffer : ConstBuffer) (u : OutputBuffer), pool'.memory = pool.memory →
    (∀ op ∈ ops, op.WellFormed) → (∀ op ∈ ops, op.Copyable pool'.memory) →
    (do runOps pool' bond ops; finish.run pool' : Writer ConstBuffer) t = .ok buffer u →
    buffer.bytes = s.contents ++ ops.flatMap WriteOp.bytes

variable {pool : BufferPool} {bond : BondCodec} {s t : OutputBuffer}

theorem Ready.single_outcome (ready : s.Ready pool.memory) (bond : BondCodec) {op : WriteOp} (single : op.single)
    (formed : op.WellFormed) : Outcome pool.memory s (op.pieces pool.memory) (op.run pool bond s) := by
  cases op with
  | value bytes => exact ready.writeValue_outcome formed
  | raw bytes => exact ready.writeBytes_outcome formed
  | allocated bytes => exact ready.writeBytes_outcome formed
  | blob source => exact ready.writeBlob_outcome formed
  | flush => exact ready.flush_outcome.1
  | variableUnsigned width number => cases single
  | buffer source => cases single
  | range source => cases single

theorem Fails.ready {allocation : Allocation} (fails : Fails pool.memory s allocation t)
    (ready : s.Ready pool.memory) (tolerated : Tolerated s allocation) :
    t.Ready pool.memory ∧ t.contents = s.contents := by
  cases fails with
  | growBlob => exact ⟨⟨ready.ptr_base, ready.data, ready.contained, ready.ptr_le, ready.ptrEnd_le,
      ready.min_pos, ready.min_lt, ready.published, ready.disciplined⟩, rfl⟩
  | pushMerged started =>
    have slack : s.ptrEnd.offset ≤ s.ptr.offset + 1 := by
      rcases tolerated with grow | push | ⟨_, slack⟩
      · cases grow
      · cases push
      · exact slack
    refine ⟨⟨ready.ptr_base, ready.data, ready.contained, ?_, ?_, ready.min_pos, ready.min_lt,
      ready.published, ?_⟩, rfl⟩
    · exact Nat.le_min.2 ⟨Nat.le_refl _, ready.ptr_le⟩
    · exact Nat.le_trans slack (Nat.le_max_right _ _)
    · rw [phase_append [.resize (s.blob.vector.trim s.ptr.offset)] ready.disciplined rfl]
      rfl
  | takeBlob _ => rcases tolerated with grow | push | ⟨merge, _⟩ <;> contradiction
  | sizeBlob _ _ _ => rcases tolerated with grow | push | ⟨merge, _⟩ <;> contradiction
  | pushShared flushed =>
    refine ⟨flushed.ready, ?_⟩
    rw [contents, flushed.segments.1, List.append_nil]
    rfl

theorem Running.ready (running : Running pool bond s) : s.Ready pool.memory := by
  induction running with
  | made run => exact (make_spec run).1
  | wrote _ formed run ih => exact (ih.op_appends formed _ run).ready
  | failed _ single formed run tolerated ih =>
    have outcome := ih.single_outcome bond single formed
    rw [run] at outcome
    obtain ⟨_, same, fails⟩ := outcome
    cases same
    exact (fails.ready ih tolerated).1

theorem Running.runOps {ops : List WriteOp} (running : Running pool bond s) (formed : ∀ op ∈ ops, op.WellFormed)
    (run : OutputBuffer.runOps pool bond ops s = .ok () t) : Running pool bond t := by
  induction ops generalizing s with
  | nil =>
    cases run
    exact running
  | cons op rest ih =>
    obtain ⟨_, u, first, later⟩ := bind_ok.1 run
    exact ih (running.wrote (formed op List.mem_cons_self) first)
      (fun other member => formed other (List.mem_cons_of_mem _ member)) later

theorem Running.setUp {minBlobSize : Nat} {ops : List WriteOp} (formed : ∀ op ∈ ops, op.WellFormed)
    (run : OutputBuffer.setUp pool bond ops (members minBlobSize) = .ok () s) : Running pool bond s := by
  obtain ⟨_, t, made, wrote⟩ := bind_ok.1 run
  exact (Running.made made).runOps formed wrote

/-- From a state with the contents of `s`, later writes append to them. -/
theorem Ready.survives (ready : t.Ready pool.memory) (same : t.contents = s.contents) : Survives pool s t := by
  refine ⟨same, ⟨ready.ptr_base, ready.ptr_le⟩, ?_⟩
  intro pool' bond ops finish buffer u memory formed copyable run
  have ready' : t.Ready pool'.memory := memory ▸ ready
  obtain ⟨_, v, wrote, finished⟩ := bind_ok.1 run
  have appended := ready'.ops_append formed v wrote
  have segments := appended.segments.trans (appended.ready.finish_spec finished).1
  rw [ConstBuffer.bytes, segments.1, List.flatten_append, WriteOp.pieces_flatMap formed copyable, ← same]
  rfl

/-- After a failed `push_back` with two unused bytes or more, a byte written next is lost: it
goes through the fast path to memory that the next `Merge` fills with zero. -/
theorem Ready.lost_byte (pool : BufferPool) (bond : BondCodec) (ready : s.Ready pool.memory)
    (slack : s.ptr.offset + 1 < s.ptrEnd.offset) (requests : Nat) (answering : ∀ request, pool.pushBack request = true) :
    ∃ buffer u, (do runOps pool bond [.value [1]]; Finish.moved.run pool : Writer ConstBuffer)
        { s.trimmed with requests := requests } = .ok buffer u ∧ buffer.bytes = s.contents ++ [0] := by
  have inside := ready.ptr_le
  have covered := ready.ptrEnd_le
  have fits := s.blob.vector.size_le
  have small := s.blob.vector.small
  let failed : OutputBuffer := { s.trimmed with requests := requests }
  have written : runOps pool bond [.value [1]] failed = .ok () (failed.advance [1]) := by
    have fast : failed.ptr.offset + [(1 : Byte)].length < failed.ptrEnd.offset := slack
    rw [runOps, WriteOp.run, writeValue, bind_assoc, run_bind_of_ok (run_get failed)]
    rw [if_pos fast, run_bind_of_ok (store_advance (s := failed) ready.ptr_base [1])]
    rfl
  have size : (failed.advance [1]).blob.vector.size = s.ptr.offset := Nat.min_eq_left inside
  obtain ⟨w, resized, wSize, elements⟩ := ByteVector.resize_within (v := (failed.advance [1]).blob.vector)
    (n := s.ptr.offset + 1) (by omega)
    (by change _ ≤ (Library.Memory.store s.blob.vector.storage _ _).length; rw [store_length]; omega)
    (pool.grow (failed.advance [1]).requests (s.ptr.offset + 1))
  have offset : (failed.advance [1]).ptr.sub (failed.advance [1]).blob.begin_ = ((s.ptr.offset + 1 : Nat) : Int) :=
    offset_eq _
  have wraps : sizeT ((s.ptr.offset + 1 : Nat) : Int) = s.ptr.offset + 1 := by
    unfold sizeT
    omega
  have merges : merge pool (failed.advance [1]) = .ok true { failed.advance [1] with
      blob := ⟨s.blob.data, w⟩
      buffer := s.buffer ++ [Blob.toConst ⟨s.blob.data, w⟩]
      requests := requests + 2
      effects := (failed.advance [1]).effects ++ [.resize w] ++ [.push .pushMerged (Blob.toConst ⟨s.blob.data, w⟩)] } := by
    rw [merge, run_bind_of_ok (run_get _), offset, if_pos (by omega), wraps, run_bind, resize_run, resized]
    simp only
    rw [run_bind_of_ok (run_get _), run_bind, pushBack_run, if_pos (answering _)]
    rfl
  have finished := (run_bind_of_ok (f := fun _ => (do return ⟨some (← get).buffer⟩ : Writer ConstBuffer)) merges)
  refine ⟨_, _, (run_bind_of_ok written).trans finished, ?_⟩
  obtain ⟨_, _, _, bytes⟩ := Blob.toConst_spec ⟨s.blob.data, w⟩ ready.data
  have room : s.ptr.offset + [(1 : Byte)].length ≤ s.blob.vector.storage.length := by
    rw [List.length_singleton]
    omega
  have kept : (failed.advance [1]).blob.vector.elements = s.pending := by
    rw [ByteVector.elements, size]
    exact take_store room (Nat.le_refl _)
  have added : w.elements = s.pending ++ [0] := by
    rw [elements, kept, size, Nat.add_sub_cancel_left]
    rfl
  simp [ConstBuffer.bytes, ConstBuffer.segments, ConstBuffer.blobs, bytes, added, contents, segments]

/-- A failed allocation leaves the contents intact exactly where it is tolerated. -/
theorem failed_allocation_iff (running : Running pool bond s) {op : WriteOp} (single : op.single)
    (formed : op.WellFormed) {allocation : Allocation}
    (run : op.run pool bond s = .error (.badAlloc allocation) t) :
    Survives pool s t ↔ Tolerated s allocation := by
  have ready := running.ready
  have outcome := ready.single_outcome bond single formed
  rw [run] at outcome
  obtain ⟨_, same, fails⟩ := outcome
  cases same
  refine ⟨fun survives => ?_, fun tolerated => ?_⟩
  · cases fails with
    | growBlob => exact Or.inl rfl
    | pushMerged started =>
      refine Or.inr (Or.inr ⟨rfl, ?_⟩)
      by_contra slack
      let generous : BufferPool := { pool with pushBack := fun _ => true }
      obtain ⟨buffer, u, result, bytes⟩ := Ready.lost_byte generous bond (s := s) ready (by omega)
        (s.requests + 2) fun _ => rfl
      have expected := survives.later generous bond [.value [1]] .moved buffer u rfl (by simp [WriteOp.WellFormed])
        (by simp [WriteOp.Copyable, WriteOp.blobs]) result
      rw [bytes, List.append_cancel_left_eq] at expected
      exact absurd expected (by decide)
    | takeBlob started =>
      -- the pending bytes are published, and still before the cursor
      have bytes := (ready.published_pending started).2
      have pending_length := ready.pending_length
      have doubled : contents { s.merged with requests := s.requests + 3 } = s.contents ++ s.pending := by
        have kept : OutputBuffer.pending { s.merged with requests := s.requests + 3 } = s.pending := rfl
        rw [contents, segments, kept]
        simp [merged, contents, segments, bytes]
      have same := congrArg List.length (doubled.symm.trans survives.contents)
      rw [List.length_append] at same
      omega
    | sizeBlob started ptr fresh =>
      have base := survives.cursor.1
      rw [ptr, ready.ptr_base] at base
      exact absurd base.symm fresh
    | pushShared _ => exact Or.inr (Or.inl rfl)
  · obtain ⟨next, contents⟩ := fails.ready ready tolerated
    exact next.survives contents

/-- A write finds no memory to grow the current blob in, and changes nothing. -/
theorem failed_allocation_growth :
    let pool : BufferPool := { simplePool 4 0 with grow := fun _ _ => none }
    let s := finalState (setUp pool sevenBitCodec [.value [7]] (members 1))
    let t := finalState (writeBytes pool [1, 2, 3, 4, 5] s)
    writeBytes pool [1, 2, 3, 4, 5] s = .error (.badAlloc .growBlob) t ∧ Survives pool s t := by
  intro pool s t
  have run : setUp pool sevenBitCodec [.value [7]] (members 1) = .ok () s := rfl
  have failure : writeBytes pool [1, 2, 3, 4, 5] s = .error (.badAlloc .growBlob) t := rfl
  have running : Running pool sevenBitCodec s := .setUp (by simp [WriteOp.WellFormed]) run
  have single : (WriteOp.raw [1, 2, 3, 4, 5]).single := rfl
  exact ⟨failure, (failed_allocation_iff running single (by decide : 5 < 2 ^ 32) failure).2
    (Or.inl rfl)⟩

def failingPool : BufferPool := { simplePool 4 0 with pushBack := fun request => request != 4 }

/-- One byte is written, `Flush` fails, another byte is written: the second one is lost. -/
theorem failed_allocation_loses_byte :
    let s := finalState (setUp failingPool sevenBitCodec [.value [7]] (members 1))
    let t := finalState (flush failingPool s)
    setUp failingPool sevenBitCodec [.value [7]] (members 1) = .ok () s ∧
      flush failingPool s = .error (.badAlloc .pushMerged) t ∧
      (∃ buffer u, (do runOps failingPool sevenBitCodec [.value [1]]; Finish.moved.run failingPool) t =
        .ok buffer u ∧ buffer.bytes = [7, 0]) ∧
      ¬ Survives failingPool s t := by
  intro s t
  obtain ⟨buffer, u, result, bytes⟩ := exists_of_returns (fun buffer : ConstBuffer => buffer.bytes = [7, 0])
    (by decide +kernel : returns _ ((do
      runOps failingPool sevenBitCodec [.value [1]]
      Finish.moved.run failingPool : Writer ConstBuffer) t) = true)
  have bytes : buffer.bytes = [7, 0] := of_decide_eq_true bytes
  refine ⟨rfl, rfl, ⟨buffer, u, result, bytes⟩, fun survives => ?_⟩
  have expected := survives.later failingPool sevenBitCodec [.value [1]] .moved buffer u rfl
    (by simp [WriteOp.WellFormed]) (by simp [WriteOp.Copyable, WriteOp.blobs]) result
  rw [bytes] at expected
  exact absurd expected (by decide)

end IpcBond.OutputBuffer
