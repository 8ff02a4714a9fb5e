import IpcBond.OutputRefinement

/-! An `OutputBuffer` throws only where its pool refuses a request for shared memory, which is the last one that the
call has made. -/

namespace IpcBond
open Library.StateExcept

theorem ByteVector.resizeDefault_none {v : ByteVector} {n : Nat} {memory : Option (Allocated n)}
    (short : v.resizeDefault n memory = none) : v.capacity < n ∧ memory = none := by
  unfold resizeDefault at short
  split at short
  · cases short
  · next larger => exact ⟨Nat.lt_of_not_le larger, Option.map_eq_none_iff.1 short⟩

namespace OutputBuffer

def Short (pool : BufferPool) (request n : Nat) (t : OutputBuffer) : Prop :=
  t.blob.vector.capacity < n ∧ pool.grow request n = none

/-- What the pool has refused, where an allocation failed that a call made to copy `size` bytes at a time. -/
def Refuses (pool : BufferPool) (size request : Nat) (t : OutputBuffer) : Allocation → Prop
  | .takeBuffer => pool.takeBuffer request = false
  | .takeBlob => pool.takeBlob request t.held = none
  | .sizeBlob => Short pool request (max t.blob.vector.capacity t.minBlobSize) t
  | .growBlob => t.ptrEnd.offset ≤ t.ptr.offset + size ∧ Short pool request (t.needed size) t
  | .trimBlob => False
  | .pushMerged => pool.pushBack request = false
  | .pushShared => pool.pushBack request = false

def Refused (pool : BufferPool) (size : Nat) (s : OutputBuffer) (allocation : Allocation) (t : OutputBuffer) : Prop :=
  ∃ request, s.requests ≤ request ∧ t.requests = request + 1 ∧ Refuses pool size request t allocation

/-- A call returns, or one of the given allocations fails in it, refused by the pool. -/
def Granted (pool : BufferPool) (size : Nat) (allocations : List Allocation) (s : OutputBuffer) :
    EStateM.Result Error OutputBuffer Unit → Prop
  | .ok _ t => s.requests ≤ t.requests
  | .error e t => ∃ allocation ∈ allocations, e = .badAlloc allocation ∧ Refused pool size s allocation t

variable {pool : BufferPool} {s : OutputBuffer} {size : Nat} {allocations : List Allocation}

theorem Granted.later {t : OutputBuffer} (before : s.requests ≤ t.requests)
    {result : EStateM.Result Error OutputBuffer Unit} (granted : Granted pool size allocations t result) :
    Granted pool size allocations s result := by
  cases result with
  | ok _ u => exact Nat.le_trans before granted
  | error e u =>
    obtain ⟨allocation, member, same, request, made, last, refuses⟩ := granted
    exact ⟨allocation, member, same, request, Nat.le_trans before made, last, refuses⟩

theorem Granted.of_subset {some : List Allocation} {result : EStateM.Result Error OutputBuffer Unit}
    (granted : Granted pool size some s result) (subset : some ⊆ allocations) :
    Granted pool size allocations s result := by
  cases result with
  | ok _ t => exact granted
  | error e t =>
    obtain ⟨allocation, member, refused⟩ := granted
    exact ⟨allocation, subset member, refused⟩

theorem takeBlob_granted (pool : BufferPool) (size : Nat) (s : OutputBuffer) :
    Granted pool size [.takeBlob, .sizeBlob] s (takeBlob pool s) := by
  rw [takeBlob_run]
  cases taken : pool.takeBlob s.requests s.held with
  | none => exact ⟨.takeBlob, by decide, rfl, s.requests, Nat.le_refl _, rfl, taken⟩
  | some blob =>
    simp only
    cases resized : blob.vector.resizeDefault (max blob.vector.capacity s.minBlobSize)
        (pool.grow (s.requests + 1) (max blob.vector.capacity s.minBlobSize)) with
    | none =>
      exact ⟨.sizeBlob, by decide, rfl, s.requests + 1, Nat.le_succ _, rfl, ByteVector.resizeDefault_none resized⟩
    | some vector => exact Nat.le_add_right _ 2

theorem Ready.flush_granted (ready : s.Ready pool.memory) (size : Nat) :
    Granted pool size [.pushMerged, .takeBlob, .sizeBlob] s (flush pool s) := by
  rw [ready.flush_run]
  split
  · exact Nat.le_refl _
  · split
    · have taken := takeBlob_granted pool size { s.merged with requests := s.requests + 2 }
      exact (taken.later (Nat.le_add_right s.requests 2)).of_subset (by decide)
    · next refused =>
      exact ⟨.pushMerged, by decide, rfl, s.requests + 1, Nat.le_succ _, rfl, Bool.eq_false_iff.2 refused⟩

theorem Ready.pushShared_granted (ready : s.Ready pool.memory) (size : Nat) (blob : ConstBlob) :
    Granted pool size [.pushMerged, .takeBlob, .sizeBlob, .pushShared] s
      ((do flush pool; pushBack pool .pushShared blob : Writer Unit) s) := by
  have flushed := ready.flush_granted size
  cases run : flush pool s with
  | error e t =>
    rw [run] at flushed
    rw [run_bind_of_error run]
    exact flushed.of_subset (by decide)
  | ok _ t =>
    rw [run] at flushed
    rw [run_bind_of_ok run, pushBack_run]
    split
    · exact Nat.le_succ_of_le flushed
    · next refused => exact ⟨.pushShared, by decide, rfl, t.requests, flushed, rfl, Bool.eq_false_iff.2 refused⟩

theorem Ready.writeBytes_granted (ready : s.Ready pool.memory) {bytes : List Byte} (small : bytes.length < 2 ^ 32) :
    Granted pool bytes.length [.growBlob] s (writeBytes pool bytes s) := by
  have run := ready.allocate_eq small
  split at run
  · next full =>
    split at run
    · rw [writeBytes, run_bind_of_ok run, store, run_modify]
      split <;> exact Nat.le_succ _
    · next refused =>
      rw [writeBytes, run_bind_of_error run]
      exact ⟨.growBlob, by decide, rfl, s.requests, Nat.le_refl _, rfl, full, ByteVector.resizeDefault_none refused⟩
  · rw [writeBytes, run_bind_of_ok run, store, run_modify]
    split <;> exact Nat.le_refl _

theorem Ready.writeValue_granted (ready : s.Ready pool.memory) {value : List Byte} (small : value.length < 2 ^ 32) :
    Granted pool value.length [.growBlob] s (writeValue pool value s) := by
  rw [writeValue, run_bind_of_ok (run_get s)]
  split
  · rw [store_advance ready.ptr_base]
    exact Nat.le_refl _
  · exact ready.writeBytes_granted small

theorem Ready.writeBytewise_granted (ready : s.Ready pool.memory) (bytes : List Byte) :
    Granted pool 1 [.growBlob] s (writeBytewise pool bytes s) := by
  induction bytes generalizing s with
  | nil => exact Nat.le_refl _
  | cons byte rest ih =>
    have small : [byte].length < 2 ^ 32 := by simp
    have first := ready.writeValue_granted small
    rw [writeBytewise]
    cases run : writeValue pool [byte] s with
    | error e t =>
      rw [run] at first
      rw [run_bind_of_error run]
      exact first
    | ok _ t =>
      rw [run] at first
      rw [run_bind_of_ok run]
      exact (ih ((ready.writeValue_outcome small).appends t run).ready).later first

end OutputBuffer

end IpcBond
