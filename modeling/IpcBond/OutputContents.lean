import IpcBond.OutputBuffer
import IpcBond.RangeParts
import IpcBond.Library.StateExcept

/-! The contents of an `OutputBuffer` as a flat list of bytes: what is published followed by
what is pending before the cursor. Every write appends to it, on whichever path. -/

namespace IpcBond
open Library.Memory Library.Segments Library.StateExcept

namespace ByteVector

def trim (v : ByteVector) (n : Nat) : ByteVector where
  storage := v.storage
  size := min n v.size
  size_le := Nat.le_trans (Nat.min_le_right _ _) v.size_le
  small := v.small

@[simp] theorem store_storage (v : ByteVector) (offset : Nat) (bytes : List Byte) :
    (v.store offset bytes).storage = Library.Memory.store v.storage offset bytes := rfl

@[simp] theorem store_size (v : ByteVector) (offset : Nat) (bytes : List Byte) :
    (v.store offset bytes).size = v.size := rfl

@[simp] theorem trim_storage (v : ByteVector) (n : Nat) : (v.trim n).storage = v.storage := rfl

theorem resizeDefault_spec {v w : ByteVector} {n : Nat} {memory : Option (Allocated n)}
    (resized : v.resizeDefault n memory = some w) :
    w.size = n ∧ ∀ k ≤ v.size, w.storage.take k = v.storage.take k := by
  unfold resizeDefault at resized
  split at resized
  · cases resized
    exact ⟨rfl, fun _ _ => rfl⟩
  · next short =>
    obtain ⟨fresh, _, rfl⟩ := Option.map_eq_some_iff.1 resized
    refine ⟨rfl, fun k kept => ?_⟩
    have room : 0 + v.elements.length ≤ fresh.val.length := by
      have := v.elements_length
      have := v.size_le
      have := fresh.property.1
      omega
    have stored := take_store_end room
    rw [Nat.zero_add, List.take_zero, List.nil_append] at stored
    calc (Library.Memory.store fresh.val 0 v.elements).take k
        = ((Library.Memory.store fresh.val 0 v.elements).take v.elements.length).take k := by
          rw [List.take_take, Nat.min_eq_left (by rw [v.elements_length]; exact kept)]
      _ = v.elements.take k := by rw [stored]
      _ = v.storage.take k := by rw [elements, List.take_take, Nat.min_eq_left kept]

theorem resizeDefault_fits {v : ByteVector} {n : Nat} (fits : n ≤ v.storage.length)
    (memory : Option (Allocated n)) : v.resizeDefault n memory = some { v with size := n, size_le := fits } :=
  dif_pos fits

theorem resize_trim {v : ByteVector} {n : Nat} (shorter : n ≤ v.size) (memory : Option (Allocated n)) :
    v.resize n memory = some (v.trim n) := by
  rw [resize, resizeDefault_fits (Nat.le_trans shorter v.size_le), Option.map_some, Option.some_inj,
    Nat.sub_eq_zero_of_le shorter]
  ext1
  · simp
  · exact (Nat.min_eq_left shorter).symm

/-- Elements added within the allocation are zero, whatever the memory held. -/
theorem resize_within {v : ByteVector} {n : Nat} (longer : v.size ≤ n) (fits : n ≤ v.storage.length)
    (memory : Option (Allocated n)) :
    ∃ w, v.resize n memory = some w ∧ w.size = n ∧ w.elements = v.elements ++ List.replicate (n - v.size) 0 := by
  refine ⟨_, by rw [resize, resizeDefault_fits fits, Option.map_some], rfl, ?_⟩
  have length : (List.replicate (n - v.size) (0 : Byte)).length = n - v.size := List.length_replicate
  have room : v.size + (List.replicate (n - v.size) (0 : Byte)).length ≤ v.storage.length := by omega
  have stored := take_store_end room
  rwa [length, Nat.add_sub_cancel' longer] at stored

end ByteVector

theorem Blob.toConst_spec (blob : Blob) (data : blob.data.isSome) :
    blob.toConst.Valid ∧ blob.toConst.item.isSome ∧ blob.toConst.size = blob.vector.size ∧
      blob.toConst.bytes = blob.vector.elements := by
  obtain ⟨_ | id, vector⟩ := blob
  · cases data
  have valid := Blob.toConst_valid id vector
  refine ⟨valid, rfl, valid.size_eq, ?_⟩
  have memory : (Blob.toConst ⟨some id, vector⟩).memory = vector.elements := rfl
  rw [ConstBlob.bytes, memory, valid.size_eq]
  exact List.take_of_length_le (Nat.le_of_eq vector.elements_length)

structure Published (memory : SharedMemory) (blob : ConstBlob) : Prop where
  valid : blob.Valid
  item : blob.item.isSome
  nonempty : blob.size ≠ 0
  contained : memory.contains blob.data = true

namespace OutputBuffer

def pending (s : OutputBuffer) : List Byte := s.blob.vector.storage.take s.ptr.offset

def segments (s : OutputBuffer) : List (List Byte) := s.buffer.map ConstBlob.bytes ++ [s.pending]

/-- The published bytes followed by the pending ones. -/
def contents (s : OutputBuffer) : List Byte := s.segments.flatten

structure Phase where
  blob : Blob
  handedOn : Bool
  deriving DecidableEq, Repr

/-- The discipline of the effects: bytes are stored within the elements of the current blob, which
is not changed any more once it has been handed on, but replaced. -/
def Phase.next (phase : Phase) : Effect → Option Phase
  | .resize vector => if phase.handedOn then none else some ⟨⟨phase.blob.data, vector⟩, false⟩
  | .store ptr bytes =>
    if ¬ phase.handedOn ∧ ptr.base = phase.blob.data ∧ ptr.offset + bytes.length ≤ phase.blob.vector.size then
      some ⟨⟨phase.blob.data, phase.blob.vector.store ptr.offset bytes⟩, false⟩
    else none
  | .push .pushMerged blob => if ¬ phase.handedOn ∧ blob = phase.blob.toConst then some ⟨phase.blob, true⟩ else none
  | .push .pushShared _ => some phase
  | .push _ _ => none
  | .take blob => if phase.handedOn then some ⟨blob, false⟩ else none

def Phase.start : Phase := ⟨.null, true⟩

def phase (s : OutputBuffer) : Option Phase := s.effects.foldlM Phase.next Phase.start

theorem phase_append {s t : OutputBuffer} {phase : Phase} (effects : List Effect) (before : s.phase = some phase)
    (appended : t.effects = s.effects ++ effects) : t.phase = effects.foldlM Phase.next phase := by
  rw [OutputBuffer.phase] at before
  rw [OutputBuffer.phase, appended, List.foldlM_append, before]
  rfl

/-- The states between operations. The end pointer may lie past the elements of the current
blob only where no fast path can write there. -/
structure Ready (memory : SharedMemory) (s : OutputBuffer) : Prop where
  ptr_base : s.ptr.base = s.blob.data
  data : s.blob.data.isSome
  contained : memory.contains s.blob.begin_ = true
  ptr_le : s.ptr.offset ≤ s.blob.vector.size
  ptrEnd_le : s.ptrEnd.offset ≤ max s.blob.vector.size (s.ptr.offset + 1)
  min_pos : 0 < s.minBlobSize
  min_lt : s.minBlobSize < 2 ^ 63
  published : ∀ blob ∈ s.buffer, Published memory blob
  disciplined : s.phase = some ⟨s.blob, false⟩

structure Wrote (memory : SharedMemory) (s : OutputBuffer) (pieces : List (List Byte))
    (t : OutputBuffer) : Prop where
  ready : t.Ready memory
  segments : Coarser (s.segments ++ pieces) t.segments

theorem Wrote.trans {memory : SharedMemory} {s t u : OutputBuffer} {first second : List (List Byte)}
    (front : Wrote memory s first t) (back : Wrote memory t second u) :
    Wrote memory s (first ++ second) u := by
  refine ⟨back.ready, Coarser.trans ?_ back.segments⟩
  rw [← List.append_assoc]
  exact front.segments.append (.refl second)

theorem Wrote.refl {memory : SharedMemory} {s : OutputBuffer} (ready : s.Ready memory) :
    Wrote memory s [] s := by
  refine ⟨ready, ?_⟩
  rw [List.append_nil]
  exact .refl _

theorem Ready.pending_length {memory : SharedMemory} {s : OutputBuffer} (ready : s.Ready memory) :
    s.pending.length = s.ptr.offset := by
  have := ready.ptr_le
  have := s.blob.vector.size_le
  rw [pending, List.length_take]
  omega

theorem pending_at_start {s : OutputBuffer} (start : s.ptr.offset = 0) : s.pending = [] := by
  rw [pending, start, List.take_zero]

theorem segments_at_start {s : OutputBuffer} (start : s.ptr.offset = 0) :
    s.segments = s.buffer.map ConstBlob.bytes ++ [[]] := by
  rw [segments, pending_at_start start]

theorem wrote_pending {memory : SharedMemory} {s t : OutputBuffer} {bytes : List Byte}
    (ready : t.Ready memory) (buffer : t.buffer = s.buffer) (pending : t.pending = s.pending ++ bytes) :
    Wrote memory s [bytes] t := by
  refine ⟨ready, ?_⟩
  rw [OutputBuffer.segments, OutputBuffer.segments, buffer, pending]
  exact .extend _ _ _

section Members

variable {pool : BufferPool} {s : OutputBuffer}

theorem request_run (s : OutputBuffer) :
    request s = .ok s.requests { s with requests := s.requests + 1 } := rfl

theorem pushBack_run (allocation : Allocation) (blob : ConstBlob) (s : OutputBuffer) :
    pushBack pool allocation blob s =
      if pool.pushBack s.requests then
        .ok () { s with
          buffer := s.buffer ++ [blob]
          requests := s.requests + 1
          effects := s.effects ++ [.push allocation blob] }
      else .error (.badAlloc allocation) { s with requests := s.requests + 1 } := by
  rw [pushBack, run_bind_of_ok (request_run s)]
  split <;> rfl

theorem resizeDefault_run (allocation : Allocation) (n : Nat) (s : OutputBuffer) :
    resizeDefault pool allocation n s =
      match s.blob.vector.resizeDefault n (pool.grow s.requests n) with
      | some vector => .ok () { s with
          blob := ⟨s.blob.data, vector⟩
          requests := s.requests + 1
          effects := s.effects ++ [.resize vector] }
      | none => .error (.badAlloc allocation) { s with requests := s.requests + 1 } := by
  rw [resizeDefault, run_bind_of_ok (run_get s), run_bind_of_ok (request_run s)]
  cases s.blob.vector.resizeDefault n (pool.grow s.requests n) <;> rfl

theorem resize_run (allocation : Allocation) (n : Nat) (s : OutputBuffer) :
    resize pool allocation n s =
      match s.blob.vector.resize n (pool.grow s.requests n) with
      | some vector => .ok () { s with
          blob := ⟨s.blob.data, vector⟩
          requests := s.requests + 1
          effects := s.effects ++ [.resize vector] }
      | none => .error (.badAlloc allocation) { s with requests := s.requests + 1 } := by
  rw [resize, run_bind_of_ok (run_get s), run_bind_of_ok (request_run s)]
  cases s.blob.vector.resize n (pool.grow s.requests n) <;> rfl

theorem takeBlob_run (s : OutputBuffer) :
    takeBlob pool s =
      match pool.takeBlob s.requests s.held with
      | none => .error (.badAlloc .takeBlob) { s with requests := s.requests + 1 }
      | some blob =>
        match blob.vector.resizeDefault (max blob.vector.capacity s.minBlobSize)
            (pool.grow (s.requests + 1) (max blob.vector.capacity s.minBlobSize)) with
        | none => .error (.badAlloc .sizeBlob) { s with
            blob := blob
            requests := s.requests + 2
            effects := s.effects ++ [.take blob] }
        | some vector => .ok () { s with
            blob := ⟨blob.data, vector⟩
            ptr := ⟨blob.data, 0⟩
            ptrEnd := ⟨blob.data, vector.size⟩
            requests := s.requests + 2
            effects := s.effects ++ [.take blob] ++ [.resize vector] } := by
  rw [takeBlob, run_bind_of_ok (request_run s), run_bind_of_ok (run_get _)]
  simp only [held]
  cases pool.takeBlob s.requests (s.blob.data :: s.buffer.map fun blob => blob.item.map Data.id) with
  | none => rfl
  | some blob =>
    simp only [orThrow]
    rw [run_bind_of_ok (run_pure blob _), run_bind_of_ok (run_modify _ _), run_bind_of_ok (run_get _),
      run_bind, resizeDefault_run]
    simp only
    cases blob.vector.resizeDefault (max blob.vector.capacity s.minBlobSize)
      (pool.grow (s.requests + 1) (max blob.vector.capacity s.minBlobSize)) with
    | none => rfl
    | some vector => simp [Blob.begin_, Ptr.add]

def trimmed (s : OutputBuffer) : OutputBuffer :=
  { s with
    blob := ⟨s.blob.data, s.blob.vector.trim s.ptr.offset⟩
    effects := s.effects ++ [.resize (s.blob.vector.trim s.ptr.offset)] }

def merged (s : OutputBuffer) : OutputBuffer :=
  { s.trimmed with
    buffer := s.buffer ++ [s.trimmed.blob.toConst]
    effects := s.trimmed.effects ++ [.push .pushMerged s.trimmed.blob.toConst] }

/-- What a failed allocation leaves of the state `s` before the call. -/
inductive Fails (memory : SharedMemory) (s : OutputBuffer) : Allocation → OutputBuffer → Prop where
  | growBlob : Fails memory s .growBlob { s with requests := s.requests + 1 }
  | pushMerged (started : s.ptr.offset ≠ 0) :
      Fails memory s .pushMerged { s.trimmed with requests := s.requests + 2 }
  | takeBlob (started : s.ptr.offset ≠ 0) :
      Fails memory s .takeBlob { s.merged with requests := s.requests + 3 }
  | sizeBlob {t : OutputBuffer} (started : s.ptr.offset ≠ 0) (ptr : t.ptr = s.ptr)
      (fresh : t.blob.data ≠ s.blob.data) : Fails memory s .sizeBlob t
  | pushShared {t : OutputBuffer} (flushed : Wrote memory s [] t) : Fails memory s .pushShared t

def Outcome (memory : SharedMemory) (s : OutputBuffer) (pieces : List (List Byte)) :
    EStateM.Result Error OutputBuffer Unit → Prop
  | .ok _ t => Wrote memory s pieces t
  | .error e t => ∃ allocation, e = .badAlloc allocation ∧ Fails memory s allocation t

theorem offset_eq (s : OutputBuffer) : s.ptr.sub s.blob.begin_ = s.ptr.offset := by
  simp [Ptr.sub, Blob.begin_]

namespace Ready

variable (ready : s.Ready pool.memory)
include ready

theorem offset_lt : s.ptr.offset < 2 ^ 63 := by
  have := ready.ptr_le
  have := s.blob.vector.size_le
  have := s.blob.vector.small
  omega

theorem sizeT_offset : sizeT s.ptr.offset = s.ptr.offset := by
  have := ready.offset_lt
  unfold sizeT
  omega

theorem trimmed_elements : s.trimmed.blob.vector.elements = s.pending := by
  rw [ByteVector.elements, pending]
  simp only [trimmed, ByteVector.trim, Nat.min_eq_left ready.ptr_le]

theorem published_pending (started : s.ptr.offset ≠ 0) :
    Published pool.memory s.trimmed.blob.toConst ∧ s.trimmed.blob.toConst.bytes = s.pending := by
  obtain ⟨valid, item, size, bytes⟩ := Blob.toConst_spec s.trimmed.blob ready.data
  have trimmedSize : s.trimmed.blob.vector.size = s.ptr.offset := Nat.min_eq_left ready.ptr_le
  refine ⟨⟨valid, item, by omega, ?_⟩, bytes.trans ready.trimmed_elements⟩
  obtain ⟨data, isData⟩ := Option.isSome_iff_exists.1 ready.data
  rw [ConstBlob.data_of_nonempty (by omega)]
  have contained := ready.contained
  simp only [Blob.begin_, isData] at contained
  simp only [Blob.toConst, trimmed, isData]
  exact contained

theorem merged_phase : s.merged.phase = some ⟨s.merged.blob, true⟩ := by
  rw [phase_append [.resize (s.blob.vector.trim s.ptr.offset), .push .pushMerged s.trimmed.blob.toConst]
    ready.disciplined (by simp [merged, trimmed])]
  simp [Phase.next, merged, trimmed]

theorem merge_run :
    merge pool s =
      if s.ptr.offset = 0 then .ok false s
      else if pool.pushBack (s.requests + 1) then .ok true { s.merged with requests := s.requests + 2 }
      else .error (.badAlloc .pushMerged) { s.trimmed with requests := s.requests + 2 } := by
  rw [merge, run_bind_of_ok (run_get s), offset_eq]
  by_cases started : s.ptr.offset = 0
  · simp [started]
  · rw [if_pos (by exact_mod_cast started), if_neg started, ready.sizeT_offset, run_bind, resize_run,
      ByteVector.resize_trim ready.ptr_le]
    simp only
    rw [run_bind_of_ok (run_get _), run_bind, pushBack_run]
    cases pool.pushBack (s.requests + 1) <;> rfl

theorem wrote_flushed {t : OutputBuffer} (started : s.ptr.offset ≠ 0) (taken : t.Ready pool.memory)
    (buffer : t.buffer = s.merged.buffer) (fresh : t.ptr.offset = 0) : Wrote pool.memory s [] t := by
  refine ⟨taken, ?_⟩
  have bytes := (ready.published_pending started).2
  rw [segments_at_start fresh, segments, buffer]
  simp only [merged, List.map_append, List.map_cons, List.map_nil, bytes]
  exact (Coarser.refl _).append .add_empty

theorem merged_published (started : s.ptr.offset ≠ 0) :
    ∀ blob ∈ s.merged.buffer, Published pool.memory blob := by
  intro blob member
  rcases List.mem_append.1 member with before | last
  · exact ready.published blob before
  · rw [List.mem_singleton.1 last]
    exact (ready.published_pending started).1

theorem flush_run :
    flush pool s =
      if s.ptr.offset = 0 then .ok () s
      else if pool.pushBack (s.requests + 1) then takeBlob pool { s.merged with requests := s.requests + 2 }
      else .error (.badAlloc .pushMerged) { s.trimmed with requests := s.requests + 2 } := by
  rw [flush, run_bind, ready.merge_run]
  by_cases started : s.ptr.offset = 0
  · simp [started]
  · rw [if_neg started, if_neg started]
    cases pool.pushBack (s.requests + 1) <;> rfl

theorem flush_outcome : Outcome pool.memory s [] (flush pool s) ∧
    ∀ t, flush pool s = .ok () t → t.ptr.offset = 0 := by
  rw [ready.flush_run]
  split
  · next start =>
    refine ⟨.refl ready, fun t same => ?_⟩
    cases same
    exact start
  · next started =>
    split
    · rw [takeBlob_run]
      simp only
      cases taken : pool.takeBlob (s.requests + 2) { s.merged with requests := s.requests + 2 }.held with
      | none => exact ⟨⟨_, rfl, .takeBlob started⟩, fun t same => by cases same⟩
      | some blob =>
        simp only
        obtain ⟨data, fresh⟩ := pool.takeBlob_data taken
        cases resized : blob.vector.resizeDefault (max blob.vector.capacity s.merged.minBlobSize)
            (pool.grow (s.requests + 2 + 1) (max blob.vector.capacity s.merged.minBlobSize)) with
        | none =>
          refine ⟨⟨_, rfl, .sizeBlob started rfl fun same => fresh ?_⟩, fun t same => by cases same⟩
          exact List.mem_cons.2 (Or.inl same)
        | some vector =>
          have size := (ByteVector.resizeDefault_spec resized).1
          refine ⟨ready.wrote_flushed started ⟨rfl, data, ?_, Nat.zero_le _, ?_, ready.min_pos, ready.min_lt, ?_, ?_⟩
            rfl rfl, fun t same => by cases same; rfl⟩
          · exact show pool.memory.contains blob.begin_ = true from pool.takeBlob_contained taken
          · exact Nat.le_max_left _ _
          · exact ready.merged_published started
          · rw [phase_append [.take blob, .resize vector] ready.merged_phase (by simp)]
            rfl
    · exact ⟨⟨_, rfl, .pushMerged started⟩, fun t same => by cases same⟩

end Ready

def advance (s : OutputBuffer) (bytes : List Byte) : OutputBuffer :=
  { s with
    ptr := s.ptr.add bytes.length
    blob := ⟨s.blob.data, s.blob.vector.store s.ptr.offset bytes⟩
    effects := s.effects ++ [.store s.ptr bytes] }

theorem Ready.advance_wrote (ready : s.Ready pool.memory) (bytes : List Byte)
    (room : s.ptr.offset + bytes.length ≤ s.blob.vector.size) : Wrote pool.memory s [bytes] (s.advance bytes) := by
  have fits := Nat.le_trans room s.blob.vector.size_le
  refine wrote_pending ⟨ready.ptr_base, ready.data, ready.contained, room, ?_, ready.min_pos, ready.min_lt,
    ready.published, ?_⟩ rfl (take_store_end fits)
  · have := ready.ptrEnd_le
    simp only [advance, Ptr.add_offset, ByteVector.store_size]
    omega
  · rw [phase_append [.store s.ptr bytes] ready.disciplined rfl]
    simp [Phase.next, advance, ready.ptr_base, room]

def needed (s : OutputBuffer) (size : Nat) : Nat := s.ptr.offset + max size s.minBlobSize

def grown (s : OutputBuffer) (vector : ByteVector) : OutputBuffer :=
  { s with
    ptr := s.blob.begin_.add s.ptr.offset
    ptrEnd := s.blob.begin_.add vector.size
    blob := ⟨s.blob.data, vector⟩
    requests := s.requests + 1
    effects := s.effects ++ [.resize vector] }

theorem Ready.allocate_eq (ready : s.Ready pool.memory) {size : Nat} (small : size < 2 ^ 32) :
    allocate pool size s =
      if s.ptrEnd.offset ≤ s.ptr.offset + size then
        match s.blob.vector.resizeDefault (s.needed size) (pool.grow s.requests (s.needed size)) with
        | some vector => .ok (s.grown vector).ptr { s.grown vector with ptr := (s.grown vector).ptr.add size }
        | none => .error (.badAlloc .growBlob) { s with requests := s.requests + 1 }
      else .ok s.ptr { s with ptr := s.ptr.add size } := by
  have offset_lt := ready.offset_lt
  have min_lt := ready.min_lt
  have sum : wrap (s.ptr.offset + max size s.minBlobSize) = s.needed size := wrap_of_lt (by omega)
  rw [allocate, run_bind_of_ok (run_get s)]
  by_cases full : s.ptrEnd.offset ≤ s.ptr.offset + size
  · rw [if_pos full, if_pos full, offset_eq, ready.sizeT_offset, sum]
    simp only
    rw [run_bind, resizeDefault_run]
    cases s.blob.vector.resizeDefault (s.needed size) (pool.grow s.requests (s.needed size)) with
    | none => rfl
    | some vector => rfl
  · rw [if_neg full, if_neg full]
    rfl

theorem Ready.allocate_run (ready : s.Ready pool.memory) {size : Nat} (small : size < 2 ^ 32) :
    (∃ t : OutputBuffer, t.Ready pool.memory ∧ t.buffer = s.buffer ∧ t.pending = s.pending ∧
      t.ptr.offset + size ≤ t.blob.vector.size ∧
      allocate pool size s = .ok t.ptr { t with ptr := t.ptr.add size }) ∨
    allocate pool size s = .error (.badAlloc .growBlob) { s with requests := s.requests + 1 } := by
  have before := ready.ptr_le
  have covered := ready.ptrEnd_le
  rw [ready.allocate_eq small]
  split
  · cases resized : s.blob.vector.resizeDefault (s.needed size) (pool.grow s.requests (s.needed size)) with
    | none => exact Or.inr rfl
    | some vector =>
      obtain ⟨newSize, kept⟩ := ByteVector.resizeDefault_spec resized
      have enough : s.ptr.offset + size ≤ vector.size := by
        rw [newSize, needed]
        omega
      have offset : (s.grown vector).ptr.offset = s.ptr.offset := Nat.zero_add _
      have stop : (s.grown vector).ptrEnd.offset = vector.size := Nat.zero_add _
      refine Or.inl ⟨s.grown vector, ⟨rfl, ready.data, ready.contained, ?_, ?_, ready.min_pos, ready.min_lt,
        ready.published, ?_⟩, rfl, ?_, ?_, rfl⟩
      · rw [offset]
        exact Nat.le_trans (Nat.le_add_right _ _) enough
      · rw [stop]
        exact Nat.le_max_left _ _
      · rw [phase_append [.resize vector] ready.disciplined rfl]
        rfl
      · rw [pending, pending, offset]
        exact kept _ before
      · rw [offset]
        exact enough
  · next room => exact Or.inl ⟨s, ready, rfl, rfl, by omega, rfl⟩

theorem Ready.store_run (ready : s.Ready pool.memory) (bytes : List Byte) :
    store s.ptr bytes { s with ptr := s.ptr.add bytes.length } = .ok () (s.advance bytes) := by
  rw [store, run_modify]
  simp only [ready.ptr_base, if_true]
  rfl

theorem Ready.writeBytes_run (ready : s.Ready pool.memory) {bytes : List Byte} (small : bytes.length < 2 ^ 32) :
    (∃ t : OutputBuffer, t.Ready pool.memory ∧ t.buffer = s.buffer ∧ t.pending = s.pending ++ bytes ∧
      writeBytes pool bytes s = .ok () t) ∨
    writeBytes pool bytes s = .error (.badAlloc .growBlob) { s with requests := s.requests + 1 } := by
  rcases ready.allocate_run small with ⟨t, grown, buffer, pending, room, run⟩ | run
  · refine Or.inl ⟨t.advance bytes, (grown.advance_wrote _ room).ready, buffer, ?_, ?_⟩
    · rw [← pending]
      exact take_store_end (Nat.le_trans room t.blob.vector.size_le)
    · rw [writeBytes, run_bind_of_ok run, grown.store_run]
  · exact Or.inr (by rw [writeBytes, run_bind_of_error run])

theorem Ready.writeBytes_outcome (ready : s.Ready pool.memory) {bytes : List Byte}
    (small : bytes.length < 2 ^ 32) : Outcome pool.memory s [bytes] (writeBytes pool bytes s) := by
  rcases ready.writeBytes_run small with ⟨t, next, buffer, pending, run⟩ | run
  · rw [run]
    exact wrote_pending next buffer pending
  · rw [run]
    exact ⟨_, rfl, .growBlob⟩

theorem store_advance (base : s.ptr.base = s.blob.data) (bytes : List Byte) :
    (store s.ptr bytes >>= fun _ =>
      (modify fun s => { s with ptr := s.ptr.add bytes.length } : Writer Unit)) s = .ok () (s.advance bytes) := by
  rw [store, run_bind_of_ok (run_modify _ _), run_modify]
  simp only [base, if_true]
  rfl

theorem Ready.writeValue_outcome (ready : s.Ready pool.memory) {value : List Byte}
    (small : value.length < 2 ^ 32) : Outcome pool.memory s [value] (writeValue pool value s) := by
  rw [writeValue, run_bind_of_ok (run_get s)]
  split
  · next fast =>
    have := ready.ptr_le
    have := ready.ptrEnd_le
    rw [store_advance ready.ptr_base]
    exact ready.advance_wrote _ (by omega)
  · exact ready.writeBytes_outcome small

def Appends (pool : BufferPool) (call : Writer Unit) (pieces : List (List Byte)) (s : OutputBuffer) : Prop :=
  ∀ t, call s = .ok () t → Wrote pool.memory s pieces t

theorem Outcome.appends {call : Writer Unit} {pieces : List (List Byte)}
    (outcome : Outcome pool.memory s pieces (call s)) : Appends pool call pieces s := by
  intro t run
  rw [run] at outcome
  exact outcome

theorem Appends.then {call : Writer Unit} {next : Writer Unit} {first second : List (List Byte)}
    (front : Appends pool call first s)
    (back : ∀ t, t.Ready pool.memory → Appends pool next second t) :
    Appends pool (do call; next) (first ++ second) s := by
  intro u run
  obtain ⟨_, t, before, after⟩ := bind_ok.1 run
  have wrote := front t before
  exact wrote.trans (back t wrote.ready u after)

theorem Ready.writeBytewise_appends (ready : s.Ready pool.memory) (bytes : List Byte) :
    Appends pool (writeBytewise pool bytes) (bytes.map fun byte => [byte]) s := by
  induction bytes generalizing s with
  | nil =>
    intro t run
    cases run
    exact .refl ready
  | cons byte rest ih =>
    exact (ready.writeValue_outcome (by simp : [byte].length < 2 ^ 32)).appends.then fun t next => ih next

/-- The variable-length encoding, a piece for each byte: the slow path may spread them. -/
theorem Ready.writeVariableUnsigned_appends (ready : s.Ready pool.memory) (bond : BondCodec)
    {width : Width} {value : Nat} (bound : value < 2 ^ width.bits) :
    Appends pool (writeVariableUnsigned pool bond width value)
      ((encodeVariable value).map fun byte => [byte]) s := by
  intro t run
  rw [writeVariableUnsigned, run_bind_of_ok (run_get s)] at run
  split at run
  · next fast =>
    have := ready.ptr_le
    have := ready.ptrEnd_le
    have := width.maxBytes_eq
    have positive : 1 ≤ width.bits / 7 := by cases width <;> decide
    have fits := encodeVariable_fits bound
    have encoded := bond.writeUnchecked_eq width value bound
    simp only at run
    rw [store_advance ready.ptr_base, encoded] at run
    cases run
    obtain ⟨next, pieces⟩ := ready.advance_wrote (encodeVariable value) (by omega)
    refine ⟨next, Coarser.trans ?_ pieces⟩
    refine (Coarser.refl _).append ?_
    have joined := Coarser.join ((encodeVariable value).map fun byte => [byte])
    rwa [show ((encodeVariable value).map fun byte => [byte]).flatten = encodeVariable value from
      List.flatMap_singleton' _] at joined
  · rw [bond.writeGeneric_eq width value bound] at run
    exact ready.writeBytewise_appends _ t run

theorem not_contains_empty {memory : SharedMemory} {blob : ConstBlob}
    (contained : memory.contains blob.data = true) : blob.size ≠ 0 := by
  intro empty
  rw [ConstBlob.data, if_neg (not_not.mpr empty), memory.not_contains_null] at contained
  cases contained

/-- The zero-copy path publishes what is pending, then the blob itself. -/
theorem Ready.writeShared_outcome (ready : s.Ready pool.memory) {blob : ConstBlob} (valid : blob.Valid)
    (other : List Byte) {written : List Byte}
    (shared : pool.memory.contains blob.data = true → written = blob.bytes)
    (copied : pool.memory.contains blob.data = false → written = other.take (other.length % 2 ^ 32)) :
    Outcome pool.memory s [written] (writeShared pool blob other s) := by
  unfold writeShared
  by_cases contained : pool.memory.contains blob.data = true
  · have nonempty := not_contains_empty contained
    have item := valid.item_isSome nonempty
    rw [if_pos ⟨item, contained⟩, shared contained]
    obtain ⟨outcome, fresh⟩ := ready.flush_outcome
    cases run : flush pool s with
    | error e t =>
      rw [run_bind_of_error run]
      rwa [run] at outcome
    | ok _ t =>
      rw [run_bind_of_ok run, pushBack_run]
      rw [run] at outcome
      have start := fresh t run
      split
      · have next := outcome.ready
        refine ⟨⟨next.ptr_base, next.data, next.contained, next.ptr_le, next.ptrEnd_le, next.min_pos,
          next.min_lt, fun other member => ?_, ?_⟩, ?_⟩
        · rcases List.mem_append.1 member with before | last
          · exact next.published other before
          · rw [List.mem_singleton.1 last]
            exact ⟨valid, item, nonempty, contained⟩
        · rw [phase_append [.push .pushShared blob] next.disciplined rfl]
          rfl
        · have flushed := outcome.segments
          rw [List.append_nil, segments_at_start start] at flushed
          rw [segments_at_start (s := { t with
              buffer := t.buffer ++ [blob]
              requests := t.requests + 1
              effects := t.effects ++ [.push .pushShared blob] }) start,
            List.map_append, List.map_cons, List.map_nil]
          -- the empty pending segment moves behind the blob
          have closed := (flushed.trans (.drop_last _)).append (.refl [blob.bytes])
          have opened := (Coarser.refl (t.buffer.map ConstBlob.bytes ++ [blob.bytes])).append .add_empty
          rw [List.append_nil] at opened
          exact closed.trans opened
      · refine ⟨_, rfl, .pushShared ⟨?_, outcome.segments⟩⟩
        have next := outcome.ready
        exact ⟨next.ptr_base, next.data, next.contained, next.ptr_le, next.ptrEnd_le, next.min_pos,
          next.min_lt, next.published, next.disciplined⟩
  · rw [if_neg fun both => contained both.2, copied (by simpa using contained)]
    refine ready.writeBytes_outcome ?_
    rw [List.length_take]
    have := Nat.mod_lt other.length (show 2 ^ 32 > 0 by decide)
    omega

/-- What a write of `blob` appends: all of it when it is shared, and of a copy what its size
narrowed to 32 bits designates. -/
def written (memory : SharedMemory) (blob : ConstBlob) : List Byte :=
  if memory.contains blob.data then blob.bytes else blob.bytes.take (blob.size % 2 ^ 32)

theorem written_eq {memory : SharedMemory} {blob : ConstBlob} (valid : blob.Valid)
    (small : memory.contains blob.data = false → blob.size < 2 ^ 32) : written memory blob = blob.bytes := by
  unfold written
  split
  · rfl
  · next outside =>
    rw [Nat.mod_eq_of_lt (small (by simpa using outside)), List.take_of_length_le]
    exact Nat.le_of_eq valid.bytes_length

theorem Ready.writeConstBlob_outcome (ready : s.Ready pool.memory) {blob : ConstBlob} (valid : blob.Valid) :
    Outcome pool.memory s [written pool.memory blob] (writeConstBlob pool blob s) := by
  refine ready.writeShared_outcome valid blob.bytes (fun contained => ?_) fun outside => ?_
  · rw [written, if_pos contained]
  · rw [written, outside, valid.bytes_length]
    rfl

theorem Ready.writeBlob_outcome (ready : s.Ready pool.memory) {blob : BondBlob} (valid : blob.Valid) :
    Outcome pool.memory s [blob.bytes] (writeBlob pool blob s) := by
  have whole : blob.bytes = blob.bytes.take (blob.bytes.length % 2 ^ 32) := by
    rw [Nat.mod_eq_of_lt (by rw [valid.bytes_length]; exact valid.small), List.take_length]
  cases holder : blob.holder with
  | none =>
    have run : writeBlob pool blob s = writeShared pool ConstBlob.null blob.bytes s := by
      rw [writeBlob, BondBlob.toConstBlob_private holder]
      rfl
    rw [run]
    refine ready.writeShared_outcome ConstBlob.null_valid _ (fun contained => ?_) fun _ => whole
    exact absurd rfl (not_contains_empty contained)
  | some held =>
    obtain ⟨back, cast, backValid, _, _, bytes⟩ := BondBlob.toConstBlob_held valid holder
    have run : writeBlob pool blob s = writeShared pool back blob.bytes s := by
      rw [writeBlob, cast]
      rfl
    rw [run]
    exact ready.writeShared_outcome backValid _ (fun _ => bytes.symm) fun _ => whole

theorem Ready.writeBlobs_appends (ready : s.Ready pool.memory) {blobs : List ConstBlob}
    (valid : ∀ blob ∈ blobs, blob.Valid) :
    Appends pool (writeBlobs pool blobs) (blobs.map (written pool.memory)) s := by
  induction blobs generalizing s with
  | nil =>
    intro t run
    cases run
    exact .refl ready
  | cons blob rest ih =>
    exact (ready.writeConstBlob_outcome (valid blob List.mem_cons_self)).appends.then fun t next =>
      ih next fun other member => valid other (List.mem_cons_of_mem _ member)

end Members

theorem writeBlobs_append (pool : BufferPool) (front back : List ConstBlob) :
    writeBlobs pool (front ++ back) = (do writeBlobs pool front; writeBlobs pool back) := by
  induction front with
  | nil => simp [writeBlobs]
  | cons blob rest ih => simp [writeBlobs, ih]

theorem writeRange_eq (pool : BufferPool) {range : Range} (valid : range.buffer.Valid) (bounds : range.InBounds) :
    writeRange pool range = writeBlobs pool range.parts := by
  have first := valid.blobAt range.firstBlob
  have last := valid.blobAt (range.stopBlob - 1)
  have offset_le := bounds.firstOffset_le
  have length_le := bounds.lastLength_le
  have firstSmall := first.size_lt
  unfold writeRange Range.parts
  cases some : range.isEmpty with
  | true => simp [writeBlobs]
  | false =>
    have first_lt := bounds.first_lt_stop some
    have stop : (if range.lastOffset ≠ 0 then range.lastBlob + 1 else range.lastBlob) = range.stopBlob := rfl
    simp only [Bool.not_false, if_true, Bool.false_eq_true, if_false, stop]
    split
    · next one =>
      have same : range.stopBlob - 1 = range.firstBlob := by omega
      have order := bounds.firstOffset_le_lastLength one
      have length : (if range.lastOffset ≠ 0 then range.lastOffset else (range.buffer.blobAt range.firstBlob).size) =
          range.lastLength := by rw [Range.lastLength, same]
      rw [same] at length_le
      rw [length, sizeT_sub order (by omega), first.getRange_eq (by omega)]
      simp [writeBlobs, evaluate, ConstBlob.part]
    · next several =>
      have front : (if range.firstOffset ≠ 0 then (range.buffer.blobAt range.firstBlob).getRange range.firstOffset
            (sizeT ((range.buffer.blobAt range.firstBlob).size - range.firstOffset))
          else .ok (range.buffer.blobAt range.firstBlob)) =
          .ok ((range.buffer.blobAt range.firstBlob).part range.firstOffset
            ((range.buffer.blobAt range.firstBlob).size - range.firstOffset)) := by
        split
        · rw [sizeT_sub offset_le firstSmall, first.getRange_eq (by omega)]
          rfl
        · next start => rw [not_not.mp start, Nat.sub_zero, first.part_whole]
      have back : (if range.lastOffset ≠ 0 then (range.buffer.blobAt (range.stopBlob - 1)).getRange 0 range.lastOffset
          else .ok (range.buffer.blobAt (range.stopBlob - 1))) =
          .ok ((range.buffer.blobAt (range.stopBlob - 1)).part 0 range.lastLength) := by
        unfold Range.lastLength at length_le ⊢
        split
        · next cut =>
          rw [if_pos cut] at length_le
          rw [last.getRange_eq (by omega)]
          rfl
        · rw [last.part_whole]
      rw [front, show range.firstBlob + (range.stopBlob - range.firstBlob - 1) = range.stopBlob - 1 by omega, back,
        show range.stopBlob - 1 - (range.firstBlob + 1) = range.stopBlob - range.firstBlob - 2 by omega]
      simp [writeBlobs, evaluate, writeBlobs_append, ConstBuffer.blobsAt]

end OutputBuffer

end IpcBond
