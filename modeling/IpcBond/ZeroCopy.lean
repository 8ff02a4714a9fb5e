import IpcBond.CastChain
import IpcBond.OutputFrames
import IpcBond.PassThrough

/-! Bytes that are passed on without being copied. A `bond::blob` that is part of a blob in shared memory is written
into an `OutputBuffer` over that memory, read from the finished buffer, cut and cast, and written again, any number of
times. -/

namespace IpcBond
open Library.Segments Library.StateExcept OutputBuffer InputBuffer

namespace OutputBuffer

variable {pool : BufferPool} {bond : BondCodec} {s t : OutputBuffer}

structure LiesAt (buffer : ConstBuffer) (position : Nat) (origin : ConstBlob) (b : BondBlob) (i : Nat) : Prop where
  inside : i < buffer.blobs.length
  position : start buffer.segments i = position
  shared : SharedAs origin b (buffer.blobAt i)

theorem lies_at {front : List ConstBlob} {element origin : ConstBlob} {b : BondBlob} {buffer : ConstBuffer}
    (begins : front ++ [element] <+: buffer.blobs) (shared : SharedAs origin b element) :
    LiesAt buffer (front.map ConstBlob.bytes).flatten.length origin b front.length := by
  obtain ⟨back, whole⟩ := begins
  rw [List.append_assoc] at whole
  have inside : front.length < buffer.blobs.length := by
    rw [← whole, List.length_append, List.length_append]
    exact Nat.lt_add_of_pos_right (Nat.lt_add_right _ Nat.one_pos)
  have there : buffer.blobAt front.length = element := by
    rw [ConstBuffer.blobAt, ← whole, List.getElem?_append_right (Nat.le_refl _), Nat.sub_self]
    rfl
  refine ⟨inside, ?_, there ▸ shared⟩
  rw [start, ConstBuffer.segments, ← whole, List.map_append, List.take_left' (List.length_map _)]

/-- A part of a blob of the pool's memory that is written becomes an element of the finished buffer, and lies where the
bytes written before it end. -/
theorem produce_shares {origin : ConstBlob} {b : BondBlob} {offset : Nat} (part : (View.bond b).PartOf origin offset)
    (nonempty : b.size ≠ 0) (contained : pool.memory.contains b.content = true) {before after : List WriteOp}
    (formed : ∀ op ∈ before ++ after, op.WellFormed) (copyable : ∀ op ∈ before, op.Copyable pool.memory)
    {finish : Finish} {minBlobSize : Nat} {buffer : ConstBuffer}
    (run : produce pool bond (before ++ .blob b :: after) finish (members minBlobSize) = .ok buffer t) :
    ∃ i, LiesAt buffer (before.flatMap WriteOp.bytes).length origin b i := by
  have formedBefore : ∀ op ∈ before, op.WellFormed := fun op member => formed op (List.mem_append_left _ member)
  have formedAfter : ∀ op ∈ after, op.WellFormed := fun op member => formed op (List.mem_append_right _ member)
  obtain ⟨v, w, early, write, kept⟩ := produce_split formedAfter run
  obtain ⟨ready, pieces⟩ := setUp_spec formedBefore early
  have bytes : v.contents = before.flatMap WriteOp.bytes := by
    rw [contents, pieces.1]
    exact WriteOp.pieces_flatMap formedBefore copyable
  rcases ready.writeBlob_adds part nonempty contained with
    ⟨x, w', element, _, start, same, wrote', added, _, shared⟩ | ⟨_, _, x, failed, _⟩
  · rw [show writeBlob pool b v = .ok () w from write] at wrote'
    cases wrote'
    have flushed : (x.buffer.map ConstBlob.bytes).flatten = before.flatMap WriteOp.bytes := by
      rw [← bytes, ← same, contents, segments, start, List.flatten_append]
      exact (List.append_nil _).symm
    rw [added] at kept
    have lies := lies_at kept shared
    rw [flushed] at lies
    exact ⟨_, lies⟩
  · rw [show writeBlob pool b v = .ok () w from write] at failed
    cases failed

end OutputBuffer

theorem View.PartOf.blob_valid {origin : ConstBlob} {b : BondBlob} {offset : Nat}
    (part : (View.bond b).PartOf origin offset) (small : origin.size < 2 ^ 32) : b.Valid := by
  have fits := part.designates.fits
  obtain ⟨blob, base, inner, holder, held, memory, content, inside, _⟩ := part
  have extent := held.valid.begin_add_size
  have inMemory := held.valid.inside
  refine ⟨?_, ?_, fun other same => ?_⟩
  · rw [memory, content, Ptr.add_offset, ConstBlob.data]
    split
    · simp only
      omega
    · simp only [Ptr.null]
      omega
  · simp only [View.size] at fits
    omega
  · rw [holder] at same
    cases same
    exact ⟨held.valid, memory, inner, content, inside⟩

namespace OutputBuffer.LiesAt

variable {buffer : ConstBuffer} {position offset i : Nat} {origin : ConstBlob} {b : BondBlob}

theorem partOf (lies : LiesAt buffer position origin b i) (valid : buffer.Valid) (nonempty : b.size ≠ 0)
    (part : (View.bond b).PartOf origin offset) : (buffer.blobAt i).PartOf origin offset := by
  obtain ⟨item, data, size⟩ := lies.shared
  have designates := part.designates
  have fits : offset + b.size ≤ origin.size := designates.fits
  have address : b.content = origin.data.add offset := designates.address nonempty
  rw [address, ConstBlob.data_of_nonempty (by omega), ConstBlob.data_of_nonempty (by omega : origin.size ≠ 0), item]
    at data
  exact ⟨valid.blobAt i, item, congrArg Ptr.offset data, size ▸ fits⟩

theorem read_holds (lies : LiesAt buffer position origin b i) (small : b.size < 2 ^ 32) {s u : InputBuffer}
    (inv : s.Invariant) (same : s.buffer = buffer) {k n : Nat} (there : s.pos = position + k) (positive : 0 < n)
    (inside : k + n ≤ b.size) {copy : BondBlob} (read : readBlob n s = .ok copy u) :
    copy = ((BondBlob.ofConstBlob (buffer.blobAt i)).assign k n) := by
  have valid : buffer.Valid := same ▸ inv.bounded.valid
  have size := lies.shared.size
  rcases readSingle_spec inv n (fun s =>
      (BondBlob.ofConstBlob s.current).assign (sizeT (s.ptr.sub s.current.data) % 2 ^ 32) n) with
    ⟨o, t, stands, fits, run, _⟩ | ⟨_, run⟩
  · have at_ := stands.pos
    rw [same] at at_
    have within := Nat.le_trans fits (inv.bounded.blobLength_le s.blob)
    rw [same] at within
    have next := valid.start_succ s.blob
    have next' := valid.start_succ i
    have begins := lies.position
    have blob : s.blob = i :=
      segment_unique (by omega : start buffer.segments s.blob ≤ s.pos) (by omega) (by omega) (by omega)
    have current : s.current = buffer.blobAt i := by rw [current, same, blob]
    rw [blob] at at_
    have offset : o = k := by omega
    have distance : sizeT (s.ptr.sub s.current.data) % 2 ^ 32 = k := by
      rw [stands.ptr, Ptr.sub, Ptr.add_offset, offset]
      unfold sizeT
      omega
    rw [show readBlob n s = _ from run] at read
    cases read
    rw [distance, current]
  · rw [show readBlob n s = _ from run] at read
    cases read

theorem reads (lies : LiesAt buffer position origin b i) {s : InputBuffer} (inv : s.Invariant)
    (same : s.buffer = buffer) (whole : s.stop = buffer.bytes.length) {k n : Nat} (there : s.pos = position + k)
    (positive : 0 < n) (inside : k + n ≤ b.size) : ∃ copy u, readBlob n s = .ok copy u := by
  have valid : buffer.Valid := same ▸ inv.bounded.valid
  have size := lies.shared.size
  have begins := lies.position
  have next := valid.start_succ i
  have one : Whole s.buffer.segments s.pos n := by
    rw [same]
    exact ⟨i, by omega, by omega⟩
  have total : n ≤ s.remaining.length := by
    have fits := one.le_length
    rw [same] at fits
    rw [inv.remaining_length, whole]
    change _ ≤ buffer.bytes.length at fits
    omega
  rcases readSingle_whole inv positive (fun s =>
      (BondBlob.ofConstBlob s.current).assign (sizeT (s.ptr.sub s.current.data) % 2 ^ 32) n) with
    ⟨_, _, t, _, _, run, _⟩ | ⟨broken, _⟩
  · exact ⟨_, t, run⟩
  · exact absurd ⟨total, one⟩ broken

end OutputBuffer.LiesAt

/-- What a blob of shared memory can become: it is cast and cut, or written into an `OutputBuffer` over its memory and
then read, whole or in part, from the buffer that has been finished. The number is how far it begins in `origin`. -/
inductive Sent (bond : BondCodec) (origin : ConstBlob) : View → Nat → Prop where
  | origin : Sent bond origin (.const origin) 0
  | cast {view next : View} {offset : Nat} (sent : Sent bond origin view offset) {step : CastStep}
      (taken : view.step step = some (.ok next)) : Sent bond origin next (offset + step.offset)
  | hop {b : BondBlob} {offset : Nat} (sent : Sent bond origin (.bond b) offset) {pool : BufferPool} {minBlobSize : Nat}
      {before after : List WriteOp} {finish : Finish} {buffer : ConstBuffer} {t : OutputBuffer}
      (contained : pool.memory.contains b.content = true) (formed : ∀ op ∈ before ++ after, op.WellFormed)
      (copyable : ∀ op ∈ before, op.Copyable pool.memory)
      (run : produce pool bond (before ++ .blob b :: after) finish (members minBlobSize) = .ok buffer t)
      {s u : InputBuffer} {copy : BondBlob} {k n : Nat} (reach : Reachable bond (.ofBuffer buffer) s)
      (there : s.pos = (before.flatMap WriteOp.bytes).length + k) (positive : 0 < n) (inside : k + n ≤ b.size)
      (read : readBlob n s = .ok copy u) : Sent bond origin (.bond copy) (offset + k)

theorem View.PartOf.formed {origin : ConstBlob} {b : BondBlob} {offset : Nat}
    (part : (View.bond b).PartOf origin offset) (small : origin.size < 2 ^ 32) {before after : List WriteOp}
    (formed : ∀ op ∈ before ++ after, op.WellFormed) : ∀ op ∈ before ++ .blob b :: after, op.WellFormed := by
  intro op member
  rcases List.mem_append.1 member with early | rest
  · exact formed op (List.mem_append_left _ early)
  · rcases List.mem_cons.1 rest with same | late
    · rw [same]
      exact part.blob_valid small
    · exact formed op (List.mem_append_right _ late)

theorem Sent.partOf {bond : BondCodec} {origin : ConstBlob} (valid : origin.Valid) (small : origin.size < 2 ^ 32)
    {view : View} {offset : Nat} (sent : Sent bond origin view offset) : view.PartOf origin offset := by
  induction sent with
  | origin => exact ⟨valid, rfl, rfl, Nat.le_of_eq (Nat.zero_add _)⟩
  | cast _ taken ih =>
    obtain ⟨next, same, part, _⟩ := ih.step small taken
    cases same
    exact part
  | hop _ contained formed copyable run reach there positive inside read ih =>
    have nonempty := Nat.ne_of_gt (Nat.lt_of_lt_of_le positive (Nat.le_trans (Nat.le_add_left _ _) inside))
    obtain ⟨i, lies⟩ := produce_shares ih nonempty contained formed copyable run
    have published := (produce_spec (ih.formed small formed) run).2
    have validBuffer : ConstBuffer.Valid _ := fun blob member => (published blob member).valid
    obtain ⟨settled, same, _⟩ := InputBuffer.ofBuffer_spec validBuffer
    have moved := reach.spec settled.invariant
    have part := lies.partOf validBuffer nonempty ih
    have holds := lies.read_holds (ih.blob_valid small).small moved.invariant (moved.same.buffer.trans same) there
      positive inside read
    subst holds
    have size := lies.shared.size
    exact ⟨_, _, _, rfl, part, rfl, rfl, size ▸ inside, rfl⟩

/-- Zero copy: through any number of buffers, casts and cuts a blob of shared memory stays where it is. What it has
become refers to the `Data` of `origin`, at the address that the offsets taken add up to, and has its bytes. Where it is
written over its memory, the buffer that is finished gives it back, or any part of it, at the same address. -/
theorem zero_copy (bond : BondCodec) {origin : ConstBlob} (valid : origin.Valid) (small : origin.size < 2 ^ 32)
    {view : View} {offset : Nat} (sent : Sent bond origin view offset) :
    view.Designates origin offset ∧
      ∀ b, view = .bond b → ∀ (pool : BufferPool) (minBlobSize : Nat) (before after : List WriteOp) (finish : Finish)
        (buffer : ConstBuffer) (t : OutputBuffer), pool.memory.contains b.content = true →
        (∀ op ∈ before ++ after, op.WellFormed) → (∀ op ∈ before, op.Copyable pool.memory) →
        produce pool bond (before ++ .blob b :: after) finish (members minBlobSize) = .ok buffer t →
        ∀ s, Reachable bond (.ofBuffer buffer) s → ∀ k n, s.pos = (before.flatMap WriteOp.bytes).length + k → 0 < n →
          k + n ≤ b.size → ∃ copy u, readBlob n s = .ok copy u ∧ copy.content = b.content.add k ∧ copy.size = n := by
  have part := sent.partOf valid small
  refine ⟨part.designates, ?_⟩
  rintro b rfl pool minBlobSize before after finish buffer t contained formed copyable run s reach k n there positive
    inside
  have nonempty : b.size ≠ 0 := by omega
  obtain ⟨i, lies⟩ := produce_shares part nonempty contained formed copyable run
  have published := (produce_spec (part.formed small formed) run).2
  have validBuffer : buffer.Valid := fun blob member => (published blob member).valid
  obtain ⟨settled, same, _, stop⟩ := InputBuffer.ofBuffer_spec validBuffer
  have moved := reach.spec settled.invariant
  have sameBuffer : s.buffer = buffer := moved.same.buffer.trans same
  obtain ⟨copy, u, read⟩ :=
    lies.reads moved.invariant sameBuffer (moved.same.stop.trans stop) there positive inside
  have holds := lies.read_holds (part.blob_valid small).small moved.invariant sameBuffer there positive inside read
  refine ⟨copy, u, read, ?_, ?_⟩
  · rw [holds]
    change (buffer.blobAt i).data.add k = b.content.add k
    rw [lies.shared.data]
  · rw [holds]
    rfl

/-- Three bytes of a blob are written between others; two of them are read, written into a second buffer, and read
there. -/
theorem zero_copy_twice :
    let origin : ConstBlob := ⟨some ⟨200, [1, 2, 3, 4, 5, 6]⟩, 1, 5⟩
    let second : ConstBuffer := ⟨some [⟨some ⟨200, [1, 2, 3, 4, 5, 6]⟩, 3, 5⟩, ⟨some ⟨150, [7]⟩, 0, 1⟩]⟩
    let copy : BondBlob := ⟨some ⟨some ⟨200, [1, 2, 3, 4, 5, 6]⟩, 2, 5⟩, [1, 2, 3, 4, 5, 6], ⟨some 200, 3⟩, 2⟩
    Sent sevenBitCodec origin (.bond copy) 2 ∧ (View.bond copy).Designates origin 2 ∧
      ∃ again u, readBlob 2 (.ofBuffer second) = .ok again u ∧ again.content = ⟨some 200, 3⟩ ∧ again.size = 2 := by
  intro origin second copy
  let b := (BondBlob.ofConstBlob origin).assign 1 3
  let first : ConstBuffer := ⟨some [⟨some ⟨100, [9, 9]⟩, 0, 2⟩, ⟨some ⟨200, [1, 2, 3, 4, 5, 6]⟩, 2, 5⟩,
    ⟨some ⟨101, [8]⟩, 0, 1⟩]⟩
  have written : ∃ t, produce (simplePool 4 0) sevenBitCodec ([.value [9, 9]] ++ .blob b :: [.value [8]]) .moved
      (members 2) = .ok first t := by
    obtain ⟨buffer, t, run, same⟩ := exists_of_returns (fun buffer : ConstBuffer => decide (buffer = first))
      (by decide +kernel : returns _ (produce (simplePool 4 0) sevenBitCodec
        ([.value [9, 9]] ++ .blob b :: [.value [8]]) .moved (members 2)) = true)
    have same : buffer = first := of_decide_eq_true same
    subst same
    exact ⟨t, run⟩
  have passed : ∃ t, produce (simplePool 4 50) sevenBitCodec ([] ++ .blob copy :: [.value [7]]) .moved
      (members 2) = .ok second t := by
    obtain ⟨buffer, t, run, same⟩ := exists_of_returns (fun buffer : ConstBuffer => decide (buffer = second))
      (by decide +kernel : returns _ (produce (simplePool 4 50) sevenBitCodec
        ([] ++ .blob copy :: [.value [7]]) .moved (members 2)) = true)
    have same : buffer = second := of_decide_eq_true same
    subst same
    exact ⟨t, run⟩
  obtain ⟨t, run⟩ := written
  obtain ⟨t', run'⟩ := passed
  let reader := ReadOp.after sevenBitCodec (.ofBuffer first) (.skip 3)
  have read : ∃ u, readBlob 2 reader = .ok copy u := by
    obtain ⟨other, u, run, same⟩ := exists_of_returns (fun other : BondBlob => decide (other = copy))
      (by decide +kernel : returns _ (readBlob 2 reader) = true)
    have same : other = copy := of_decide_eq_true same
    subst same
    exact ⟨u, run⟩
  obtain ⟨u, read⟩ := read
  have cast : (View.const origin).step .toBond = some (.ok (.bond (.ofConstBlob origin))) := rfl
  have range : (View.bond (.ofConstBlob origin)).step (.range 1 3) = some (.ok (.bond b)) := rfl
  have cut : Sent sevenBitCodec origin (.bond b) 1 := .cast (.cast .origin cast) range
  have sent : Sent sevenBitCodec origin (.bond copy) 2 :=
    .hop cut (by decide) (by simp [WriteOp.WellFormed]) (by simp [WriteOp.Copyable, WriteOp.blobs]) run
      (.step .origin (.skip 3)) (by decide : reader.pos = 2 + 1) (by decide) (by decide) read
  obtain ⟨designates, reads⟩ := zero_copy sevenBitCodec (by decide) (by decide) sent
  have again := reads copy rfl (simplePool 4 50) 2 [] [.value [7]] .moved second t' (by decide)
    (by simp [WriteOp.WellFormed]) (by simp) run' (.ofBuffer second) .origin 0 2 (by decide) (by decide) (by decide)
  exact ⟨sent, designates, again⟩

end IpcBond
