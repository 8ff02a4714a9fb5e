import IpcBond.OutputFrames
import Mathlib.Data.List.Forall2

/-! Which blobs a finished buffer consists of. The bytes that are copied form one element for each stretch of them that
no shared blob and no flush interrupts, whatever the pool answers and however the blobs grow. -/

namespace IpcBond
open Library.Segments Library.StateExcept

/-- An element of a finished buffer: a blob of its own for bytes that have been copied, or a blob that is shared. -/
inductive Element where
  | own (bytes : List Byte)
  | shared (blob : ConstBlob)
  deriving DecidableEq, Repr

structure Layout where
  elements : List Element
  pending : List Byte
  deriving DecidableEq, Repr

namespace Layout

def empty : Layout := ⟨[], []⟩

def write (layout : Layout) (bytes : List Byte) : Layout := { layout with pending := layout.pending ++ bytes }

def flush (layout : Layout) : Layout :=
  if layout.pending = [] then layout else ⟨layout.elements ++ [.own layout.pending], []⟩

def share (layout : Layout) (blob : ConstBlob) : Layout := ⟨layout.flush.elements ++ [.shared blob], []⟩

/-- A blob of the memory is shared; of others the bytes are copied, as many as a 32-bit size counts. -/
def put (memory : SharedMemory) (layout : Layout) (blob : ConstBlob) (other : List Byte) : Layout :=
  if memory.contains blob.data then layout.share blob else layout.write (other.take (other.length % 2 ^ 32))

def putAll (memory : SharedMemory) (layout : Layout) (blobs : List ConstBlob) : Layout :=
  blobs.foldl (fun layout blob => layout.put memory blob blob.bytes) layout

def apply (memory : SharedMemory) (layout : Layout) : OutputBuffer.WriteOp → Layout
  | .value bytes => layout.write bytes
  | .raw bytes => layout.write bytes
  | .allocated bytes => layout.write bytes
  | .variableUnsigned _ number => layout.write (encodeVariable number)
  | .blob source =>
    match source.toConstBlob with
    | .ok part => layout.put memory part source.bytes
    | .error _ => layout
  | .buffer source => layout.putAll memory source.blobs
  | .range source => layout.putAll memory source.parts
  | .flush => layout.flush

def finished (memory : SharedMemory) (ops : List OutputBuffer.WriteOp) : List Element :=
  (ops.foldl (apply memory) empty).flush.elements

end Layout

inductive Element.Is (memory : SharedMemory) : ConstBlob → Element → Prop where
  | own {blob : ConstBlob} (published : Published memory blob) : Is memory blob (.own blob.bytes)
  | shared (blob : ConstBlob) : Is memory blob (.shared blob)

namespace OutputBuffer

structure LaidOut (memory : SharedMemory) (s : OutputBuffer) (layout : Layout) : Prop where
  ready : s.Ready memory
  elements : List.Forall₂ (Element.Is memory) s.buffer layout.elements
  pending : s.pending = layout.pending

namespace LaidOut

variable {pool : BufferPool} {bond : BondCodec} {s t : OutputBuffer} {layout : Layout}
  (laid : s.LaidOut pool.memory layout)
include laid

theorem pending_iff : layout.pending = [] ↔ s.ptr.offset = 0 := by
  rw [← laid.pending, ← List.length_eq_zero_iff, laid.ready.pending_length]

theorem write {pieces : List (List Byte)} (wrote : Wrote pool.memory s pieces t) (same : t.buffer = s.buffer) :
    t.LaidOut pool.memory (layout.write pieces.flatten) := by
  have joined := wrote.segments.1
  rw [segments, segments, same, List.flatten_append, List.flatten_append, List.flatten_append] at joined
  refine ⟨wrote.ready, same ▸ laid.elements, ?_⟩
  simpa [laid.pending, Layout.write] using joined

theorem merge {merged : Bool} (run : merge pool s = .ok merged t) :
    (merged = false ∧ t = s ∧ layout.pending = []) ∨
      (merged = true ∧ List.Forall₂ (Element.Is pool.memory) t.buffer layout.flush.elements) := by
  rw [laid.ready.merge_run] at run
  split at run
  · next start =>
    cases run
    exact Or.inl ⟨rfl, rfl, laid.pending_iff.2 start⟩
  · next started =>
    split at run
    · cases run
      obtain ⟨published, bytes⟩ := laid.ready.published_pending started
      have pending : layout.pending ≠ [] := fun none => started (laid.pending_iff.1 none)
      refine Or.inr ⟨rfl, ?_⟩
      rw [Layout.flush, if_neg pending, ← laid.pending, ← bytes]
      exact List.rel_append laid.elements (.cons (.own published) .nil)
    · cases run

theorem flush (run : flush pool s = .ok () t) : t.LaidOut pool.memory layout.flush ∧ t.pending = [] := by
  obtain ⟨outcome, fresh⟩ := laid.ready.flush_outcome
  have none := pending_at_start (fresh t run)
  rw [run] at outcome
  obtain ⟨merged, u, first, rest⟩ := bind_ok.1 run
  rcases laid.merge first with ⟨no, same, empty⟩ | ⟨yes, elements⟩
  · subst no same
    cases rest
    rw [Layout.flush, if_pos empty]
    exact ⟨laid, none⟩
  · subst yes
    have same : u.buffer = t.buffer := takeBlob_keeps pool (sameBuffer u) u () t rfl rest
    refine ⟨⟨outcome.ready, same ▸ elements, ?_⟩, none⟩
    rw [none, Layout.flush]
    split
    · next empty => exact empty.symm
    · rfl

theorem put {blob : ConstBlob} {other written : List Byte} (valid : blob.Valid)
    (run : writeShared pool blob other s = .ok () t)
    (outcome : Outcome pool.memory s [written] (writeShared pool blob other s))
    (copied : pool.memory.contains blob.data = false → written = other.take (other.length % 2 ^ 32)) :
    t.LaidOut pool.memory (layout.put pool.memory blob other) := by
  rw [run] at outcome
  have kept := outcome.ready
  rw [writeShared] at run
  by_cases contained : pool.memory.contains blob.data = true
  · rw [if_pos ⟨valid.item_isSome (not_contains_empty contained), contained⟩] at run
    obtain ⟨_, u, flushed, push⟩ := bind_ok.1 run
    obtain ⟨after, none⟩ := laid.flush flushed
    rw [pushBack_run] at push
    split at push
    · cases push
      rw [Layout.put, if_pos contained]
      exact ⟨kept, List.rel_append after.elements (.cons (.shared blob) .nil), none⟩
    · cases push
  · rw [if_neg fun both => contained both.2] at run
    have same : s.buffer = t.buffer := writeBytes_keeps pool (sameBuffer s) _ s () t rfl run
    have laid' := laid.write outcome same.symm
    rw [List.flatten_singleton, copied (by simpa using contained)] at laid'
    rw [Layout.put, if_neg contained]
    exact laid'

theorem putAll {blobs : List ConstBlob} (valid : ∀ blob ∈ blobs, blob.Valid)
    (run : writeBlobs pool blobs s = .ok () t) : t.LaidOut pool.memory (layout.putAll pool.memory blobs) := by
  induction blobs generalizing s layout with
  | nil =>
    cases run
    exact laid
  | cons blob rest ih =>
    obtain ⟨_, u, first, others⟩ := bind_ok.1 run
    have blobValid := valid blob List.mem_cons_self
    have one := laid.put blobValid first (laid.ready.writeConstBlob_outcome blobValid) fun outside => by
      rw [written, outside, blobValid.bytes_length]
      rfl
    exact ih one (fun other member => valid other (List.mem_cons_of_mem _ member)) others

/-- Every write that returns leaves the layout that its effect on the layout says. -/
theorem op {op : WriteOp} (formed : op.WellFormed) (run : op.run pool bond s = .ok () t) :
    t.LaidOut pool.memory (layout.apply pool.memory op) := by
  have wrote := laid.ready.op_appends formed t run
  have one : ∀ {bytes : List Byte}, Wrote pool.memory s [bytes] t → s.buffer = t.buffer →
      t.LaidOut pool.memory (layout.write bytes) := by
    intro bytes wrote same
    have laid' := laid.write wrote same.symm
    rwa [List.flatten_singleton] at laid'
  cases op with
  | value bytes => exact one wrote (writeValue_keeps pool (sameBuffer s) bytes s () t rfl run)
  | raw bytes => exact one wrote (writeBytes_keeps pool (sameBuffer s) bytes s () t rfl run)
  | allocated bytes => exact one wrote (writeBytes_keeps pool (sameBuffer s) bytes s () t rfl run)
  | variableUnsigned width number =>
    have same : s.buffer = t.buffer := writeVariableUnsigned_keeps pool (sameBuffer s) bond width number s () t rfl run
    have laid' := laid.write wrote same.symm
    rwa [show (WriteOp.pieces pool.memory (.variableUnsigned width number)).flatten = encodeVariable number from
      List.flatMap_singleton' _] at laid'
  | blob source =>
    obtain ⟨part, u, cast, shared⟩ := bind_ok.1 run
    have whole : source.bytes = source.bytes.take (source.bytes.length % 2 ^ 32) := by
      rw [Nat.mod_eq_of_lt (by rw [formed.bytes_length]; exact formed.small), List.take_length]
    have outcome := laid.ready.writeBlob_outcome formed
    cases casts : source.toConstBlob with
    | error e =>
      rw [casts] at cast
      cases cast
    | ok back =>
      rw [casts] at cast
      cases cast
      rw [writeBlob, casts] at outcome
      rw [Layout.apply, casts]
      exact laid.put (BondBlob.toConstBlob_valid formed casts) shared outcome fun _ => whole
  | buffer source =>
    simp only [WriteOp.run, writeBuffer] at run
    split at run
    · exact laid.putAll formed run
    · next null =>
      cases run
      obtain ⟨item⟩ := source
      cases item with
      | none => exact laid
      | some blobs => exact absurd rfl null
  | range source =>
    rw [WriteOp.run, writeRange_eq pool formed.1 formed.2] at run
    exact laid.putAll (formed.2.parts_cut formed.1).2 run
  | flush => exact (laid.flush run).1

theorem ops {ops : List WriteOp} (formed : ∀ op ∈ ops, op.WellFormed) (run : runOps pool bond ops s = .ok () t) :
    t.LaidOut pool.memory (ops.foldl (Layout.apply pool.memory) layout) := by
  induction ops generalizing s layout with
  | nil =>
    cases run
    exact laid
  | cons op rest ih =>
    obtain ⟨_, u, first, others⟩ := bind_ok.1 run
    exact ih (laid.op (formed op List.mem_cons_self) first)
      (fun other member => formed other (List.mem_cons_of_mem _ member)) others

theorem finish {finish : Finish} {buffer : ConstBuffer} (run : finish.run pool s = .ok buffer t) :
    List.Forall₂ (Element.Is pool.memory) buffer.blobs layout.flush.elements := by
  cases finish with
  | unchanged =>
    rw [Finish.run, getBufferConst, run_bind_of_ok (run_get s)] at run
    split at run
    · cases run
    · next start =>
      cases run
      have start : s.ptr.offset = 0 := by rw [not_not.mp start, Blob.begin_]
      rw [Layout.flush, if_pos (laid.pending_iff.2 start)]
      exact laid.elements
  | flushed =>
    obtain ⟨_, u, flushed, result⟩ := bind_ok.1 run
    cases result
    exact (laid.flush flushed).1.elements
  | moved =>
    obtain ⟨merged, u, first, result⟩ := bind_ok.1 run
    cases result
    rcases laid.merge first with ⟨_, same, empty⟩ | ⟨_, elements⟩
    · subst same
      rw [Layout.flush, if_pos empty]
      exact laid.elements
    · exact elements

end LaidOut

end OutputBuffer

open OutputBuffer

variable {pool : BufferPool} {bond : BondCodec} {minBlobSize : Nat} {ops : List WriteOp} {finish : Finish}
  {buffer : ConstBuffer} {t : OutputBuffer}

theorem setUp_laidOut (formed : ∀ op ∈ ops, op.WellFormed)
    (run : setUp pool bond ops (members minBlobSize) = .ok () t) :
    t.LaidOut pool.memory (ops.foldl (Layout.apply pool.memory) .empty) := by
  obtain ⟨_, m, made, writes⟩ := bind_ok.1 run
  have empty : [] = m.buffer := make_keeps pool (sameBuffer (members minBlobSize)) (members minBlobSize) () m rfl made
  obtain ⟨ready, segments⟩ := make_spec made
  have pending : m.pending = [] := by
    rw [OutputBuffer.segments, ← empty] at segments
    exact List.singleton_inj.1 segments
  have laid : m.LaidOut pool.memory .empty := ⟨ready, by rw [← empty]; exact .nil, pending⟩
  exact laid.ops formed writes

theorem produce_laidOut (formed : ∀ op ∈ ops, op.WellFormed)
    (run : produce pool bond ops finish (members minBlobSize) = .ok buffer t) :
    List.Forall₂ (Element.Is pool.memory) buffer.blobs (Layout.finished pool.memory ops) := by
  obtain ⟨_, u, wrote, finished⟩ := bind_ok.1 run
  exact (setUp_laidOut formed wrote).finish finished

namespace Element

def bytes : Element → List Byte
  | own bytes => bytes
  | shared blob => blob.bytes

def isShared : Element → Bool
  | own _ => false
  | shared _ => true

theorem Is.segments {memory : SharedMemory} {blobs : List ConstBlob} {elements : List Element}
    (are : List.Forall₂ (Is memory) blobs elements) : blobs.map ConstBlob.bytes = elements.map bytes := by
  induction are with
  | nil => rfl
  | cons one rest ih =>
    rw [List.map_cons, List.map_cons, ih]
    cases one <;> rfl

theorem Is.shared_at {memory : SharedMemory} {blobs : List ConstBlob} {elements : List Element}
    (are : List.Forall₂ (Is memory) blobs elements) {i : Nat} {blob : ConstBlob}
    (found : elements[i]? = some (.shared blob)) : blobs[i]? = some blob := by
  induction are generalizing i with
  | nil => cases found
  | cons one rest ih =>
    cases i with
    | zero =>
      cases found
      cases one
      rfl
    | succ i => exact ih found

end Element

def OutputBuffer.WriteOp.isFlush : WriteOp → Bool
  | .flush => true
  | _ => false

namespace Layout

/-- No more than one element of copied bytes comes before each shared blob and each flush. -/
def Compact (layout : Layout) (flushes : Nat) : Prop :=
  layout.elements.length ≤ 2 * layout.elements.countP Element.isShared + flushes

variable (memory : SharedMemory) {layout : Layout} {flushes : Nat}

theorem flush_length (layout : Layout) : layout.flush.elements.length ≤ layout.elements.length + 1 := by
  unfold flush
  split
  · exact Nat.le_succ _
  · exact Nat.le_of_eq List.length_append

theorem flush_countP (layout : Layout) :
    layout.flush.elements.countP Element.isShared = layout.elements.countP Element.isShared := by
  unfold flush
  split
  · rfl
  · rw [List.countP_append]
    rfl

theorem Compact.flush (compact : layout.Compact flushes) : layout.flush.Compact (flushes + 1) := by
  have longer := layout.flush_length
  unfold Compact at compact ⊢
  rw [flush_countP]
  omega

theorem Compact.put (compact : layout.Compact flushes) (blob : ConstBlob) (other : List Byte) :
    (layout.put memory blob other).Compact flushes := by
  unfold Layout.put
  split
  · have longer := layout.flush_length
    unfold Compact at compact ⊢
    rw [share, List.length_append, List.countP_append, flush_countP, List.length_singleton,
      show [Element.shared blob].countP Element.isShared = 1 from rfl]
    omega
  · exact compact

theorem Compact.putAll (compact : layout.Compact flushes) (blobs : List ConstBlob) :
    (layout.putAll memory blobs).Compact flushes := by
  induction blobs generalizing layout with
  | nil => exact compact
  | cons blob rest ih => exact ih (compact.put memory blob blob.bytes)

theorem Compact.apply (compact : layout.Compact flushes) (op : WriteOp) :
    (layout.apply memory op).Compact (flushes + [op].countP WriteOp.isFlush) := by
  cases op with
  | value bytes => exact compact
  | raw bytes => exact compact
  | allocated bytes => exact compact
  | variableUnsigned width number => exact compact
  | blob source =>
    rw [Layout.apply]
    split
    · exact compact.put memory _ _
    · exact compact
  | buffer source => exact compact.putAll memory _
  | range source => exact compact.putAll memory _
  | flush => exact compact.flush

theorem Compact.applyAll (compact : layout.Compact flushes) (ops : List WriteOp) :
    (ops.foldl (Layout.apply memory) layout).Compact (flushes + ops.countP WriteOp.isFlush) := by
  induction ops generalizing layout flushes with
  | nil => exact compact
  | cons op rest ih =>
    have next := ih (compact.apply memory op)
    rwa [Nat.add_assoc, ← List.countP_append] at next

end Layout

theorem produce_compact (formed : ∀ op ∈ ops, op.WellFormed) {buffer : ConstBuffer}
    (run : produce pool bond ops finish (members minBlobSize) = .ok buffer t) :
    buffer.blobs.length ≤
      2 * (Layout.finished pool.memory ops).countP Element.isShared + ops.countP WriteOp.isFlush + 1 := by
  have start : Layout.empty.Compact 0 := Nat.le_refl 0
  have compact := (start.applyAll pool.memory ops).flush
  rw [Nat.zero_add] at compact
  exact (produce_laidOut formed run).length_eq ▸ compact

/-- The blobs of a finished buffer are those that the writes alone determine: one for each stretch of copied bytes
between two shared blobs or flushes, however many times the blob for it has grown, and each shared blob as it is. So
there are no more than two for each shared blob, one for each flush, and one for the last bytes. -/
theorem layout_exact (pool : BufferPool) (bond : BondCodec) (minBlobSize : Nat) (ops : List WriteOp) (finish : Finish)
    (formed : ∀ op ∈ ops, op.WellFormed) {buffer : ConstBuffer} {t : OutputBuffer}
    (run : produce pool bond ops finish (members minBlobSize) = .ok buffer t) :
    List.Forall₂ (Element.Is pool.memory) buffer.blobs (Layout.finished pool.memory ops) ∧
      buffer.blobs.length ≤
        2 * (Layout.finished pool.memory ops).countP Element.isShared + ops.countP WriteOp.isFlush + 1 :=
  ⟨produce_laidOut formed run, produce_compact formed run⟩

def sharedBlob : ConstBlob := ⟨some ⟨200, [7, 8, 9]⟩, 1, 3⟩

def grownOps : List WriteOp :=
  [.value [1, 2, 3], .raw [4, 5, 6, 7], .blob (.ofConstBlob sharedBlob), .flush, .value [5]]

theorem grownOps_formed : ∀ op ∈ grownOps, op.WellFormed := by
  have valid : (BondBlob.ofConstBlob sharedBlob).Valid := BondBlob.ofConstBlob_valid (by decide) (by decide)
  simp only [grownOps, List.forall_mem_cons]
  exact ⟨(by decide : 3 < 2 ^ 32), (by decide : 4 < 2 ^ 32), valid, trivial, (by decide : 1 < 2 ^ 32), by simp⟩

theorem grownOps_finished : Layout.finished (simplePool 4 0).memory grownOps =
    [.own [1, 2, 3, 4, 5, 6, 7], .shared sharedBlob, .own [5]] := by decide +kernel

theorem layout_exact_grown :
    ∃ buffer t, produce (simplePool 4 0) sevenBitCodec grownOps .moved (members 2) = .ok buffer t ∧
      List.Forall₂ (Element.Is (simplePool 4 0).memory) buffer.blobs
        [.own [1, 2, 3, 4, 5, 6, 7], .shared sharedBlob, .own [5]] ∧ buffer.blobs.length ≤ 4 := by
  obtain ⟨buffer, t, run, _⟩ := exists_of_returns (fun _ => true)
    (by decide +kernel : returns _ (produce (simplePool 4 0) sevenBitCodec grownOps .moved (members 2)) = true)
  have exact := layout_exact (simplePool 4 0) sevenBitCodec 2 grownOps .moved grownOps_formed run
  rw [grownOps_finished] at exact
  exact ⟨buffer, t, run, exact.1, exact.2⟩

/-- Two buffers made by the same writes over one memory are cut in the same places and share the same blobs, whatever
else differs: the pools, what they answer, the size of the blobs, the codec, and how the buffer is taken in the end. -/
theorem layout_independent (pool pool' : BufferPool) (memory : pool.memory = pool'.memory) (bond bond' : BondCodec)
    (minBlobSize minBlobSize' : Nat) (ops : List WriteOp) (finish finish' : Finish)
    (formed : ∀ op ∈ ops, op.WellFormed) {buffer buffer' : ConstBuffer} {t t' : OutputBuffer}
    (run : produce pool bond ops finish (members minBlobSize) = .ok buffer t)
    (run' : produce pool' bond' ops finish' (members minBlobSize') = .ok buffer' t') :
    buffer.segments = buffer'.segments ∧
      ∀ (i : Nat) (blob : ConstBlob), (Layout.finished pool.memory ops)[i]? = some (.shared blob) →
        buffer.blobs[i]? = some blob ∧ buffer'.blobs[i]? = some blob := by
  have laid := produce_laidOut formed run
  have laid' := produce_laidOut formed run'
  rw [← memory] at laid'
  refine ⟨(Element.Is.segments laid).trans (Element.Is.segments laid').symm, ?_⟩
  intro i blob shared
  exact ⟨Element.Is.shared_at laid shared, Element.Is.shared_at laid' shared⟩

/-- Two pools of different numbers and capacities, and different sizes of the blobs. -/
theorem layout_independent_sizes :
    ∃ buffer t buffer' t', produce (simplePool 4 0) sevenBitCodec grownOps .moved (members 2) = .ok buffer t ∧
      produce (simplePool 9 30) sevenBitCodec grownOps .flushed (members 5) = .ok buffer' t' ∧
      buffer.segments = buffer'.segments ∧ buffer'.blobs[1]? = some sharedBlob := by
  obtain ⟨buffer, t, run, _⟩ := exists_of_returns (fun _ => true)
    (by decide +kernel : returns _ (produce (simplePool 4 0) sevenBitCodec grownOps .moved (members 2)) = true)
  obtain ⟨buffer', t', run', _⟩ := exists_of_returns (fun _ => true)
    (by decide +kernel : returns _ (produce (simplePool 9 30) sevenBitCodec grownOps .flushed (members 5)) = true)
  obtain ⟨same, shares⟩ := layout_independent (simplePool 4 0) (simplePool 9 30) rfl sevenBitCodec sevenBitCodec 2 5
    grownOps .moved .flushed grownOps_formed run run'
  have second : (Layout.finished (simplePool 4 0).memory grownOps)[1]? = some (.shared sharedBlob) := by
    rw [grownOps_finished]
    rfl
  exact ⟨buffer, t, buffer', t', run, run', same, (shares 1 sharedBlob second).2⟩

namespace Layout

def contents (layout : Layout) : List Byte := (layout.elements.map Element.bytes).flatten ++ layout.pending

theorem flush_contents (layout : Layout) : (layout.flush.elements.map Element.bytes).flatten = layout.contents := by
  unfold flush contents
  split
  · next none => rw [none, List.append_nil]
  · simp [Element.bytes]

theorem share_flush (layout : Layout) (blob : ConstBlob) : (layout.share blob).flush = layout.share blob := if_pos rfl

theorem putAll_contained {memory : SharedMemory} {blobs : List ConstBlob} (some : blobs ≠ [])
    (contained : ∀ blob ∈ blobs, memory.contains blob.data = true) (layout : Layout) :
    layout.putAll memory blobs = ⟨layout.flush.elements ++ blobs.map Element.shared, []⟩ := by
  induction blobs generalizing layout with
  | nil => exact absurd rfl some
  | cons blob rest ih =>
    have one : layout.put memory blob blob.bytes = layout.share blob := if_pos (contained blob List.mem_cons_self)
    rw [putAll, List.foldl_cons, one]
    by_cases none : rest = []
    · rw [none]
      rfl
    · have later : ∀ blob ∈ rest, memory.contains blob.data = true :=
        fun other member => contained other (List.mem_cons_of_mem _ member)
      refine (ih none later (layout.share blob)).trans ?_
      rw [share_flush, share, List.append_assoc]
      rfl

end Layout

theorem Element.Is.all_shared {memory : SharedMemory} {blobs shared : List ConstBlob}
    (are : List.Forall₂ (Is memory) blobs (shared.map Element.shared)) : blobs = shared := by
  induction shared generalizing blobs with
  | nil => exact List.forall₂_nil_right_iff.1 are
  | cons blob rest ih =>
    cases are with
    | cons one others =>
      cases one
      rw [ih others]

/-- A buffer whose blobs lie in the memory is passed on as it is: its blobs, and no copies of them, stand in the
finished buffer one after another, between the bytes written before and those written after. -/
theorem forward_shares (pool : BufferPool) (bond : BondCodec) (minBlobSize : Nat) (before after : List WriteOp)
    (source : ConstBuffer) (finish : Finish) (valid : source.Valid) (some : source.blobs ≠ [])
    (contained : ∀ blob ∈ source.blobs, pool.memory.contains blob.data = true)
    (formed : ∀ op ∈ before ++ after, op.WellFormed) (copyable : ∀ op ∈ before ++ after, op.Copyable pool.memory)
    {buffer : ConstBuffer} {t : OutputBuffer}
    (run : produce pool bond (before ++ .buffer source :: after) finish (members minBlobSize) = .ok buffer t) :
    ∃ front back, buffer.blobs = front ++ source.blobs ++ back ∧
      (front.map ConstBlob.bytes).flatten = before.flatMap WriteOp.bytes ∧
      (back.map ConstBlob.bytes).flatten = after.flatMap WriteOp.bytes := by
  have formedBefore : ∀ op ∈ before, op.WellFormed := fun op member => formed op (List.mem_append_left _ member)
  have formedAfter : ∀ op ∈ after, op.WellFormed := fun op member => formed op (List.mem_append_right _ member)
  obtain ⟨v, w, early, write, back, whole⟩ := produce_split formedAfter run
  have laid := setUp_laidOut formedBefore early
  have shared := (laid.op (show WriteOp.WellFormed (.buffer source) from valid) write).elements
  generalize before.foldl (Layout.apply pool.memory) .empty = layout at laid shared
  rw [Layout.apply, Layout.putAll_contained some contained] at shared
  have front := List.forall₂_take_append _ _ _ shared
  have between := Element.Is.all_shared (List.forall₂_drop_append _ _ _ shared)
  have split : w.buffer = w.buffer.take layout.flush.elements.length ++ source.blobs := by
    rw [← between, List.take_append_drop]
  have frontBytes : ((w.buffer.take layout.flush.elements.length).map ConstBlob.bytes).flatten =
      before.flatMap WriteOp.bytes := by
    have written := (setUp_spec formedBefore early).2.1
    rw [WriteOp.pieces_flatMap formedBefore fun op member => copyable op (List.mem_append_left _ member)] at written
    rw [Element.Is.segments front, Layout.flush_contents, Layout.contents, ← Element.Is.segments laid.elements,
      ← laid.pending, ← written, segments, List.flatten_append, List.flatten_singleton]
  have allFormed : ∀ op ∈ before ++ WriteOp.buffer source :: after, op.WellFormed :=
    List.forall_mem_append.2 ⟨formedBefore, List.forall_mem_cons.2 ⟨valid, formedAfter⟩⟩
  have allCopyable : ∀ op ∈ before ++ WriteOp.buffer source :: after, op.Copyable pool.memory := by
    obtain ⟨copyBefore, copyAfter⟩ := List.forall_mem_append.1 copyable
    refine List.forall_mem_append.2 ⟨copyBefore, List.forall_mem_cons.2 ⟨fun blob member outside => ?_, copyAfter⟩⟩
    rw [contained blob member] at outside
    cases outside
  refine ⟨_, back, by rw [← whole, ← split], frontBytes, ?_⟩
  have total := (produce_spec allFormed run).1.1
  rw [WriteOp.pieces_flatMap allFormed allCopyable, ConstBuffer.segments, ← whole, split, List.map_append,
    List.map_append, List.flatten_append, List.flatten_append, frontBytes, List.flatMap_append, List.flatMap_cons,
    List.append_assoc] at total
  exact List.append_cancel_left (List.append_cancel_left total)

/-- A buffer that has been made over the same memory is passed on between other writes. -/
theorem forward_shares_between :
    let source : ConstBuffer := ⟨some [⟨some ⟨200, [1, 2, 3]⟩, 1, 3⟩, ⟨some ⟨201, [4]⟩, 0, 1⟩]⟩
    ∃ buffer t front back, produce (simplePool 4 0) sevenBitCodec ([.value [9]] ++ .buffer source :: [.value [8]])
        .moved (members 2) = .ok buffer t ∧
      buffer.blobs = front ++ source.blobs ++ back ∧ (front.map ConstBlob.bytes).flatten = [9] ∧
      (back.map ConstBlob.bytes).flatten = [8] := by
  intro source
  obtain ⟨buffer, t, run, _⟩ := exists_of_returns (fun _ => true)
    (by decide +kernel : returns _ (produce (simplePool 4 0) sevenBitCodec
      ([.value [9]] ++ .buffer source :: [.value [8]]) .moved (members 2)) = true)
  obtain ⟨front, back, whole, first, last⟩ := forward_shares (simplePool 4 0) sevenBitCodec 2 [.value [9]] [.value [8]]
    source .moved (by decide) (by decide) (by decide) (by simp [WriteOp.WellFormed])
    (by simp [WriteOp.Copyable, WriteOp.blobs]) run
  exact ⟨buffer, t, front, back, run, whole, first, last⟩

end IpcBond
