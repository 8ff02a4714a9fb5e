import IpcBond.OutputRefinement

/-! What the member functions of `OutputBuffer` record: effects are only added, in an order that
`Phase` allows, and the blobs shared are parts of those passed in. -/

namespace IpcBond.OutputBuffer
open Library.StateExcept

def Recorded (allowed : ConstBlob → Prop) (s t : OutputBuffer) : Prop :=
  ∃ effects, t.effects = s.effects ++ effects ∧ ∀ blob, .push .pushShared blob ∈ effects → allowed blob

def Records (allowed : ConstBlob → Prop) {α : Type} (call : Writer α) : Prop :=
  ∀ s a t, call s = .ok a t → Recorded allowed s t

variable {allowed : ConstBlob → Prop} {α β : Type} {s t u : OutputBuffer}

theorem Recorded.refl (same : t.effects = s.effects) : Recorded allowed s t := ⟨[], by rw [same, List.append_nil], by simp⟩

theorem Recorded.trans (front : Recorded allowed s t) (back : Recorded allowed t u) : Recorded allowed s u := by
  obtain ⟨first, before, frontAllowed⟩ := front
  obtain ⟨second, after, backAllowed⟩ := back
  refine ⟨first ++ second, by rw [after, before, List.append_assoc], fun blob member => ?_⟩
  rcases List.mem_append.1 member with early | late
  · exact frontAllowed blob early
  · exact backAllowed blob late

namespace Records

theorem bind {call : Writer α} {next : α → Writer β} (first : Records allowed call)
    (rest : ∀ a, Records allowed (next a)) : Records allowed (call >>= next) := by
  intro s b u run
  obtain ⟨a, t, before, after⟩ := bind_ok.1 run
  exact (first s a t before).trans (rest a t b u after)

theorem pure (a : α) : Records allowed (pure a : Writer α) := by
  intro s b t run
  cases run
  exact .refl rfl

theorem throw (e : Error) : Records allowed (throw e : Writer α) := by
  intro s b t run
  cases run

theorem get : Records allowed (get : Writer OutputBuffer) := by
  intro s b t run
  cases run
  exact .refl rfl

theorem update {f : OutputBuffer → OutputBuffer} (same : ∀ s, (f s).effects = s.effects) :
    Records allowed (modify f : Writer PUnit) := by
  intro s b t run
  cases run
  exact .refl (same s)

theorem record {f : OutputBuffer → OutputBuffer} {effect : Effect} (added : ∀ s, (f s).effects = s.effects ++ [effect])
    (shared : ∀ blob, effect = .push .pushShared blob → allowed blob) : Records allowed (modify f : Writer PUnit) := by
  intro s b t run
  cases run
  exact ⟨[effect], added s, fun blob member => shared blob (List.mem_singleton.1 member).symm⟩

end Records

section Members

variable (pool : BufferPool)

theorem request_records : Records allowed request := by
  intro s a t run
  cases run
  exact .refl rfl

theorem orThrow_records (allocation : Allocation) (value : Option α) : Records allowed (orThrow allocation value) := by
  cases value with
  | none => exact .throw _
  | some value => exact .pure value

theorem pushBack_records {allocation : Allocation} {blob : ConstBlob} (shared : allocation = .pushShared → allowed blob) :
    Records allowed (pushBack pool allocation blob) := by
  refine .bind request_records fun n => ?_
  split
  · refine .record (fun s => rfl) fun other same => ?_
    cases same
    exact shared rfl
  · exact .throw _

theorem resizeDefault_records (allocation : Allocation) (n : Nat) : Records allowed (resizeDefault pool allocation n) :=
  .bind .get fun _ => .bind request_records fun _ => .bind (orThrow_records _ _) fun _ =>
    .record (fun _ => rfl) (by simp)

theorem resize_records (allocation : Allocation) (n : Nat) : Records allowed (resize pool allocation n) :=
  .bind .get fun _ => .bind request_records fun _ => .bind (orThrow_records _ _) fun _ =>
    .record (fun _ => rfl) (by simp)

theorem store_records (ptr : Ptr) (bytes : List Byte) : Records allowed (store ptr bytes) := by
  refine .record (fun s => show OutputBuffer.effects (ite _ _ _) = s.effects ++ [.store ptr bytes] from ?_) (by simp)
  split <;> rfl

theorem takeBlob_records : Records allowed (takeBlob pool) :=
  .bind request_records fun _ => .bind .get fun _ => .bind (orThrow_records _ _) fun _ =>
    .bind (.record (fun _ => rfl) (by simp)) fun _ => .bind .get fun _ =>
      .bind (resizeDefault_records pool _ _) fun _ => .update fun _ => rfl

theorem make_records : Records allowed (make pool) := by
  refine .bind request_records fun n => ?_
  split
  · exact takeBlob_records pool
  · exact .throw _

theorem merge_records : Records allowed (merge pool) := by
  refine .bind .get fun s => ?_
  simp only
  split
  · exact .bind (resize_records pool _ _) fun _ => .bind .get fun _ =>
      .bind (pushBack_records pool (by simp)) fun _ => .pure _
  · exact .pure _

theorem flush_records : Records allowed (flush pool) := by
  refine .bind (merge_records pool) fun merged => ?_
  split
  · exact takeBlob_records pool
  · exact .pure _

theorem allocate_records (size : Nat) : Records allowed (allocate pool size) := by
  refine .bind .get fun s => ?_
  simp only
  split
  · exact .bind (resizeDefault_records pool _ _) fun _ => .bind (.update fun _ => rfl) fun _ => .bind .get fun _ =>
      .bind (.update fun _ => rfl) fun _ => .pure _
  · exact .bind .get fun _ => .bind (.update fun _ => rfl) fun _ => .pure _

theorem writeBytes_records (bytes : List Byte) : Records allowed (writeBytes pool bytes) :=
  .bind (allocate_records pool _) fun _ => store_records _ _

theorem writeValue_records (value : List Byte) : Records allowed (writeValue pool value) := by
  refine .bind .get fun s => ?_
  split
  · exact .bind (store_records _ _) fun _ => .update fun _ => rfl
  · exact writeBytes_records pool value

theorem writeBytewise_records (bytes : List Byte) : Records allowed (writeBytewise pool bytes) := by
  induction bytes with
  | nil => exact .pure _
  | cons byte rest ih => exact .bind (writeValue_records pool _) fun _ => ih

theorem writeVariableUnsigned_records (bond : BondCodec) (width : Width) (value : Nat) :
    Records allowed (writeVariableUnsigned pool bond width value) := by
  refine .bind .get fun s => ?_
  split
  · exact .bind (store_records _ _) fun _ => .update fun _ => rfl
  · exact writeBytewise_records pool _

theorem writeShared_records {blob : ConstBlob} (shared : blob.item.isSome → allowed blob) (other : List Byte) :
    Records allowed (writeShared pool blob other) := by
  unfold writeShared
  split
  · next both => exact .bind (flush_records pool) fun _ => pushBack_records pool fun _ => shared both.1
  · exact writeBytes_records pool _

theorem writeBlobs_records {blobs : List ConstBlob} (shared : ∀ blob ∈ blobs, blob.item.isSome → allowed blob) :
    Records allowed (writeBlobs pool blobs) := by
  induction blobs with
  | nil => exact .pure _
  | cons blob rest ih =>
    exact .bind (writeShared_records pool (shared blob List.mem_cons_self) _) fun _ =>
      ih fun other member => shared other (List.mem_cons_of_mem _ member)

end Members

def WriteOp.sources : WriteOp → List ConstBlob
  | .blob source => source.holder.toList
  | .buffer source => source.blobs
  | .range source => source.buffer.blobs
  | _ => []

/-- The blobs that an operation may share: valid parts of those it is given. -/
def WriteOp.Shares (op : WriteOp) (blob : ConstBlob) : Prop :=
  blob.Valid ∧ blob.item.isSome ∧ ∃ source ∈ op.sources, source.item = blob.item

theorem item_of_parts {range : Range} {part : ConstBlob} (member : part ∈ range.parts) (some : part.item.isSome) :
    ∃ source ∈ range.buffer.blobs, source.item = part.item := by
  have blobAt : ∀ {i : Nat} (offset count : Nat) {other : ConstBlob},
      other = (range.buffer.blobAt i).part offset count ∨ other = range.buffer.blobAt i → other.item.isSome →
        ∃ source ∈ range.buffer.blobs, source.item = other.item := by
    intro i offset count other same present
    have item : other.item = (range.buffer.blobAt i).item := by
      rcases same with same | same
      · rw [same]
        rfl
      · rw [same]
    have inside : i < range.buffer.blobs.length := by
      by_contra past
      rw [item, ConstBuffer.blobAt_past _ (by omega)] at present
      cases present
    refine ⟨range.buffer.blobAt i, ?_, item.symm⟩
    rw [ConstBuffer.blobAt_eq _ inside]
    exact List.getElem_mem inside
  unfold Range.parts at member
  simp only at member
  split at member
  · cases member
  · split at member
    · exact blobAt _ _ (Or.inl (List.mem_singleton.1 member)) some
    · rcases List.mem_cons.1 member with first | later
      · exact blobAt _ _ (Or.inl first) some
      · rcases List.mem_append.1 later with between | last
        · obtain ⟨i, _, same⟩ := List.mem_map.1 between
          exact blobAt 0 0 (Or.inr same.symm) some
        · exact blobAt _ _ (Or.inl (List.mem_singleton.1 last)) some

/-- An operation shares parts of what it is given, and nothing else. -/
theorem WriteOp.records (pool : BufferPool) (bond : BondCodec) {op : WriteOp} (formed : op.WellFormed) :
    Records op.Shares (op.run pool bond) := by
  cases op with
  | value bytes => exact writeValue_records pool bytes
  | raw bytes => exact writeBytes_records pool bytes
  | allocated bytes => exact writeBytes_records pool bytes
  | variableUnsigned width value => exact writeVariableUnsigned_records pool bond width value
  | blob source =>
    intro s u t run
    obtain ⟨back, s', cast, wrote⟩ := bind_ok.1 run
    cases holder : source.holder with
    | none =>
      rw [BondBlob.toConstBlob_private holder] at cast
      cases cast
      exact writeShared_records pool (fun some => by cases some) _ s u t wrote
    | some held =>
      obtain ⟨part, back_eq, valid, item, _⟩ := BondBlob.toConstBlob_held formed holder
      rw [back_eq] at cast
      cases cast
      refine writeShared_records pool (fun some => ⟨valid, some, held, ?_, item.symm⟩) _ s u t wrote
      simp [WriteOp.sources, holder]
  | buffer source =>
    simp only [WriteOp.run, writeBuffer]
    split
    · exact writeBlobs_records pool fun blob member some => ⟨formed blob member, some, blob, member, rfl⟩
    · exact .pure _
  | range source =>
    rw [WriteOp.run, writeRange_eq pool formed.1 formed.2]
    refine writeBlobs_records pool fun blob member some => ⟨(formed.2.parts_cut formed.1).2 blob member, some, ?_⟩
    exact item_of_parts member some
  | flush => exact flush_records pool

end IpcBond.OutputBuffer
