import IpcBond.OutputRefinement

/-! What the member functions of `OutputBuffer` do to `m_buffer`: those that write to the current blob leave it as it
is, the others only append to it, and what has been appended is recorded. -/

namespace IpcBond.OutputBuffer
open Library.StateExcept

def pushed (effects : List Effect) : List ConstBlob :=
  effects.filterMap fun
    | .push _ blob => some blob
    | _ => none

theorem pushed_append (front back : List Effect) : pushed (front ++ back) = pushed front ++ pushed back :=
  List.filterMap_append

def Framed (holds : OutputBuffer → Prop) : Prop :=
  ∀ s t, t.buffer = s.buffer → pushed t.effects = pushed s.effects → holds s → holds t

theorem Framed.update {holds : OutputBuffer → Prop} (framed : Framed holds) {f : OutputBuffer → OutputBuffer}
    (buffer : ∀ s, (f s).buffer = s.buffer) (effects : ∀ s, pushed (f s).effects = pushed s.effects) :
    Keeps holds (modify f : Writer PUnit) :=
  .update fun s before => framed s (f s) (buffer s) (effects s) before

theorem sameBuffer (s : OutputBuffer) : Framed (s.buffer = ·.buffer) := fun _ _ same _ before => before.trans same.symm

theorem orThrow_keeps {holds : OutputBuffer → Prop} {α : Type} (allocation : Allocation) (value : Option α) :
    Keeps holds (orThrow allocation value) := by
  cases value with
  | none => exact .throw _
  | some value => exact .pure value

theorem evaluate_keeps {holds : OutputBuffer → Prop} {α : Type} (value : Except Error α) :
    Keeps holds (evaluate value) := by
  cases value with
  | ok value => exact .pure value
  | error e => exact .throw e

section Members

variable (pool : BufferPool) {holds : OutputBuffer → Prop} (framed : Framed holds)
include framed

theorem request_keeps : Keeps holds request := by
  intro s a t before run
  cases run
  exact framed s _ rfl rfl before

theorem resizeDefault_keeps (allocation : Allocation) (n : Nat) : Keeps holds (resizeDefault pool allocation n) :=
  .bind .get fun _ => .bind (request_keeps framed) fun _ => .bind (orThrow_keeps _ _) fun _ =>
    framed.update (fun _ => rfl) fun _ => by simp [pushed]

theorem resize_keeps (allocation : Allocation) (n : Nat) : Keeps holds (resize pool allocation n) :=
  .bind .get fun _ => .bind (request_keeps framed) fun _ => .bind (orThrow_keeps _ _) fun _ =>
    framed.update (fun _ => rfl) fun _ => by simp [pushed]

theorem store_keeps (ptr : Ptr) (bytes : List Byte) : Keeps holds (store ptr bytes) := by
  refine framed.update (fun s => ?_) fun s => ?_
  · split <;> rfl
  · split <;> simp [pushed]

theorem takeBlob_keeps : Keeps holds (takeBlob pool) :=
  .bind (request_keeps framed) fun _ => .bind .get fun _ => .bind (orThrow_keeps _ _) fun _ =>
    .bind (framed.update (fun _ => rfl) fun _ => by simp [pushed]) fun _ => .bind .get fun _ =>
      .bind (resizeDefault_keeps pool framed _ _) fun _ => framed.update (fun _ => rfl) fun _ => rfl

theorem make_keeps : Keeps holds (make pool) := by
  refine .bind (request_keeps framed) fun n => ?_
  split
  · exact takeBlob_keeps pool framed
  · exact .throw _

theorem allocate_keeps (size : Nat) : Keeps holds (allocate pool size) := by
  refine .bind .get fun s => ?_
  simp only
  split
  · exact .bind (resizeDefault_keeps pool framed _ _) fun _ =>
      .bind (framed.update (fun _ => rfl) fun _ => rfl) fun _ => .bind .get fun _ =>
        .bind (framed.update (fun _ => rfl) fun _ => rfl) fun _ => .pure _
  · exact .bind .get fun _ => .bind (framed.update (fun _ => rfl) fun _ => rfl) fun _ => .pure _

theorem writeBytes_keeps (bytes : List Byte) : Keeps holds (writeBytes pool bytes) :=
  .bind (allocate_keeps pool framed _) fun _ => store_keeps framed _ _

theorem writeValue_keeps (value : List Byte) : Keeps holds (writeValue pool value) := by
  refine .bind .get fun s => ?_
  split
  · exact .bind (store_keeps framed _ _) fun _ => framed.update (fun _ => rfl) fun _ => rfl
  · exact writeBytes_keeps pool framed value

theorem writeBytewise_keeps (bytes : List Byte) : Keeps holds (writeBytewise pool bytes) := by
  induction bytes with
  | nil => exact .pure _
  | cons byte rest ih => exact .bind (writeValue_keeps pool framed _) fun _ => ih

theorem writeVariableUnsigned_keeps (bond : BondCodec) (width : Width) (value : Nat) :
    Keeps holds (writeVariableUnsigned pool bond width value) := by
  refine .bind .get fun s => ?_
  split
  · exact .bind (store_keeps framed _ _) fun _ => framed.update (fun _ => rfl) fun _ => rfl
  · exact writeBytewise_keeps pool framed _

end Members

structure Pushes (holds : OutputBuffer → Prop) : Prop where
  framed : Framed holds
  push : ∀ s t blob, t.buffer = s.buffer ++ [blob] → pushed t.effects = pushed s.effects ++ [blob] → holds s → holds t

theorem begins (front : List ConstBlob) : Pushes (front <+: ·.buffer) where
  framed _ _ same _ before := before.trans (same ▸ List.prefix_refl _)
  push _ _ _ longer _ before := before.trans (by rw [longer]; exact List.prefix_append _ _)

theorem recorded : Pushes fun s => s.buffer = pushed s.effects where
  framed _ _ same effects before := same.trans (before.trans effects.symm)
  push _ _ _ longer effects before := by rw [longer, effects, before]

section Appending

variable (pool : BufferPool) {holds : OutputBuffer → Prop} (pushes : Pushes holds)
include pushes

theorem pushBack_keeps (allocation : Allocation) (blob : ConstBlob) : Keeps holds (pushBack pool allocation blob) := by
  refine .bind (request_keeps pushes.framed) fun n => ?_
  split
  · exact .update fun s before => pushes.push s _ blob rfl (by simp [pushed]) before
  · exact .throw _

theorem merge_keeps : Keeps holds (merge pool) := by
  refine .bind .get fun s => ?_
  simp only
  split
  · exact .bind (resize_keeps pool pushes.framed _ _) fun _ => .bind .get fun _ =>
      .bind (pushBack_keeps pool pushes _ _) fun _ => .pure _
  · exact .pure _

theorem flush_keeps : Keeps holds (flush pool) := by
  refine .bind (merge_keeps pool pushes) fun merged => ?_
  split
  · exact takeBlob_keeps pool pushes.framed
  · exact .pure _

theorem writeShared_keeps (blob : ConstBlob) (other : List Byte) : Keeps holds (writeShared pool blob other) := by
  unfold writeShared
  split
  · exact .bind (flush_keeps pool pushes) fun _ => pushBack_keeps pool pushes _ _
  · exact writeBytes_keeps pool pushes.framed _

theorem writeBlobs_keeps (blobs : List ConstBlob) : Keeps holds (writeBlobs pool blobs) := by
  induction blobs with
  | nil => exact .pure _
  | cons blob rest ih => exact .bind (writeShared_keeps pool pushes _ _) fun _ => ih

theorem WriteOp.run_keeps (bond : BondCodec) {op : WriteOp} (formed : op.WellFormed) :
    Keeps holds (op.run pool bond) := by
  cases op with
  | value bytes => exact writeValue_keeps pool pushes.framed bytes
  | raw bytes => exact writeBytes_keeps pool pushes.framed bytes
  | allocated bytes => exact writeBytes_keeps pool pushes.framed bytes
  | variableUnsigned width value => exact writeVariableUnsigned_keeps pool pushes.framed bond width value
  | blob source => exact .bind (evaluate_keeps _) fun _ => writeShared_keeps pool pushes _ _
  | buffer source =>
    simp only [WriteOp.run, writeBuffer]
    split
    · exact writeBlobs_keeps pool pushes _
    · exact .pure _
  | range source =>
    rw [WriteOp.run, writeRange_eq pool formed.1 formed.2]
    exact writeBlobs_keeps pool pushes _
  | flush => exact flush_keeps pool pushes

theorem runOps_keeps (bond : BondCodec) {ops : List WriteOp} (formed : ∀ op ∈ ops, op.WellFormed) :
    Keeps holds (runOps pool bond ops) := by
  induction ops with
  | nil => exact .pure _
  | cons op rest ih =>
    exact .bind (op.run_keeps pool pushes bond (formed op List.mem_cons_self)) fun _ =>
      ih fun other member => formed other (List.mem_cons_of_mem _ member)

end Appending

theorem Finish.run_begins (pool : BufferPool) {finish : Finish} {s t : OutputBuffer} {buffer : ConstBuffer}
    (run : finish.run pool s = .ok buffer t) : s.buffer <+: buffer.blobs := by
  cases finish with
  | unchanged =>
    rw [Finish.run, getBufferConst, run_bind_of_ok (run_get s)] at run
    split at run
    · cases run
    · cases run
      exact List.prefix_refl _
  | flushed =>
    obtain ⟨_, u, flushed, result⟩ := bind_ok.1 run
    cases result
    exact flush_keeps pool (begins s.buffer) s _ _ (List.prefix_refl _) flushed
  | moved =>
    obtain ⟨_, u, merged, result⟩ := bind_ok.1 run
    cases result
    exact merge_keeps pool (begins s.buffer) s _ _ (List.prefix_refl _) merged

variable {pool : BufferPool} {bond : BondCodec} {before after : List WriteOp}

theorem runOps_append (before after : List WriteOp) :
    runOps pool bond (before ++ after) = runOps pool bond before >>= fun _ => runOps pool bond after := by
  induction before with
  | nil => rfl
  | cons op rest ih =>
    rw [List.cons_append, runOps, ih, runOps]
    funext s
    simp only [run_bind]
    cases op.run pool bond s <;> rfl

/-- One write of a finished run: the states around it, and what is in the buffer after it stays in front. -/
theorem produce_split {op : WriteOp} {finish : Finish} {minBlobSize : Nat} {buffer : ConstBuffer} {t : OutputBuffer}
    (formed : ∀ op ∈ after, op.WellFormed)
    (run : produce pool bond (before ++ op :: after) finish (members minBlobSize) = .ok buffer t) :
    ∃ v w, setUp pool bond before (members minBlobSize) = .ok () v ∧ op.run pool bond v = .ok () w ∧
      w.buffer <+: buffer.blobs := by
  obtain ⟨_, u, wrote, finished⟩ := bind_ok.1 run
  obtain ⟨_, m, made, ops⟩ := bind_ok.1 wrote
  rw [runOps_append] at ops
  obtain ⟨_, v, early, rest⟩ := bind_ok.1 ops
  obtain ⟨_, w, write, late⟩ := bind_ok.1 rest
  have kept : w.buffer <+: u.buffer := runOps_keeps pool (begins w.buffer) bond formed w _ u (List.prefix_refl _) late
  exact ⟨v, w, bind_ok.2 ⟨_, m, made, early⟩, write, kept.trans (Finish.run_begins pool finished)⟩

end IpcBond.OutputBuffer
