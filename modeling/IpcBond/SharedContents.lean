import IpcBond.OutputFrames
import IpcBond.OutputRecycling

/-! The outputs of a system hold what was written to them. Whatever the other parties do, the blobs that the buffer of
an output refers to are those of the output alone, and a client that keeps the finished buffer reads its bytes. -/

namespace IpcBond.Pool
open Library.Segments Library.RefCount Library.StateExcept Library.Machine Relation OutputBuffer

theorem Heap.bufferAt_run {heap heap' : Heap} {task : Task} {tasks : List Task} (run : heap.run task = (heap', tasks))
    (d : Nat) : heap'.bufferAt d = heap.bufferAt d ∨ heap'.bufferAt d = [] := by
  have cleared (base : Heap) (e : Nat) :
      (base.clear e).bufferAt d = base.bufferAt d ∨ (base.clear e).bufferAt d = [] := by
    rw [bufferAt_clear]
    split
    · exact Or.inr rfl
    · exact Or.inl rfl
  cases Heap.ran run with
  | null => exact Or.inl rfl
  | recycle => exact cleared _ _
  | letGo => exact Or.inl rfl
  | handOver => exact Or.inl (bufferAt_setItems _)
  | freeQueue => exact Or.inl (by rw [bufferAt_setItems, release, bufferAt_setUses])
  | dropQueue => exact Or.inl (by rw [release, bufferAt_setUses])
  | @freeData e last =>
    rcases cleared (heap.release (.data e)) e with same | gone
    · exact Or.inl (same.trans (by rw [release, bufferAt_setUses]))
    · exact Or.inr gone
  | dropData => exact Or.inl (by rw [release, bufferAt_setUses])

namespace State

variable {s t : State} {i d : Nat}

theorem Shares.bufferAt (shares : Shares s t) : t.heap.bufferAt d = s.heap.bufferAt d := by
  obtain ⟨handle, rfl, _⟩ := shares
  exact Heap.bufferAt_acquireItem _ _ _

theorem bufferAt_assign {target source : Nat} (run : s.assign target source = some t) :
    t.heap.bufferAt d = s.heap.bufferAt d := by
  obtain ⟨old, _, run⟩ := Option.bind_eq_some_iff.1 run
  obtain ⟨handle, _, run⟩ := Option.bind_eq_some_iff.1 run
  split at run
  · cases run
    exact Heap.bufferAt_acquireItem _ _ _
  · cases run

theorem bufferAt_destroy (run : s.destroy i = some t) : t.heap.bufferAt d = s.heap.bufferAt d := by
  obtain ⟨handle, _, same⟩ := Option.bind_eq_some_iff.1 run
  cases same
  rfl

theorem bufferAt_client (owned : Owned s.heap s.ledger) {op : Op} (client : s.Client op) (run : step s op = some t)
    (found : .buffer d ∈ t.ledger) : t.heap.bufferAt d = s.heap.bufferAt d := by
  cases op with
  | construct kind =>
    cases run
    rfl
  | toConstBuffer j => exact (toConstBuffer_shares run).bufferAt
  | getRange j offset count => exact (getRange_shares run).bufferAt
  | element j index => exact (element_shares run).bufferAt
  | copy j => exact (copy_shares run).bufferAt
  | assign target source => exact bufferAt_assign run
  | destroy j => exact bufferAt_destroy run
  | runThread j =>
    obtain ⟨task, _, tasks, _, _, ran, _⟩ := ledger_runThread run
    have kept := (QuietMoves.bufferAt (runThread_quiet owned run) owned found).2
    rcases Heap.bufferAt_run ran d with same | gone
    · exact same
    · rw [gone] at kept ⊢
      exact (List.prefix_nil.1 kept).symm
  | createPool => cases client
  | destroyPool => cases client
  | takeBlob => cases client
  | takeBuffer => cases client
  | toConstBlob => cases client
  | push => cases client
  | write => cases client

structure Fills (s t : State) (d : Nat) (blobs : List ConstBlob) : Prop where
  handles : ∀ j item, t.handleAt j = some (.buffer (some item)) → s.handleAt j = some (.buffer (some item))
  others : ∀ e, e ≠ d → t.heap.bufferAt e = s.heap.bufferAt e
  filled : (t.heap.bufferAt d).map view = (s.heap.bufferAt d).map view ++ blobs

theorem Fills.none (handles : ∀ j item, t.handleAt j = some (.buffer (some item)) →
    s.handleAt j = some (.buffer (some item))) (buffers : ∀ e, t.heap.bufferAt e = s.heap.bufferAt e) :
    Fills s t d [] :=
  ⟨handles, fun e _ => buffers e, by rw [buffers, List.append_nil]⟩

theorem pushPart_fills (owned : Owned s.heap s.ledger) {buffer : Nat} {part : Option Part} {item : Item}
    (held : s.handleAt buffer = some (.buffer (some item)))
    (copied : Moves s.books (s.heap.acquireItem (part.map Part.item), partRefs part + s.ledger))
    (run : s.pushPart buffer part = some t) : Fills s t item.data [view part] := by
  obtain ⟨other, there, live, rfl⟩ := pushPart_cases owned copied run
  rw [held] at there
  cases there
  refine ⟨fun j item found => found, fun e different => ?_, ?_⟩
  · rw [Heap.bufferAt_pushBack live, if_neg different.symm, Heap.bufferAt_acquireItem]
  · rw [Heap.bufferAt_pushBack live, if_pos rfl, Heap.bufferAt_acquireItem, List.map_append]
    rfl

end State

namespace Output

variable {o : Output} {s t : State} {phase next : Phase} {popped d : Nat} {item : Item}

theorem take_fills (owned : Owned s.heap s.ledger) {blob : Blob} (run : o.act s popped (.take blob) = some t) :
    s.Fills t d [] := by
  obtain ⟨⟨taken, u⟩, took, run⟩ := Option.bind_eq_some_iff.1 run
  obtain ⟨v, assigned, destroyed⟩ := Option.bind_eq_some_iff.1 run
  have handles : u.handles = s.handles := by rw [(State.take_quiet owned took).2]
  refine .none (fun j item found => ?_) fun e => ?_
  · rw [State.handleAt_destroy destroyed, State.handleAt_assign assigned, State.handleAt_addHandle,
      State.handleAt_addHandle, if_pos rfl] at found
    split at found
    · cases found
    · split at found
      · cases found
      · rwa [State.handleAt, handles] at found
  · rw [State.bufferAt_destroy destroyed, State.bufferAt_assign assigned]
    exact (State.take_spec owned took).2.2.2 e

theorem act_fills (owned : Owned s.heap s.ledger) (follows : s.Follows o.slot phase) {effect : Effect}
    (discipline : phase.next effect = some next) (possible : o.Possible s popped effect)
    (held : s.handleAt (o.slot + 1) = some (.buffer (some item))) (run : o.act s popped effect = some t) :
    s.Fills t item.data (pushed [effect]) := by
  cases effect with
  | resize vector =>
    simp only [act, State.write] at run
    split at run
    · cases run
      exact .none (fun _ _ found => found) fun e => Heap.bufferAt_setBlob _
    · cases run
  | store ptr bytes =>
    obtain ⟨e, _, run⟩ := Option.bind_eq_some_iff.1 run
    simp only at run
    split at run
    · cases run
      exact .none (fun _ _ found => found) fun e => Heap.bufferAt_setBlob _
    · cases run
  | take blob => exact take_fills owned run
  | push allocation blob =>
    cases allocation with
    | pushMerged =>
      simp only [Phase.next] at discipline
      split at discipline
      · next allowed =>
        obtain ⟨e, data, own⟩ := follows.own (by simpa using allowed.1)
        obtain ⟨current, found, rfl⟩ := own.held
        obtain ⟨part, source, pushed⟩ := Option.bind_eq_some_iff.1 run
        have fills := State.pushPart_fills owned held (State.constBlob_moves source) pushed
        rw [State.constBlob, found] at source
        cases source
        have same : view (some (.whole current (s.heap.blobAt current.data))) = blob := by
          rw [own.blob, allowed.2, Blob.toConst, data]
          rfl
        rwa [same] at fills
      · cases discipline
    | pushShared =>
      obtain ⟨range, first, run⟩ := Option.bind_eq_some_iff.1 run
      obtain ⟨same, _, _, _, _, copied⟩ := range_spec possible first
      have moves := QuietMoves.moves (acquireItem_quiet (partRefs_pointers (some range)) copied)
      have fills := State.pushPart_fills owned held moves run
      rwa [show view (some range) = blob from same] at fills
    | _ => cases discipline

def segments (o : Output) : List (List Byte) :=
  if o.moved then o.state.buffer.map ConstBlob.bytes else o.state.segments

structure Called (o p : Output) : Prop where
  idle : o.todo = []
  unmoved : o.moved = false
  slot : p.slot = o.slot
  recorded : o.state.buffer = pushed o.state.effects → p.state.buffer = pushed p.state.effects
  effects : p.state.effects = o.state.effects ++ p.todo

end Output

def Action.writesTo {memory : SharedMemory} (i : Nat) : Action memory → List WriteOp
  | .call j _ op _ => if j = i then [op.val] else []
  | _ => []

def writesTo {memory : SharedMemory} (i : Nat) (actions : List (Action memory)) : List WriteOp :=
  actions.flatMap (Action.writesTo i)

theorem writesTo_formed {memory : SharedMemory} {i : Nat} {actions : List (Action memory)} :
    ∀ op ∈ writesTo i actions, op.WellFormed := by
  intro op member
  obtain ⟨action, _, wrote⟩ := List.mem_flatMap.1 member
  cases action with
  | call j pool formed arguments =>
    simp only [Action.writesTo] at wrote
    split at wrote
    · cases List.mem_singleton.1 wrote
      exact formed.property
    · cases wrote
  | _ => cases wrote

structure State.SameBuffers (s t : State) : Prop where
  handles : ∀ j item, t.handleAt j = some (.buffer (some item)) → s.handleAt j = some (.buffer (some item))
  parts : ∀ d, .buffer d ∈ t.ledger → t.heap.bufferAt d = s.heap.bufferAt d

def State.Shown (s : State) (d : Nat) : Prop :=
  ∃ j item, s.handleAt j = some (.constBuffer (some item)) ∧ item.data = d

namespace System

variable {memory : SharedMemory} {bond : BondCodec} {s t : System} {i j : Nat} {o p : Output}

inductive Steps (s : System) (action : Action memory) (t : System) : Prop where
  | pool (quiet : ∀ j, action.writesTo j = []) (outputs : t.outputs = s.outputs) (same : s.pool.SameBuffers t.pool)
  | dropped {i : Nat} {o : Output} (quiet : ∀ j, action.writesTo j = []) (found : s.outputAt i = some o)
      (outputs : t.outputs = s.outputs.set i none) (same : s.pool.SameBuffers t.pool)
  | called {i : Nat} {o p : Output} (quiet : ∀ j, j ≠ i → action.writesTo j = []) (found : s.outputAt i = some o)
      (outputs : t.outputs = s.outputs.set i (some p)) (same : t.pool = s.pool) (called : o.Called p)
      (segments : Coarser (o.segments ++ (action.writesTo i).flatMap (WriteOp.pieces memory)) p.segments)
  | acted {i : Nat} {o : Output} {effect : Effect} {rest : List Effect} {item : Item}
      (quiet : ∀ j, action.writesTo j = []) (found : s.outputAt i = some o) (todo : o.todo = effect :: rest)
      (held : s.pool.handleAt (o.slot + 1) = some (.buffer (some item)))
      (outputs : t.outputs = s.outputs.set i (some { o with todo := rest }))
      (fills : s.pool.Fills t.pool item.data (pushed [effect]))
  | made {o : Output} {item : Item} (quiet : ∀ j, action.writesTo j = []) (outputs : t.outputs = s.outputs ++ [some o])
      (slot : o.slot = s.pool.handles.length) (todo : o.todo = o.state.effects)
      (recorded : o.state.buffer = pushed o.state.effects) (segments : o.segments = [[]])
      (held : t.pool.handleAt (o.slot + 1) = some (.buffer (some item))) (fresh : .buffer item.data ∉ s.pool.ledger)
      (empty : t.pool.heap.bufferAt item.data = [])
      (handles : ∀ j other, t.pool.handleAt j = some (.buffer (some other)) →
        j = o.slot + 1 ∨ s.pool.handleAt j = some (.buffer (some other)))
      (parts : ∀ d, t.pool.heap.bufferAt d = s.pool.heap.bufferAt d)

theorem destroyOutput_steps (run : s.destroyOutput i = some t) : Steps s (.destroyOutput i : Action memory) t := by
  obtain ⟨o, found, run⟩ := Option.bind_eq_some_iff.1 run
  split at run
  · obtain ⟨u, first, run⟩ := Option.bind_eq_some_iff.1 run
    obtain ⟨v, second, same⟩ := Option.bind_eq_some_iff.1 run
    cases same
    refine .dropped (fun _ => rfl) found rfl ⟨fun j item present => ?_, fun d _ => ?_⟩
    · rw [State.handleAt_destroy second, State.handleAt_destroy first] at present
      split at present
      · cases present
      · split at present
        · cases present
        · exact present
    · exact (State.bufferAt_destroy second).trans (State.bufferAt_destroy first)
  · cases run

theorem destroyPool_steps (run : s.destroyPool = some t) : Steps s (.destroyPool : Action memory) t := by
  unfold System.destroyPool at run
  split at run
  · obtain ⟨u, gone, same⟩ := Option.bind_eq_some_iff.1 run
    cases same
    obtain ⟨q, _, same⟩ := Option.bind_eq_some_iff.1 gone
    cases same
    exact .pool (fun _ => rfl) rfl ⟨fun _ _ found => found, fun _ _ => rfl⟩
  · cases run

namespace Sound

variable (sound : s.Sound memory)
include sound

theorem make_steps {pool : PoolOver memory} {minBlobSize popped : Nat}
    (run : s.make pool.val minBlobSize popped = some t) :
    Steps s (.make pool minBlobSize popped : Action memory) t := by
  unfold System.make at run
  split at run
  · cases run
  · next state made =>
    obtain ⟨v, taken, same⟩ := Option.bind_eq_some_iff.1 run
    cases same
    obtain ⟨⟨item, w⟩, took, same⟩ := Option.bind_eq_some_iff.1 taken
    cases same
    let prior := s.pool.addHandle (.null .blob)
    have none : (Handle.null .blob).refs = 0 := rfl
    have owned : Owned prior.heap prior.ledger :=
      (QuietMoves.moves (State.construct_quiet (s := s.pool) .blob)).owned sound.owned
    obtain ⟨parked, clean, _, buffers⟩ := State.take_spec owned took
    have handles : w.handles = prior.handles := by rw [(State.take_quiet owned took).2]
    have length : prior.handles.length = s.pool.handles.length + 1 := List.length_append
    have buffer := make_keeps pool.val recorded.framed (members minBlobSize) () state rfl made
    have pending := make_spec made
    have placed : ∀ j, (w.addHandle (.buffer (some item))).handleAt j =
        if j = s.pool.handles.length + 1 then some (.buffer (some item)) else prior.handleAt j := by
      intro j
      rw [State.handleAt_addHandle, handles, length]
      simp only [State.handleAt, handles]
    have held : (w.addHandle (.buffer (some item))).handleAt (s.pool.handles.length + 1) =
        some (.buffer (some item)) := by rw [placed, if_pos rfl]
    refine .made (fun j => rfl) rfl rfl rfl buffer ?_ held ?_ ?_ ?_ fun d => buffers d
    · exact (make_spec made).2
    · intro member
      have before : .buffer item.data ∈ prior.ledger := by rwa [State.ledger_addHandle, none, zero_add]
      cases parked _ before rfl
    · exact (buffers item.data).trans clean.2
    · intro j other found
      rw [placed] at found
      split at found
      · next last => exact Or.inl last
      · rw [State.handleAt_addHandle] at found
        split at found
        · cases found
        · exact Or.inr found

theorem call_steps {pool : PoolOver memory} {op : FormedOp} {arguments : List Part}
    (run : s.call bond i pool.val op.val arguments = some t) :
    Steps s (.call i pool op arguments : Action memory) t := by
  obtain ⟨o, found, run⟩ := Option.bind_eq_some_iff.1 run
  split at run
  · next allowed =>
    split at run
    · cases run
    · next state wrote =>
      cases run
      obtain ⟨pool, same⟩ := pool
      subst same
      have ready := (sound.outputs i o found).ready allowed.2.1
      obtain ⟨effects, appended, _⟩ := WriteOp.records pool bond op.property _ _ _ wrote
      refine .called (fun j different => if_neg different.symm) found rfl rfl ⟨allowed.1, allowed.2.1, rfl, ?_, ?_⟩
        ?_
      · exact fun before => op.val.run_keeps pool recorded bond op.property o.state () state before wrote
      · rw [appended, List.drop_left]
      · rw [Output.segments, Output.segments, allowed.2.1, Action.writesTo, if_pos rfl, List.flatMap_singleton]
        exact (ready.op_appends op.property state wrote).segments
  · cases run

theorem finish_steps {pool : PoolOver memory} (run : s.finish i pool.val = some t) :
    Steps s (.finish i pool : Action memory) t := by
  obtain ⟨o, found, run⟩ := Option.bind_eq_some_iff.1 run
  split at run
  · next allowed =>
    split at run
    · cases run
    · next buffer state finished =>
      cases run
      obtain ⟨pool, same⟩ := pool
      subst same
      have ready := (sound.outputs i o found).ready allowed.2
      have moved : Finish.moved.run pool o.state = .ok buffer state := finished
      obtain ⟨pieces, _⟩ := ready.finish_spec moved
      obtain ⟨_, merged, step, rest⟩ := bind_ok.1 finished
      cases rest
      obtain ⟨effects, appended, _⟩ : Recorded (fun _ => False) o.state state := merge_records pool _ _ _ step
      refine .called (fun j _ => rfl) found rfl rfl ⟨allowed.1, allowed.2, rfl, ?_, ?_⟩ ?_
      · exact fun before => merge_keeps pool recorded o.state _ state before step
      · rw [appended, List.drop_left]
      · change Coarser (o.segments ++ []) _
        rw [List.append_nil, Output.segments, Output.segments, allowed.2]
        exact pieces
  · cases run

theorem act_steps {popped : Nat} (run : s.act i popped = some t) : Steps s (.act i popped : Action memory) t := by
  obtain ⟨o, found, run⟩ := Option.bind_eq_some_iff.1 run
  split at run
  · cases run
  · next effect rest todo =>
    split at run
    · next possible =>
      have good := sound.outputs i o found
      obtain ⟨u, acted, _⟩ := good.act sound.owned sound.faithful todo possible
      rw [acted] at run
      cases run
      obtain ⟨phase, last, follows, fold, _⟩ := good.current
      rw [todo] at fold
      obtain ⟨next, discipline, _⟩ := Option.bind_eq_some_iff.1 fold
      obtain ⟨item, held⟩ := follows.pair.buffer
      have fills := Output.act_fills sound.owned follows discipline possible held acted
      exact .acted (fun _ => rfl) found todo held rfl fills
    · cases run

theorem client_steps {op : Op} (run : s.client op = some t) : Steps s (.client op : Action memory) t := by
  unfold System.client at run
  split at run
  · next client =>
    obtain ⟨u, stepped, same⟩ := Option.bind_eq_some_iff.1 run
    cases same
    obtain ⟨_, writers⟩ := State.client_spec sound.owned client stepped
    exact .pool (fun _ => rfl) rfl ⟨fun j item => (writers j _ rfl).1, fun d found =>
      State.bufferAt_client sound.owned client stepped found⟩
  · cases run

theorem step_cases {action : Action memory} (run : s.step bond action = some t) : Steps s action t := by
  cases action with
  | make pool minBlobSize popped => exact sound.make_steps run
  | call i pool op arguments => exact sound.call_steps run
  | finish i pool => exact sound.finish_steps run
  | act i popped => exact sound.act_steps run
  | destroyOutput i => exact destroyOutput_steps run
  | destroyPool => exact destroyPool_steps run
  | client op => exact sound.client_steps run

end Sound

/-- In every state: what an output has in its buffer and has yet to push is what its last call has left, no two
handles lead to one buffer, and what an output has been given is what was written to it. -/
structure Holds (memory : SharedMemory) (written : Nat → List WriteOp) (s : System) : Prop where
  recorded : ∀ i o, s.outputAt i = some o → o.state.buffer = pushed o.state.effects
  buffers : ∀ i o item, s.outputAt i = some o → s.pool.handleAt (o.slot + 1) = some (.buffer (some item)) →
    (s.pool.heap.bufferAt item.data).map view ++ pushed o.todo = o.state.buffer
  exclusive : ∀ j k a b, s.pool.handleAt j = some (.buffer (some a)) → s.pool.handleAt k = some (.buffer (some b)) →
    a.data = b.data → j = k
  unmade : ∀ i, s.outputs.length ≤ i → written i = []
  segments : ∀ i o, s.outputAt i = some o → Coarser ((written i).flatMap (WriteOp.pieces memory)) o.segments

variable {written : Nat → List WriteOp} {action : Action memory}

theorem mem_ledger_of_buffer {slot : Nat} {item : Item} (found : s.pool.handleAt slot = some (.buffer (some item))) :
    .buffer item.data ∈ s.pool.ledger := State.mem_ledger_of_handleAt found (by simp [Handle.refs, itemRefs])

theorem outputAt_of_set (found : s.outputAt i = some o) {new : Option Output}
    (outputs : t.outputs = s.outputs.set i new) (j : Nat) : t.outputAt j = if j = i then new else s.outputAt j := by
  rw [outputAt, outputs]
  exact outputAt_set found new j

theorem Holds.same (holds : s.Holds memory written) (quiet : ∀ j, action.writesTo j = [])
    (outputs : ∀ j o, t.outputAt j = some o → s.outputAt j = some o) (length : t.outputs.length = s.outputs.length)
    (same : s.pool.SameBuffers t.pool) : t.Holds memory fun j => written j ++ action.writesTo j := by
  refine ⟨fun i o found => ?_, fun i o item found held => ?_, fun j k a b first second => ?_, fun i past => ?_,
    fun i o found => ?_⟩
  · exact holds.recorded i o (outputs i o found)
  · rw [same.parts _ (mem_ledger_of_buffer held)]
    exact holds.buffers i o item (outputs i o found) (same.handles _ _ held)
  · exact holds.exclusive j k a b (same.handles _ _ first) (same.handles _ _ second)
  · rw [quiet, List.append_nil]
    exact holds.unmade i (length ▸ past)
  · rw [quiet, List.append_nil]
    exact holds.segments i o (outputs i o found)

theorem Holds.called (holds : s.Holds memory written) (quiet : ∀ j, j ≠ i → action.writesTo j = [])
    (found : s.outputAt i = some o) (outputs : t.outputs = s.outputs.set i (some p)) (same : t.pool = s.pool)
    (called : o.Called p)
    (segments : Coarser (o.segments ++ (action.writesTo i).flatMap (WriteOp.pieces memory)) p.segments) :
    t.Holds memory fun j => written j ++ action.writesTo j := by
  have at_ := outputAt_of_set found outputs
  have recorded := called.recorded (holds.recorded i o found)
  refine ⟨fun j q present => ?_, fun j q item present held => ?_, ?_, fun j past => ?_, fun j q present => ?_⟩
  · rw [at_] at present
    split at present
    · cases present
      exact recorded
    · exact holds.recorded j q present
  · rw [same] at held ⊢
    rw [at_] at present
    split at present
    · cases present
      have before := holds.buffers i o item found (called.slot ▸ held)
      rw [called.idle, holds.recorded i o found] at before
      rw [recorded, called.effects, pushed_append, ← before]
      simp [pushed]
    · exact holds.buffers j q item present held
  · rw [same]
    exact holds.exclusive
  · rw [outputs, List.length_set] at past
    have other : j ≠ i := fun here => absurd (lt_of_outputAt found) (by omega)
    rw [quiet j other, List.append_nil]
    exact holds.unmade j past
  · rw [at_] at present
    split at present
    · next here =>
      cases present
      rw [here, List.flatMap_append]
      exact ((holds.segments i o found).append (.refl _)).trans segments
    · next other =>
      rw [quiet j other, List.append_nil]
      exact holds.segments j q present

theorem Holds.acted (holds : s.Holds memory written) (sound : s.Sound memory) (quiet : ∀ j, action.writesTo j = [])
    {effect : Effect} {rest : List Effect} {item : Item} (found : s.outputAt i = some o)
    (todo : o.todo = effect :: rest) (held : s.pool.handleAt (o.slot + 1) = some (.buffer (some item)))
    (outputs : t.outputs = s.outputs.set i (some { o with todo := rest }))
    (fills : s.pool.Fills t.pool item.data (pushed [effect])) :
    t.Holds memory fun j => written j ++ action.writesTo j := by
  have at_ := outputAt_of_set found outputs
  refine ⟨fun j q present => ?_, fun j q other present there => ?_, fun j k a b first second => ?_, fun j past => ?_,
    fun j q present => ?_⟩
  · rw [at_] at present
    split at present
    · cases present
      exact holds.recorded i o found
    · exact holds.recorded j q present
  · have there := fills.handles _ _ there
    rw [at_] at present
    split at present
    · cases present
      cases held.symm.trans there
      have before := holds.buffers i o item found held
      rw [todo, ← List.singleton_append, pushed_append, ← List.append_assoc] at before
      rw [fills.filled]
      exact before
    · next elsewhere =>
      have apart : other.data ≠ item.data := fun same =>
        elsewhere (sound.apart j i q o present found (Nat.succ.inj (holds.exclusive _ _ _ _ there held same)))
      rw [fills.others _ apart]
      exact holds.buffers j q other present there
  · exact holds.exclusive j k a b (fills.handles _ _ first) (fills.handles _ _ second)
  · rw [outputs, List.length_set] at past
    rw [quiet, List.append_nil]
    exact holds.unmade j past
  · rw [quiet, List.append_nil]
    rw [at_] at present
    split at present
    · next here =>
      cases present
      rw [here]
      exact holds.segments i o found
    · exact holds.segments j q present

theorem Holds.made (holds : s.Holds memory written) (sound : s.Sound memory) (quiet : ∀ j, action.writesTo j = [])
    {item : Item} (outputs : t.outputs = s.outputs ++ [some o]) (slot : o.slot = s.pool.handles.length)
    (todo : o.todo = o.state.effects) (recorded : o.state.buffer = pushed o.state.effects)
    (segments : o.segments = [[]]) (held : t.pool.handleAt (o.slot + 1) = some (.buffer (some item)))
    (fresh : .buffer item.data ∉ s.pool.ledger) (empty : t.pool.heap.bufferAt item.data = [])
    (handles : ∀ j other, t.pool.handleAt j = some (.buffer (some other)) →
      j = o.slot + 1 ∨ s.pool.handleAt j = some (.buffer (some other)))
    (parts : ∀ d, t.pool.heap.bufferAt d = s.pool.heap.bufferAt d) :
    t.Holds memory fun j => written j ++ action.writesTo j := by
  have at_ : ∀ j q, t.outputAt j = some q → s.outputAt j = some q ∨ j = s.outputs.length ∧ q = o := by
    intro j q present
    rw [outputAt, outputs, List.getElem?_append] at present
    split at present
    · exact Or.inl present
    · rw [List.getElem?_singleton] at present
      split at present
      · cases present
        exact Or.inr ⟨by omega, rfl⟩
      · cases present
  have old : ∀ {j q}, s.outputAt j = some q → q.slot ≠ o.slot := by
    intro j q present
    have := (sound.outputs j q present).pair.lt
    omega
  refine ⟨fun j q present => ?_, fun j q other present there => ?_, fun j k a b first second same => ?_,
    fun j past => ?_, fun j q present => ?_⟩
  · rcases at_ j q present with before | ⟨_, rfl⟩
    · exact holds.recorded j q before
    · exact recorded
  · rcases at_ j q present with before | ⟨_, rfl⟩
    · rcases handles _ _ there with new | there
      · exact absurd (Nat.succ.inj new) (old before)
      · rw [parts]
        exact holds.buffers j q other before there
    · cases held.symm.trans there
      rw [empty, todo, recorded]
      rfl
  · have known : ∀ {j other}, t.pool.handleAt j = some (.buffer (some other)) →
        j = o.slot + 1 ∧ other = item ∨ s.pool.handleAt j = some (.buffer (some other)) := by
      intro j other there
      rcases handles j other there with rfl | before
      · cases held.symm.trans there
        exact Or.inl ⟨rfl, rfl⟩
      · exact Or.inr before
    rcases known first with ⟨rfl, rfl⟩ | before
    · rcases known second with ⟨rfl, _⟩ | before'
      · rfl
      · exact absurd (same ▸ mem_ledger_of_buffer before') fresh
    · rcases known second with ⟨rfl, rfl⟩ | before'
      · exact absurd (same ▸ mem_ledger_of_buffer before) fresh
      · exact holds.exclusive j k a b before before' same
  · rw [outputs, List.length_append, List.length_singleton] at past
    rw [quiet, List.append_nil]
    exact holds.unmade j (by omega)
  · rw [quiet, List.append_nil]
    rcases at_ j q present with before | ⟨rfl, rfl⟩
    · exact holds.segments j q before
    · rw [segments, holds.unmade _ (Nat.le_refl _)]
      exact .add_empty

theorem Holds.step (holds : s.Holds memory written) (sound : s.Sound memory)
    (run : s.step bond action = some t) : t.Holds memory fun j => written j ++ action.writesTo j := by
  cases sound.step_cases run with
  | pool quiet outputs same =>
    exact holds.same quiet (fun j o found => by rwa [outputAt, outputs] at found) (congrArg List.length outputs) same
  | dropped quiet found outputs same =>
    refine holds.same quiet (fun j o present => ?_) (by rw [outputs, List.length_set]) same
    rw [outputAt_of_set found outputs] at present
    split at present
    · cases present
    · exact present
  | called quiet found outputs same called segments => exact holds.called quiet found outputs same called segments
  | acted quiet found todo held outputs fills => exact holds.acted sound quiet found todo held outputs fills
  | made quiet outputs slot todo recorded segments held fresh empty handles parts =>
    exact holds.made sound quiet outputs slot todo recorded segments held fresh empty handles parts

/-- The bytes of an output are those written to it. -/
theorem Holds.bytes {actions : List (Action memory)} (holds : s.Holds memory fun j => writesTo j actions)
    (copyable : ∀ op ∈ writesTo i actions, op.Copyable memory) (found : s.outputAt i = some o) :
    o.segments.flatten = (writesTo i actions).flatMap WriteOp.bytes := by
  rw [(holds.segments i o found).1, WriteOp.pieces_flatMap writesTo_formed copyable]

structure Continues (s t : System) (o p : Output) (item : Item) : Prop where
  slot : p.slot = o.slot
  before : s.pool.handleAt (o.slot + 1) = some (.buffer (some item))
  after : t.pool.handleAt (p.slot + 1) = some (.buffer (some item))
  grown : (s.pool.heap.bufferAt item.data).map view <+: (t.pool.heap.bufferAt item.data).map view

theorem Continues.trans {u : System} {q : Output} {item other : Item} (first : Continues s u o q item)
    (second : Continues u t q p other) : Continues s t o p item := by
  cases first.after.symm.trans second.before
  exact ⟨second.slot.trans first.slot, first.before, second.after, first.grown.trans second.grown⟩

theorem Sound.continues (sound : s.Sound memory) (run : s.step bond action = some t) (inside : i < s.outputs.length)
    (alive : t.outputAt i = some p) : ∃ o item, s.outputAt i = some o ∧ Continues s t o p item := by
  obtain ⟨item, held⟩ := ((sound.step run).outputs i p alive).pair.buffer
  cases sound.step_cases run with
  | pool quiet outputs same =>
    rw [outputAt, outputs] at alive
    refine ⟨p, item, alive, rfl, same.handles _ _ held, held, ?_⟩
    rw [same.parts _ (mem_ledger_of_buffer held)]
  | dropped quiet found outputs same =>
    rw [outputAt_of_set found outputs] at alive
    split at alive
    · cases alive
    · refine ⟨p, item, alive, rfl, same.handles _ _ held, held, ?_⟩
      rw [same.parts _ (mem_ledger_of_buffer held)]
  | @called j o q quiet found outputs same called segments =>
    rw [same] at held
    have grown : (s.pool.heap.bufferAt item.data).map view <+: (t.pool.heap.bufferAt item.data).map view := by rw [same]
    rw [outputAt_of_set found outputs] at alive
    split at alive
    · next here =>
      cases alive
      exact ⟨o, item, here ▸ found, called.slot, called.slot ▸ held, same ▸ held, grown⟩
    · exact ⟨p, item, alive, rfl, held, same ▸ held, grown⟩
  | @acted j o effect rest other quiet found todo own outputs fills =>
    have grown : (s.pool.heap.bufferAt item.data).map view <+: (t.pool.heap.bufferAt item.data).map view := by
      by_cases same : item.data = other.data
      · rw [same, fills.filled]
        exact List.prefix_append _ _
      · rw [fills.others _ same]
    rw [outputAt_of_set found outputs] at alive
    split at alive
    · next here =>
      cases alive
      exact ⟨o, item, here ▸ found, rfl, fills.handles _ _ held, held, grown⟩
    · exact ⟨p, item, alive, rfl, fills.handles _ _ held, held, grown⟩
  | made quiet outputs slot todo recorded segments own fresh empty handles parts =>
    rw [outputAt, outputs, List.getElem?_append_left inside] at alive
    have before : s.pool.handleAt (p.slot + 1) = some (.buffer (some item)) := by
      rcases handles _ _ held with new | before
      · have := (sound.outputs i p alive).pair.lt
        omega
      · exact before
    exact ⟨p, item, alive, rfl, before, held, by rw [parts]⟩

/-- A buffer that no output fills any more. -/
structure Finished (s : System) (d : Nat) (blobs : List ConstBlob) : Prop where
  parts : (s.pool.heap.bufferAt d).map view = blobs
  closed : ∀ i o item, s.outputAt i = some o → s.pool.handleAt (o.slot + 1) = some (.buffer (some item)) →
    item.data = d → o.moved = true ∧ o.todo = []

theorem Finished.step {d : Nat} {blobs : List ConstBlob} (finished : s.Finished d blobs) (sound : s.Sound memory)
    (before : .buffer d ∈ s.pool.ledger) (after : .buffer d ∈ t.pool.ledger) {action : Action memory}
    (run : s.step bond action = some t) : t.Finished d blobs := by
  cases sound.step_cases run with
  | pool quiet outputs same =>
    refine ⟨by rw [same.parts d after]; exact finished.parts, fun i o item found held data => ?_⟩
    rw [outputAt, outputs] at found
    exact finished.closed i o item found (same.handles _ _ held) data
  | @dropped i o quiet found outputs same =>
    refine ⟨by rw [same.parts d after]; exact finished.parts, fun j p item present held data => ?_⟩
    rw [outputAt_of_set found outputs] at present
    split at present
    · cases present
    · exact finished.closed j p item present (same.handles _ _ held) data
  | @called i o p quiet found outputs same called segments =>
    refine ⟨by rw [same]; exact finished.parts, fun j q item present held data => ?_⟩
    rw [same] at held
    rw [outputAt_of_set found outputs] at present
    split at present
    · cases present
      -- an output whose buffer has been taken is not called
      have moved := (finished.closed i o item found (called.slot ▸ held) data).1
      rw [called.unmoved] at moved
      cases moved
    · exact finished.closed j q item present held data
  | @acted i o effect rest item quiet found todo held outputs fills =>
    have apart : d ≠ item.data := by
      rintro rfl
      have none := (finished.closed i o item found held rfl).2
      rw [todo] at none
      cases none
    refine ⟨by rw [fills.others d apart]; exact finished.parts, fun j q other present there data => ?_⟩
    have there := fills.handles _ _ there
    rw [outputAt_of_set found outputs] at present
    split at present
    · cases present
      cases held.symm.trans there
      exact absurd data.symm apart
    · exact finished.closed j q other present there data
  | @made o item quiet outputs slot todo recorded segments held fresh empty handles parts =>
    refine ⟨by rw [parts]; exact finished.parts, fun j q other present there data => ?_⟩
    rw [outputAt, outputs, List.getElem?_append] at present
    split at present
    · rcases handles _ _ there with new | there
      · have := (sound.outputs j q present).pair.lt
        omega
      · exact finished.closed j q other present there data
    · rw [List.getElem?_singleton] at present
      split at present
      · cases present
        cases held.symm.trans there
        rw [data] at fresh
        exact absurd before fresh
      · cases present

theorem Sound.run (sound : s.Sound memory) {allowed : System → Action memory → Prop}
    (run : Run (fun u (action : Action memory) => u.step bond action) (· = s) allowed t) : t.Sound memory :=
  run.invariant (fun _ same => same ▸ sound) fun _ _ _ sound _ taken => sound.step taken

theorem mem_ledger_of_shown {d : Nat} (shown : s.pool.Shown d) : .buffer d ∈ s.pool.ledger := by
  obtain ⟨j, item, held, rfl⟩ := shown
  exact State.mem_ledger_of_handleAt held (by simp [Handle.refs, itemRefs])

theorem Finished.run {d : Nat} {blobs : List ConstBlob} (finished : s.Finished d blobs) (sound : s.Sound memory)
    (run : Run (fun u (action : Action memory) => u.step bond action) (· = s) (fun u _ => u.pool.Shown d) t)
    (kept : t.pool.Shown d) : t.Finished d blobs := by
  induction run with
  | initial start => exact start ▸ finished
  | step run shown taken ih =>
    exact (ih shown).step (sound.run run) (mem_ledger_of_shown shown) (mem_ledger_of_shown kept) taken

/-- The buffer of an output that is done is finished. -/
theorem Holds.finished {actions : List (Action memory)} (holds : s.Holds memory fun j => writesTo j actions)
    (sound : s.Sound memory) (found : s.outputAt i = some o) (idle : o.todo = []) (moved : o.moved = true) {item : Item}
    (own : s.pool.handleAt (o.slot + 1) = some (.buffer (some item))) : s.Finished item.data o.state.buffer := by
  have views := holds.buffers i o item found own
  rw [idle, show pushed [] = [] from rfl, List.append_nil] at views
  refine ⟨views, fun k p other present held same => ?_⟩
  have slots := holds.exclusive _ _ _ _ held own same
  cases sound.apart k i p o present found (Nat.succ.inj slots)
  cases found.symm.trans present
  exact ⟨moved, idle⟩

def replacing : List (Action everywhere) :=
  .destroyOutput 0 :: [1, 1, 1, 2, 2, 2, 3, 3, 3].map (fun thread => .client (.runThread thread)) ++
    [.make (answers 0 3) 2 0, .act 1 0, .act 1 0,
      .call 1 (answers 0 4) ⟨.value [9], value_wellFormed (Nat.le_succ 1)⟩ [], .act 1 0]

def keeping (s : System) (_ : Action everywhere) : Bool := s.pool.handleAt 3 = some (.constBuffer (some ⟨0, 0⟩))

def replaced (s : System) : Option System :=
  replacing.foldlM (guarded (fun s action => s.step sevenBitCodec action) keeping) s

end System

end IpcBond.Pool
