import IpcBond.OutputOwnership

/-! What is published does not change: whatever the outputs write, and whatever is recycled, the
bytes behind a `ConstBlob` stay as they were when it was made. -/

namespace IpcBond.Pool
open Library.StateExcept Relation OutputBuffer

theorem Part.range_isSome {part : Part} {blob : ConstBlob} (valid : blob.Valid) (item : part.view.item = blob.item) :
    (part.range blob).isSome := by
  obtain ⟨_, beginAt, endAt⟩ := blob
  cases item
  simp [Part.range, Part.slice, Part.view, valid]

namespace Output

variable {memory : SharedMemory} {o : Output} {s t : State}

structure Good (memory : SharedMemory) (o : Output) (s : State) : Prop where
  ready : o.moved = false → o.state.Ready memory
  current : ∃ phase last, s.Follows o.slot phase ∧ o.todo.foldlM Phase.next phase = some last ∧
    (o.moved = false → last = ⟨o.state.blob, false⟩)
  shares : ∀ blob, .push .pushShared blob ∈ o.todo → ∃ part ∈ o.arguments, (part.range blob).isSome

theorem Good.of_spares (good : o.Good memory s) (spares : s.Spares t o.slot) : o.Good memory t := by
  obtain ⟨phase, last, follows, todo, finished⟩ := good.current
  exact ⟨good.ready, ⟨phase, last, follows.of_spares spares, todo, finished⟩, good.shares⟩

theorem Good.pair (good : o.Good memory s) : s.Pair o.slot := by
  obtain ⟨_, _, follows, _⟩ := good.current
  exact follows.pair

theorem Good.idle (good : o.Good memory s) (done : o.todo = []) (unmoved : o.moved = false) :
    s.Follows o.slot ⟨o.state.blob, false⟩ := by
  obtain ⟨phase, last, follows, todo, finished⟩ := good.current
  rw [done] at todo
  cases todo
  rwa [finished unmoved] at follows

theorem Good.call {pool : BufferPool} {bond : BondCodec} (good : o.Good pool.memory s) (done : o.todo = [])
    (unmoved : o.moved = false) {op : WriteOp} (formed : op.WellFormed) {arguments : List Part}
    (covered : ∀ blob ∈ op.sources, blob.item.isSome → ∃ part ∈ arguments, part.view = blob) {state : OutputBuffer}
    (run : op.run pool bond o.state = .ok () state) :
    Good pool.memory { o with
      state := state
      todo := state.effects.drop o.state.effects.length
      arguments := arguments } s := by
  have ready := good.ready unmoved
  have ready' := (ready.op_appends formed state run).ready
  obtain ⟨effects, appended, shared⟩ := WriteOp.records pool bond formed _ _ _ run
  have todo : state.effects.drop o.state.effects.length = effects := by rw [appended, List.drop_left]
  refine ⟨fun _ => ready', ⟨_, _, good.idle done unmoved, ?_, fun _ => rfl⟩, fun blob member => ?_⟩
  · rw [todo, ← phase_append effects ready.disciplined appended]
    exact ready'.disciplined
  · obtain ⟨valid, some_, source, given, item⟩ := shared blob (todo ▸ member)
    obtain ⟨part, argument, same⟩ := covered source given (by rw [item]; exact some_)
    exact ⟨part, argument, Part.range_isSome valid (by rw [same, item])⟩

theorem Good.finish {pool : BufferPool} (good : o.Good pool.memory s) (done : o.todo = []) (unmoved : o.moved = false)
    {state : OutputBuffer} {buffer : ConstBuffer} (run : getBufferMoved pool o.state = .ok buffer state) :
    Good pool.memory { o with
      state := state
      todo := state.effects.drop o.state.effects.length
      arguments := []
      moved := true } s := by
  have ready := good.ready unmoved
  obtain ⟨_, merged, step, rest⟩ := bind_ok.1 run
  cases rest
  obtain ⟨effects, appended, shared⟩ : Recorded (fun _ => False) o.state state := merge_records pool _ _ _ step
  have todo : state.effects.drop o.state.effects.length = effects := by rw [appended, List.drop_left]
  obtain ⟨last, finished⟩ : ∃ last, state.phase = some last := by
    rw [ready.merge_run] at step
    split at step
    · cases step
      exact ⟨_, ready.disciplined⟩
    · split at step
      · cases step
        exact ⟨_, ready.merged_phase⟩
      · cases step
  refine ⟨nofun, ⟨_, last, good.idle done unmoved, ?_, nofun⟩, fun blob member => ?_⟩
  · rw [todo, ← phase_append effects ready.disciplined appended]
    exact finished
  · exact (shared blob (todo ▸ member)).elim

theorem Good.act (owned : Owned s.heap s.ledger) (faithful : Faithful s.books) (good : o.Good memory s)
    {effect : Effect} {rest : List Effect} (todo : o.todo = effect :: rest) {popped : Nat}
    (possible : o.Possible s popped effect) :
    ∃ t, o.act s popped effect = some t ∧ Owned t.heap t.ledger ∧ Faithful t.books ∧ Untouched s.books t.books ∧
      Good memory { o with todo := rest } t ∧ ∀ slot, slot ≠ o.slot → s.Pair slot → s.Spares t slot := by
  obtain ⟨phase, last, follows, fold, finished⟩ := good.current
  rw [todo] at fold
  obtain ⟨next, discipline, later⟩ := Option.bind_eq_some_iff.1 fold
  obtain ⟨t, run, acted⟩ := act_spec owned faithful follows discipline possible fun blob same =>
    good.shares blob (by rw [todo, same]; exact List.mem_cons_self)
  exact ⟨t, run, acted.owned, acted.faithful, acted.untouched, ⟨good.ready, ⟨next, last, acted.follows, later, finished⟩,
    fun blob member => good.shares blob (by rw [todo]; exact List.mem_cons_of_mem _ member)⟩, acted.spares⟩

end Output

namespace System

variable {memory : SharedMemory} {bond : BondCodec} {s t : System} {i j : Nat} {o : Output}

theorem lt_of_outputAt (found : s.outputAt i = some o) : i < s.outputs.length :=
  (List.getElem?_eq_some_iff.1 (Option.join_eq_some_iff.1 found)).1

theorem outputAt_set (found : s.outputAt i = some o) (new : Option Output) (j : Nat) :
    ((s.outputs.set i new)[j]?).join = if j = i then new else s.outputAt j := by
  rw [List.getElem?_set]
  split
  · next same => rw [if_pos (lt_of_outputAt found), if_pos same.symm]; rfl
  · next other => rw [if_neg (Ne.symm other)]; rfl

/-- In every state: the pool is owned, nothing undefined has happened, every `ConstBlob` finds
what it found at first, and the outputs own their current blobs. -/
structure Sound (memory : SharedMemory) (s : System) : Prop where
  owned : Owned s.pool.heap s.pool.ledger
  defined : s.undefined = false
  faithful : Faithful s.pool.books
  outputs : ∀ i o, s.outputAt i = some o → o.Good memory s.pool
  apart : ∀ i j o p, s.outputAt i = some o → s.outputAt j = some p → o.slot = p.slot → i = j

namespace Sound

variable (sound : s.Sound memory)
include sound

theorem of_spares {pool : State} (owned : Owned pool.heap pool.ledger) (faithful : Faithful pool.books)
    (spares : ∀ slot, s.pool.Pair slot → s.pool.Spares pool slot) : Sound memory { s with pool := pool } :=
  ⟨owned, sound.defined, faithful,
    fun i o found => (sound.outputs i o found).of_spares (spares _ (sound.outputs i o found).pair), sound.apart⟩

theorem setOutput (found : s.outputAt i = some o) {pool : State} (owned : Owned pool.heap pool.ledger)
    (faithful : Faithful pool.books) {new : Option Output}
    (good : ∀ p, new = some p → p.slot = o.slot ∧ p.Good memory pool)
    (spares : ∀ slot, slot ≠ o.slot → s.pool.Pair slot → s.pool.Spares pool slot) :
    Sound memory { s.setOutput i new with pool := pool } := by
  have at_ : ∀ j, outputAt { s.setOutput i new with pool := pool } j = if j = i then new else s.outputAt j :=
    outputAt_set found new
  have origin : ∀ j p, outputAt { s.setOutput i new with pool := pool } j = some p →
      ∃ old, s.outputAt j = some old ∧ old.slot = p.slot := by
    intro j p present
    rw [at_] at present
    split at present
    · next same => exact ⟨o, by rw [same, found], (good p present).1.symm⟩
    · exact ⟨p, present, rfl⟩
  refine ⟨owned, sound.defined, faithful, fun j p present => ?_, fun j k p q first second same => ?_⟩
  · rw [at_] at present
    split at present
    · exact (good p present).2
    · next other =>
      have before := sound.outputs j p present
      exact before.of_spares (spares _ (fun same => other (sound.apart j i p o present found same)) before.pair)
  · obtain ⟨p', before, slot⟩ := origin j p first
    obtain ⟨q', before', slot'⟩ := origin k q second
    exact sound.apart j k p' q' before before' (by rw [slot, slot', same])

theorem make {pool : BufferPool} (same : pool.memory = memory) {minBlobSize popped : Nat}
    (run : s.make pool minBlobSize popped = some t) : t.Sound memory := by
  subst same
  unfold System.make at run
  split at run
  · cases run
  · next state made =>
    obtain ⟨u, taken, same⟩ := Option.bind_eq_some_iff.1 run
    cases same
    obtain ⟨⟨item, v⟩, took, same⟩ := Option.bind_eq_some_iff.1 taken
    cases same
    let prior := s.pool.addHandle (.null .blob)
    have quiet := State.construct_quiet (s := s.pool) .blob
    have owned : Owned prior.heap prior.ledger := quiet.moves.owned sound.owned
    have faithful : Faithful prior.books := (quiet.keeps sound.owned).faithful sound.faithful
    obtain ⟨owned', faithful', _, handles, spares, _⟩ :=
      State.take_keeps owned faithful (.buffer (some item)) took (Or.inr rfl) rfl rfl
    have blobAt : prior.handleAt s.pool.handles.length = some (.blob none) := by
      rw [State.handleAt_addHandle, if_pos rfl]
      rfl
    have length : prior.handles.length = s.pool.handles.length + 1 := List.length_append
    have handleAt : ∀ j, (v.addHandle (.buffer (some item))).handleAt j =
        if j = prior.handles.length then some (.buffer (some item)) else prior.handleAt j := by
      intro j
      rw [← State.handleAt_addHandle, State.handleAt, handles]
      rfl
    have spared : ∀ slot, s.pool.Pair slot → s.pool.Spares (v.addHandle (.buffer (some item))) slot := by
      intro slot pair
      have := pair.lt
      have first : s.pool.Spares prior slot := by
        refine State.spares_of_quiet sound.owned quiet ?_ ?_ fun j other elsewhere found => ⟨j, elsewhere, ?_⟩
        · rw [State.handleAt_addHandle, if_neg (by omega)]
        · rw [State.handleAt_addHandle, if_neg (by omega)]
        · rw [State.handleAt_addHandle] at found
          split at found
          · cases found
          · exact found
      exact first.trans (spares slot (pair.of_spares first))
    obtain ⟨ready, _⟩ := make_spec made
    obtain ⟨effects, appended, shared⟩ : Recorded (fun _ => False) (members minBlobSize) state :=
      make_records pool _ _ _ made
    have current : Output.Good pool.memory ⟨state, s.pool.handles.length, state.effects, [], false⟩
        (v.addHandle (.buffer (some item))) := by
      refine ⟨fun _ => ready, ⟨Phase.start, _, ⟨⟨⟨none, ?_⟩, item, ?_⟩, ?_⟩, ready.disciplined, fun _ => rfl⟩,
        fun blob member => ?_⟩
      · rw [handleAt, if_neg (show s.pool.handles.length ≠ prior.handles.length by omega), blobAt]
      · rw [handleAt, if_pos length.symm]
      · intro kept
        cases kept
      · rw [appended] at member
        exact (shared blob member).elim
    have outputAt : ∀ j p, System.outputAt ⟨v.addHandle (.buffer (some item)), s.outputs ++
        [some ⟨state, s.pool.handles.length, state.effects, [], false⟩], s.undefined⟩ j = some p →
        s.outputAt j = some p ∨ j = s.outputs.length ∧ p = ⟨state, s.pool.handles.length, state.effects, [], false⟩ := by
      intro j p present
      simp only [System.outputAt, List.getElem?_append] at present
      split at present
      · exact Or.inl present
      · next past =>
        rw [List.getElem?_singleton] at present
        split at present
        · next last => exact Or.inr ⟨by omega, by simpa using present.symm⟩
        · cases present
    have old : ∀ j p, s.outputAt j = some p → p.slot ≠ s.pool.handles.length := by
      intro j p present
      have := (sound.outputs j p present).pair.lt
      omega
    refine ⟨owned', sound.defined, faithful', fun j p present => ?_, fun j k p q first second same => ?_⟩
    · rcases outputAt j p present with before | ⟨_, rfl⟩
      · exact (sound.outputs j p before).of_spares (spared _ (sound.outputs j p before).pair)
      · exact current
    · rcases outputAt j p first with before | ⟨here, rfl⟩
      · rcases outputAt k q second with before' | ⟨_, rfl⟩
        · exact sound.apart j k p q before before' same
        · exact absurd same (old j p before)
      · rcases outputAt k q second with before' | ⟨there, _⟩
        · exact absurd same.symm (old k q before')
        · omega

theorem call {pool : BufferPool} (same : pool.memory = memory) {op : WriteOp} (formed : op.WellFormed)
    {arguments : List Part} (run : s.call bond i pool op arguments = some t) : t.Sound memory := by
  subst same
  obtain ⟨o, found, run⟩ := Option.bind_eq_some_iff.1 run
  split at run
  · next allowed =>
    obtain ⟨done, unmoved, _, covered⟩ := allowed
    split at run
    · cases run
    · next state wrote =>
      cases run
      refine sound.setOutput found sound.owned sound.faithful ?_ fun slot _ _ => ⟨rfl, rfl, fun _ _ own => own⟩
      rintro p ⟨⟩
      exact ⟨rfl, (sound.outputs i o found).call done unmoved formed covered wrote⟩
  · cases run

theorem finish {pool : BufferPool} (same : pool.memory = memory) (run : s.finish i pool = some t) :
    t.Sound memory := by
  subst same
  obtain ⟨o, found, run⟩ := Option.bind_eq_some_iff.1 run
  split at run
  · next allowed =>
    split at run
    · cases run
    · next buffer state merged =>
      cases run
      refine sound.setOutput found sound.owned sound.faithful ?_ fun slot _ _ => ⟨rfl, rfl, fun _ _ own => own⟩
      rintro p ⟨⟩
      exact ⟨rfl, (sound.outputs i o found).finish allowed.1 allowed.2 merged⟩
  · cases run

theorem act {popped : Nat} (run : s.act i popped = some t) : t.Sound memory := by
  obtain ⟨o, found, run⟩ := Option.bind_eq_some_iff.1 run
  split at run
  · cases run
  · next effect rest todo =>
    split at run
    · next possible =>
      obtain ⟨u, acted, owned, faithful, _, good, spares⟩ :=
        (sound.outputs i o found).act sound.owned sound.faithful todo possible
      rw [acted] at run
      cases run
      refine sound.setOutput found owned faithful ?_ spares
      rintro p ⟨⟩
      exact ⟨rfl, good⟩
    · cases run

theorem destroyOutput (run : s.destroyOutput i = some t) : t.Sound memory := by
  obtain ⟨o, found, run⟩ := Option.bind_eq_some_iff.1 run
  split at run
  · obtain ⟨u, first, run⟩ := Option.bind_eq_some_iff.1 run
    obtain ⟨v, second, same⟩ := Option.bind_eq_some_iff.1 run
    cases same
    have quiet : QuietMoves s.pool.books v.books := (State.destroy_quiet first).trans (State.destroy_quiet second)
    have handleAt : ∀ j, v.handleAt j = if j = o.slot then none else if j = o.slot + 1 then none else s.pool.handleAt j :=
      fun j => by rw [State.handleAt_destroy second, State.handleAt_destroy first]
    obtain ⟨⟨_, blob⟩, _, buffer⟩ := (sound.outputs i o found).pair
    refine sound.setOutput found (quiet.moves.owned sound.owned) ((quiet.keeps sound.owned).faithful sound.faithful)
      nofun fun slot different pair => ?_
    obtain ⟨⟨_, blob'⟩, _, buffer'⟩ := pair
    have apart : slot ≠ o.slot + 1 := by
      rintro rfl
      rw [buffer] at blob'
      cases blob'
    have apart' : slot + 1 ≠ o.slot := by
      rintro same
      rw [same, blob] at buffer'
      cases buffer'
    refine State.spares_of_quiet sound.owned quiet (by rw [handleAt, if_neg different, if_neg apart])
      (by rw [handleAt, if_neg apart', if_neg (by omega)]) fun j item elsewhere present => ⟨j, elsewhere, ?_⟩
    rw [handleAt] at present
    split at present
    · cases present
    · split at present
      · cases present
      · exact present
  · cases run

theorem destroyPool (run : s.destroyPool = some t) : t.Sound memory := by
  unfold System.destroyPool at run
  split at run
  · obtain ⟨u, gone, same⟩ := Option.bind_eq_some_iff.1 run
    cases same
    have quiet := State.destroyPool_quiet gone
    obtain ⟨q, _, same⟩ := Option.bind_eq_some_iff.1 gone
    cases same
    exact sound.of_spares (quiet.moves.owned sound.owned) ((quiet.keeps sound.owned).faithful sound.faithful)
      fun slot _ => State.spares_of_quiet sound.owned quiet rfl rfl fun j item elsewhere found => ⟨j, elsewhere, found⟩
  · cases run

theorem client {op : Op} (run : s.client op = some t) : t.Sound memory := by
  unfold System.client at run
  split at run
  · next client =>
    obtain ⟨u, stepped, same⟩ := Option.bind_eq_some_iff.1 run
    cases same
    obtain ⟨quiet, writers⟩ := State.client_spec sound.owned client stepped
    refine sound.of_spares (quiet.moves.owned sound.owned) ((quiet.keeps sound.owned).faithful sound.faithful)
      fun slot pair => ?_
    obtain ⟨⟨_, blob⟩, _, buffer⟩ := pair
    exact State.spares_of_quiet sound.owned quiet (((writers _ _ rfl).2 blob).trans blob.symm)
      (((writers _ _ rfl).2 buffer).trans buffer.symm) fun j item elsewhere found =>
        ⟨j, elsewhere, (writers _ _ rfl).1 found⟩
  · cases run

theorem step {action : Action memory} (run : s.step bond action = some t) : t.Sound memory := by
  cases action with
  | make pool minBlobSize popped => exact sound.make pool.property run
  | call i pool op arguments => exact sound.call pool.property op.property run
  | finish i pool => exact sound.finish pool.property run
  | act i popped => exact sound.act run
  | destroyOutput i => exact sound.destroyOutput run
  | destroyPool => exact sound.destroyPool run
  | client op => exact sound.client run

/-- A step leaves the vector of every item that a `ConstBlob` refers to afterwards. -/
theorem step_untouched {action : Action memory} (run : s.step bond action = some t) :
    Untouched s.pool.books t.pool.books := by
  cases action with
  | make pool minBlobSize popped =>
    simp only [System.step, System.make] at run
    split at run
    · cases run
    · obtain ⟨u, taken, same⟩ := Option.bind_eq_some_iff.1 run
      cases same
      obtain ⟨⟨item, v⟩, took, same⟩ := Option.bind_eq_some_iff.1 taken
      cases same
      have quiet := State.construct_quiet (s := s.pool) .blob
      exact fun part _ => (State.take_spec (quiet.moves.owned sound.owned) took).2.2.1 part.item.data
  | call i pool op arguments =>
    obtain ⟨o, found, run⟩ := Option.bind_eq_some_iff.1 run
    split at run
    · split at run
      · cases run
      · cases run
        exact .refl _
    · cases run
  | finish i pool =>
    obtain ⟨o, found, run⟩ := Option.bind_eq_some_iff.1 run
    split at run
    · split at run
      · cases run
      · cases run
        exact .refl _
    · cases run
  | act i popped =>
    obtain ⟨o, found, run⟩ := Option.bind_eq_some_iff.1 run
    split at run
    · cases run
    · next effect rest todo =>
      split at run
      · next possible =>
        obtain ⟨u, acted, _, _, untouched, _⟩ := (sound.outputs i o found).act sound.owned sound.faithful todo possible
        rw [acted] at run
        cases run
        exact untouched
      · cases run
  | destroyOutput i =>
    obtain ⟨o, found, run⟩ := Option.bind_eq_some_iff.1 run
    split at run
    · obtain ⟨u, first, run⟩ := Option.bind_eq_some_iff.1 run
      obtain ⟨v, second, same⟩ := Option.bind_eq_some_iff.1 run
      cases same
      have quiet : QuietMoves s.pool.books v.books := (State.destroy_quiet first).trans (State.destroy_quiet second)
      exact (quiet.keeps sound.owned).untouched
    · cases run
  | destroyPool =>
    simp only [System.step, System.destroyPool] at run
    split at run
    · obtain ⟨u, gone, same⟩ := Option.bind_eq_some_iff.1 run
      cases same
      exact ((State.destroyPool_quiet gone).keeps sound.owned).untouched
    · cases run
  | client op =>
    simp only [System.step, System.client] at run
    split at run
    · next client =>
      obtain ⟨u, stepped, same⟩ := Option.bind_eq_some_iff.1 run
      cases same
      exact ((State.client_spec sound.owned client stepped).1.keeps sound.owned).untouched
    · cases run

end Sound

theorem initial_sound : System.initial.Sound memory := by
  have quiet := State.createPool_quiet (s := .initial)
  have none : ∀ i, System.initial.outputAt i = none := fun i => by
    rw [System.outputAt, System.initial, List.getElem?_nil, Option.join_none]
  refine ⟨quiet.moves.owned initial_owned, rfl, (quiet.keeps initial_owned).faithful fun part member => ?_,
    fun i o present => ?_, fun i j o p present => ?_⟩
  · exact absurd member (Multiset.notMem_zero _)
  · rw [none i] at present
    cases present
  · rw [none i] at present
    cases present

theorem Sound.steps (sound : s.Sound memory) {actions : List (Action memory)} (run : s.steps bond actions = some t) :
    t.Sound memory := by
  induction actions generalizing s with
  | nil =>
    cases run
    exact sound
  | cons action rest ih =>
    obtain ⟨u, first, later⟩ := Option.bind_eq_some_iff.1 run
    exact ih (sound.step first) later

/-- `part` lives in every state of a run. -/
def LivesThrough (bond : BondCodec) (part : Part) : System → List (Action memory) → Prop
  | s, [] => s.pool.Lives part
  | s, action :: rest => s.pool.Lives part ∧ ∀ t ∈ s.step bond action, LivesThrough bond part t rest

instance decidableLivesThrough (bond : BondCodec) (part : Part) :
    ∀ (s : System) (actions : List (Action memory)), Decidable (LivesThrough bond part s actions)
  | s, [] => inferInstanceAs (Decidable (s.pool.Lives part))
  | s, action :: rest =>
    have : DecidablePred fun t => LivesThrough bond part t rest := fun t => decidableLivesThrough bond part t rest
    inferInstanceAs (Decidable (_ ∧ ∀ t ∈ s.step bond action, LivesThrough bond part t rest))

theorem LivesThrough.start {part : Part} {actions : List (Action memory)} (through : LivesThrough bond part s actions) :
    s.pool.Lives part := by
  cases actions with
  | nil => exact through
  | cons action rest => exact through.1

/-- As long as a `ConstBlob` lives, the vector of its item stays the same. -/
theorem Sound.steps_untouched (sound : s.Sound memory) {part : Part} {actions : List (Action memory)}
    (through : LivesThrough bond part s actions) (run : s.steps bond actions = some t) :
    t.pool.heap.blobAt part.item.data = s.pool.heap.blobAt part.item.data := by
  induction actions generalizing s with
  | nil =>
    cases run
    rfl
  | cons action rest ih =>
    obtain ⟨u, first, later⟩ := Option.bind_eq_some_iff.1 run
    have through' := through.2 u first
    have member := State.mem_ledger_of_lives through'.start (.part part) (by simp [partRefs])
    exact (ih (sound.step first) through' later).trans (sound.step_untouched first part member)

/-- Published bytes are immutable: nothing undefined happens, what a `ConstBlob` points to is in
use, and it reads the same bytes at any two times of its life. No step changes the vector of an item that has
one: it is not written, resized, cleared or given other memory. -/
theorem published_immutable (bond : BondCodec) {before after : List (Action memory)}
    (reached : System.initial.steps bond before = some s) (later : s.steps bond after = some t) :
    t.undefined = false ∧
      (∀ part, t.pool.Lives part →
        t.pool.heap.uses (.data part.item.data) ≠ 0 ∧ part.read t.pool.heap = part.view.bytes ∧
          (s.pool.Lives part → part.read t.pool.heap = part.read s.pool.heap)) ∧
      (∀ part, LivesThrough bond part s after →
        t.pool.heap.blobAt part.item.data = s.pool.heap.blobAt part.item.data) ∧
      ∀ (action : Action memory) u part, t.step bond action = some u → u.pool.Lives part →
        u.pool.heap.blobAt part.item.data = t.pool.heap.blobAt part.item.data := by
  have sound : s.Sound memory := initial_sound.steps reached
  have sound' := sound.steps later
  have listed : ∀ {u : System} {part}, u.pool.Lives part → .part part ∈ u.pool.ledger := fun lives =>
    State.mem_ledger_of_lives lives _ (by simp [partRefs])
  refine ⟨sound'.defined, fun part lives => ?_, fun part through => sound.steps_untouched through later,
    fun action u part run lives => sound'.step_untouched run part (listed lives)⟩
  have read := sound'.faithful.read (listed lives)
  refine ⟨sound'.owned.uses_ne_zero (listed lives), read, fun lives' => ?_⟩
  rw [read, sound.faithful.read (listed lives')]

def everywhere : SharedMemory where
  contains p := p.base.isSome
  not_contains_null := rfl
  contains_data _ _ _ := rfl

def answers (capacity : Fin 1024) (first : Nat) : PoolOver everywhere :=
  ⟨numberedPool everywhere capacity first fun _ _ => rfl, rfl⟩

theorem value_wellFormed {bytes : List Byte} (few : bytes.length ≤ 2) : (WriteOp.value bytes).WellFormed :=
  Nat.lt_of_le_of_lt few (by decide)

def publishing : List (Action everywhere) :=
  [.make (answers 0 1) 2 0, .act 0 0, .act 0 0,
    .call 0 (answers 0 2) ⟨.value [1, 2], value_wellFormed (Nat.le_refl 2)⟩ [], .act 0 0, .act 0 0, .call 0 (answers 0 2) ⟨.flush, trivial⟩ [], .act 0 0, .act 0 0, .act 0 0, .act 0 0,
    .client (.element 1 0)]

def published : Part := ⟨⟨1, 0⟩, [1, 2], 0, 2, by decide⟩

theorem published_wellFormed : (WriteOp.buffer ⟨some [published.view]⟩).WellFormed := by
  intro blob member
  cases List.mem_singleton.1 member
  exact published.valid

def sharing : List (Action everywhere) :=
  [.make (answers 0 4) 2 0, .act 1 0, .act 1 0,
    .call 1 (answers 0 4) ⟨.buffer ⟨some [published.view]⟩, published_wellFormed⟩ [published],
    .act 1 0, .client (.destroy 4), .destroyOutput 0] ++
  [1, 1, 1, 2, 2, 3, 3, 3, 6, 6, 6, 7, 7, 7, 7, 7, 7, 8, 8, 8].map (fun thread => .client (.runThread thread)) ++
  [.make (answers 2 2) 2 0, .act 2 0, .act 2 0,
    .call 2 (answers 2 2) ⟨.value [7], value_wellFormed (Nat.le_succ 1)⟩ [], .act 2 0]

theorem published_immutable_recycled :
    ∃ s t, initial.steps sevenBitCodec publishing = some s ∧ s.steps sevenBitCodec sharing = some t ∧
      s.pool.Lives published ∧ t.pool.Lives published ∧ published.read s.pool.heap = [1, 2] ∧
      published.read t.pool.heap = [1, 2] ∧ t.pool.heap.blobAt 1 = s.pool.heap.blobAt 1 := by
  obtain ⟨s, reached, lives, bytes⟩ : ∃ s, initial.steps sevenBitCodec publishing = some s ∧
      s.pool.Lives published ∧ published.read s.pool.heap = [1, 2] := by
    have run : (initial.steps sevenBitCodec publishing).any fun s =>
        decide (s.pool.Lives published ∧ published.read s.pool.heap = [1, 2]) := by decide +kernel
    obtain ⟨s, reached, both⟩ := (Option.any_eq_true _ _).1 run
    exact ⟨s, reached, of_decide_eq_true both⟩
  obtain ⟨t, later, lives'⟩ : ∃ t, s.steps sevenBitCodec sharing = some t ∧ t.pool.Lives published := by
    have run : ((initial.steps sevenBitCodec publishing).bind fun s => s.steps sevenBitCodec sharing).any fun t =>
        decide (t.pool.Lives published) := by decide +kernel
    rw [reached] at run
    obtain ⟨t, later, both⟩ := (Option.any_eq_true _ _).1 run
    exact ⟨t, later, of_decide_eq_true both⟩
  have through : LivesThrough sevenBitCodec published s sharing := by
    have run : (initial.steps sevenBitCodec publishing).any fun s =>
        decide (LivesThrough sevenBitCodec published s sharing) := by decide +kernel
    rw [reached] at run
    exact of_decide_eq_true run
  obtain ⟨_, unchanged, untouched, _⟩ := published_immutable sevenBitCodec reached later
  exact ⟨s, t, reached, later, lives, lives', bytes, ((unchanged published lives').2.2 lives).trans bytes,
    untouched published through⟩

end System

end IpcBond.Pool
