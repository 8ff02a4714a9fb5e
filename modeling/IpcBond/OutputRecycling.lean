import IpcBond.Publication
import IpcBond.Recycling

/-! The `OutputBuffer`s lose no item. An output assigns over its blob, which returns nothing to the queue, but it does
so only once its buffer keeps the item as well. -/

namespace IpcBond.Pool
open Library.RefCount Library.StateExcept Library.Machine Relation OutputBuffer

theorem Heap.bufferAt_le_pushBack {heap : Heap} {d e : Nat} (live : heap.uses (.data d) ≠ 0) (part : Option Part) :
    heap.bufferAt e <+: (heap.pushBack d part).bufferAt e := by
  rw [bufferAt_pushBack live]
  split
  · next same =>
    rw [same]
    exact List.prefix_append _ _
  · exact List.prefix_refl _

theorem Quiet.bufferAt {before after : Books} (quiet : Quiet before after) (owned : Owned before.1 before.2) {d : Nat}
    (found : .buffer d ∈ after.2) : .buffer d ∈ before.2 ∧ before.1.bufferAt d <+: after.1.bufferAt d := by
  cases quiet with
  | @acquire heap ledger old new source alias_ copies =>
    refine ⟨?_, by rw [Heap.acquire, Heap.bufferAt_setUses]⟩
    rcases Multiset.mem_cons.1 found with same | before
    · rw [alias_.of_buffer same]
      exact source
    · exact before
  | newData heap ledger => exact ⟨by simpa using found, by rw [Heap.bufferAt_newData]⟩
  | newQueue heap ledger => exact ⟨by simpa using found, List.prefix_refl _⟩
  | @recycle heap ledger e ref node unique =>
    have before : .buffer d ∈ ledger := by simpa using found
    have apart := owned.alone rfl (by rwa [node]) before
    refine ⟨Multiset.mem_cons_of_mem before, ?_⟩
    rw [Heap.bufferAt_clear, if_neg]
    rintro rfl
    exact apart node.symm
  | loosen node => exact ⟨Multiset.mem_cons_of_mem (by simpa using found), List.prefix_refl _⟩
  | release shared =>
    exact ⟨Multiset.mem_cons_of_mem found, by rw [Heap.release, Heap.bufferAt_setUses]⟩
  | @freeData heap ledger e last =>
    have apart := owned.alone rfl last found
    refine ⟨Multiset.mem_cons_of_mem found, ?_⟩
    rw [Heap.bufferAt_clear, if_neg, Heap.release, Heap.bufferAt_setUses]
    rintro rfl
    exact apart rfl
  | freeQueue last =>
    exact ⟨Multiset.mem_cons_of_mem found, by rw [Heap.bufferAt_setItems, Heap.release, Heap.bufferAt_setUses]⟩
  | setItems live f => exact ⟨found, by rw [Heap.bufferAt_setItems]⟩
  | pushBack buffered part => exact ⟨found, Heap.bufferAt_le_pushBack (owned.uses_ne_zero buffered) part⟩

theorem QuietMoves.bufferAt {before after : Books} (moves : QuietMoves before after) (owned : Owned before.1 before.2)
    {d : Nat} (found : .buffer d ∈ after.2) : .buffer d ∈ before.2 ∧ before.1.bufferAt d <+: after.1.bufferAt d := by
  induction moves with
  | refl => exact ⟨found, List.prefix_refl _⟩
  | tail front last ih =>
    obtain ⟨there, longer⟩ := last.bufferAt ((QuietMoves.moves front).owned owned) found
    obtain ⟨there', longer'⟩ := ih there
    exact ⟨there', longer'.trans longer⟩

namespace State

variable {s t : State} {slot : Nat}

/-- The item of the blob in `slot` is also that of a part in the buffer beside it. -/
def HandedOn (s : State) (slot : Nat) : Prop :=
  ∀ item, s.handleAt slot = some (.blob (some item)) → ∃ buffer part,
    s.handleAt (slot + 1) = some (.buffer (some buffer)) ∧ some part ∈ s.heap.bufferAt buffer.data ∧ part.item = item

structure Grows (s t : State) (slot : Nat) : Prop where
  blob : t.handleAt slot = s.handleAt slot
  buffer : t.handleAt (slot + 1) = s.handleAt (slot + 1)
  parts : ∀ d, .buffer d ∈ t.ledger → s.heap.bufferAt d <+: t.heap.bufferAt d

theorem HandedOn.grows (handed : s.HandedOn slot) (grows : Grows s t slot) : t.HandedOn slot := by
  intro item found
  rw [grows.blob] at found
  obtain ⟨buffer, part, beside, stored, same⟩ := handed item found
  have there : t.handleAt (slot + 1) = some (.buffer (some buffer)) := grows.buffer.trans beside
  have member : .buffer buffer.data ∈ t.ledger := mem_ledger_of_handleAt there (by simp [Handle.refs, itemRefs])
  exact ⟨buffer, part, there, (grows.parts _ member).subset stored, same⟩

theorem HandedOn.keepers (handed : s.HandedOn slot) {item : Item} (found : s.handleAt slot = some (.blob (some item))) :
    2 ≤ keepers s.ledger item.data := by
  obtain ⟨buffer, part, _, stored, rfl⟩ := handed item found
  have first : .blob part.item.data ∈ s.ledger := mem_ledger_of_handleAt found (by simp [Handle.refs, itemRefs])
  have second : .part part ∈ s.ledger := mem_ledger_of_bufferAt stored (by simp [partRefs])
  obtain ⟨rest, split⟩ := Multiset.exists_cons_of_mem first
  rw [split, Multiset.mem_cons] at second
  have more : 0 < Pool.keepers rest part.item.data :=
    keepers_pos.2 ⟨_, second.resolve_left (by simp), rfl⟩
  rw [split, keepers_cons, Ref.keeps, if_pos rfl]
  omega

theorem HandedOn.spares (handed : s.HandedOn slot) (blob : ∃ item, s.handleAt slot = some (.blob item)) (source : Nat) :
    s.spares (.assign slot source) := by
  cases lets : s.letsGo (.assign slot source) with
  | none => rw [State.spares, lets, Option.all_none]
  | some item =>
    rcases letsGo_cases lets with ⟨target, _, old, _, same, there, _, held, _⟩ | ⟨_, _, _, same, _⟩
    · cases same
      obtain ⟨kept, found⟩ := blob
      rw [found] at there
      cases there
      have two := handed.keepers (found.trans (congrArg (some ∘ Handle.blob) held))
      simpa [State.spares, lets] using two
    · cases same

theorem pushPart_cases (owned : Owned s.heap s.ledger) {buffer : Nat} {part : Option Part}
    (copied : Moves s.books (s.heap.acquireItem (part.map Part.item), partRefs part + s.ledger))
    (run : s.pushPart buffer part = some t) :
    ∃ item, s.handleAt buffer = some (.buffer (some item)) ∧
      (s.heap.acquireItem (part.map Part.item)).uses (.data item.data) ≠ 0 ∧
      t = { s with heap := (s.heap.acquireItem (part.map Part.item)).pushBack item.data part } := by
  unfold pushPart at run
  split at run
  · next item there =>
    cases run
    have buffered : .buffer item.data ∈ partRefs part + s.ledger :=
      Multiset.mem_add.2 (Or.inr (mem_ledger_of_handleAt there (by simp [Handle.refs, itemRefs])))
    exact ⟨item, there, (copied.owned owned).uses_ne_zero buffered, rfl⟩
  · cases run

theorem pushPart_grows (owned : Owned s.heap s.ledger) {buffer : Nat} {part : Option Part}
    (copied : Moves s.books (s.heap.acquireItem (part.map Part.item), partRefs part + s.ledger))
    (run : s.pushPart buffer part = some t) (d : Nat) : s.heap.bufferAt d <+: t.heap.bufferAt d := by
  obtain ⟨item, _, live, rfl⟩ := pushPart_cases owned copied run
  have longer := Heap.bufferAt_le_pushBack (e := d) live part
  rwa [Heap.bufferAt_acquireItem] at longer

theorem push_handedOn (owned : Owned s.heap s.ledger) (run : s.push (slot + 1) slot = some t) : t.HandedOn slot := by
  obtain ⟨part, source, run⟩ := Option.bind_eq_some_iff.1 run
  obtain ⟨buffer, beside, live, rfl⟩ := pushPart_cases owned (constBlob_moves source) run
  intro item found
  have found : s.handleAt slot = some (.blob (some item)) := found
  rw [constBlob, found] at source
  cases source
  refine ⟨buffer, .whole item (s.heap.blobAt item.data), beside, ?_, rfl⟩
  rw [Heap.bufferAt_pushBack live, if_pos rfl]
  exact List.mem_append_right _ (List.mem_singleton_self _)

end State

section AtHome

variable {s t : State} {q : Nat}

theorem State.Shares.pools (shares : Shares s t) : t.pools = s.pools := by
  obtain ⟨handle, rfl, _⟩ := shares
  rfl

theorem State.pushPart_pools {buffer : Nat} {part : Option Part} (run : s.pushPart buffer part = some t) :
    t.pools = s.pools := by
  unfold pushPart at run
  split at run
  · cases run
    rfl
  · cases run

theorem step_pools (owned : Owned s.heap s.ledger) {op : Op} (run : step s op = some t) (different : op ≠ .createPool)
    (found : some q ∈ t.pools) : some q ∈ s.pools := by
  cases op with
  | createPool => exact absurd rfl different
  | destroyPool p =>
    obtain ⟨r, _, same⟩ := Option.bind_eq_some_iff.1 run
    cases same
    rcases List.mem_or_eq_of_mem_set found with before | new
    · exact before
    · cases new
  | takeBlob p popped =>
    obtain ⟨⟨item, u⟩, taken, same⟩ := Option.bind_eq_some_iff.1 run
    cases same
    rwa [State.addHandle, (State.take_quiet owned taken).2] at found
  | takeBuffer p popped =>
    obtain ⟨⟨item, u⟩, taken, same⟩ := Option.bind_eq_some_iff.1 run
    cases same
    rwa [State.addHandle, (State.take_quiet owned taken).2] at found
  | construct kind =>
    cases run
    exact found
  | toConstBlob i => rwa [(State.toConstBlob_shares run).pools] at found
  | toConstBuffer i => rwa [(State.toConstBuffer_shares run).pools] at found
  | getRange i offset count => rwa [(State.getRange_shares run).pools] at found
  | element i index => rwa [(State.element_shares run).pools] at found
  | copy i => rwa [(State.copy_shares run).pools] at found
  | assign target source =>
    obtain ⟨old, _, run⟩ := Option.bind_eq_some_iff.1 run
    obtain ⟨handle, _, run⟩ := Option.bind_eq_some_iff.1 run
    split at run
    · cases run
      exact found
    · cases run
  | push buffer blob =>
    obtain ⟨part, _, run⟩ := Option.bind_eq_some_iff.1 run
    rwa [State.pushPart_pools run] at found
  | write i vector =>
    change s.write i vector = some t at run
    unfold State.write at run
    split at run
    · cases run
      exact found
    · cases run
  | destroy i =>
    obtain ⟨handle, _, same⟩ := Option.bind_eq_some_iff.1 run
    cases same
    exact found
  | runThread i => rwa [(State.runs_outside ⟨i, run⟩).2] at found

structure AtHome (s : State) : Prop where
  homed : Trace.Homed ⟨s, List.replicate s.heap.data.length 0⟩
  single : ∀ q, some q ∈ s.pools → q = 0

theorem AtHome.step (home : AtHome s) (op : Op) (spares : s.spares op) (run : Pool.step s op = some t)
    (different : op ≠ .createPool) : AtHome t := by
  have stepped := home.homed.step spares (show Trace.step ⟨s, _⟩ op = some ⟨t, _⟩ by rw [Trace.step, run]; rfl)
  have all : List.replicate s.heap.data.length 0 ++ s.created op = List.replicate t.heap.data.length 0 := by
    rw [List.eq_replicate_iff, List.length_append, List.length_replicate]
    refine ⟨(step_brings run).data.symm, fun q member => ?_⟩
    rcases List.mem_append.1 member with before | new
    · exact List.eq_of_mem_replicate before
    · exact home.single q (State.created_new run new).1
  exact ⟨all ▸ stepped, fun q found => home.single q (step_pools home.homed.owned run different found)⟩

theorem AtHome.pushPart (home : AtHome s) {buffer : Nat} {part : Part} (has : s.Has part.item)
    (copied : Moves s.books (s.heap.acquireItem (some part.item), partRefs (some part) + s.ledger))
    (run : s.pushPart buffer (some part) = some t) : AtHome t := by
  obtain ⟨moves, _, ledger, _⟩ := State.pushPart_spec home.homed.owned (some part) copied run
  have brings := State.pushPart_brings run (by rintro item ⟨⟩; exact has)
  have moved := home.homed.moved moves brings (by simp) fun d q _ _ kept => by
    rw [ledger, keepers_add]
    exact Nat.lt_of_lt_of_le kept (Nat.le_add_left _ _)
  rw [List.append_nil] at moved
  refine ⟨?_, fun q found => home.single q (State.pushPart_pools run ▸ found)⟩
  rw [show t.heap.data.length = s.heap.data.length from brings.data]
  exact moved

end AtHome

def awaitsTake : List Effect → Bool
  | [] => false
  | .take _ :: _ => true
  | .push .pushMerged _ :: _ => false
  | _ :: rest => awaitsTake rest

theorem not_awaits {todo : List Effect} {phase last : Phase} (current : phase.handedOn = false)
    (follows : todo.foldlM Phase.next phase = some last) : awaitsTake todo = false := by
  induction todo generalizing phase with
  | nil => rfl
  | cons effect rest ih =>
    obtain ⟨next, discipline, later⟩ := Option.bind_eq_some_iff.1 follows
    cases effect with
    | resize vector =>
      simp only [Phase.next, current] at discipline
      cases discipline
      exact ih rfl later
    | store ptr bytes =>
      simp only [Phase.next] at discipline
      split at discipline
      · cases discipline
        exact ih rfl later
      · cases discipline
    | take blob =>
      simp only [Phase.next, current] at discipline
      cases discipline
    | push allocation blob =>
      cases allocation with
      | pushMerged => rfl
      | pushShared =>
        cases discipline
        exact ih current later
      | _ => cases discipline

theorem not_awaits_recorded {memory : SharedMemory} {allowed : ConstBlob → Prop} {before after : OutputBuffer}
    {phase : Phase} (ready : before.Ready memory) (recorded : Recorded allowed before after)
    (last : after.phase = some phase) : awaitsTake (after.effects.drop before.effects.length) = false := by
  obtain ⟨effects, appended, _⟩ := recorded
  rw [appended, List.drop_left]
  rw [phase_append effects ready.disciplined appended] at last
  exact not_awaits rfl last

namespace Output

variable {memory : SharedMemory} {o : Output} {s t : State}

structure Recycles (s t : State) (slot : Nat) (rest : List Effect) : Prop where
  home : AtHome t
  parts : ∀ d, .buffer d ∈ t.ledger → s.heap.bufferAt d <+: t.heap.bufferAt d
  handed : awaitsTake rest → t.HandedOn slot

variable {phase next last : Phase} {rest : List Effect} {popped : Nat}

theorem resize_recycles (home : AtHome s) {vector : ByteVector} (settled : awaitsTake rest = false)
    (run : s.write o.slot vector = some t) : Recycles s t o.slot rest := by
  refine ⟨home.step (.write o.slot vector) rfl run (by simp), fun d _ => ?_, by simp [settled]⟩
  unfold State.write at run
  split at run
  · cases run
    rw [Heap.bufferAt_setBlob]
  · cases run

/-- A blob is taken in the place of one that the buffer keeps. -/
theorem take_recycles (home : AtHome s) (pair : s.Pair o.slot) (handed : s.HandedOn o.slot) {blob : Blob}
    (settled : awaitsTake rest = false) (run : o.act s popped (.take blob) = some t) : Recycles s t o.slot rest := by
  obtain ⟨⟨item, u⟩, taken, run⟩ := Option.bind_eq_some_iff.1 run
  obtain ⟨v, assigned, destroyed⟩ := Option.bind_eq_some_iff.1 run
  let w := u.addHandle (.blob (some item))
  have buffers : ∀ d, w.heap.bufferAt d = s.heap.bufferAt d := (State.take_spec home.homed.owned taken).2.2.2
  have first : AtHome w := home.step (.takeBlob 0 popped) rfl
    (show s.takeBlob 0 popped = some w by rw [State.takeBlob, taken]; rfl) (by simp)
  have handles : u.handles = s.handles := by rw [(State.take_quiet home.homed.owned taken).2]
  have handleAt : ∀ j, j < s.handles.length → w.handleAt j = s.handleAt j := by
    intro j inside
    rw [State.handleAt_addHandle, if_neg (by rw [handles]; omega), State.handleAt, State.handleAt, handles]
  have kept : w.HandedOn o.slot :=
    handed.grows ⟨handleAt _ pair.lt.1, handleAt _ pair.lt.2, fun d _ => by rw [buffers]⟩
  have there : ∃ item, w.handleAt o.slot = some (.blob item) := by
    obtain ⟨old, found⟩ := pair.blob
    exact ⟨old, (handleAt _ pair.lt.1).trans found⟩
  have second : AtHome v := first.step _ (kept.spares there _) assigned (by simp)
  have quiet := (State.assign_quiet assigned).trans (State.destroy_quiet destroyed)
  refine ⟨second.step (.destroy u.handles.length) rfl destroyed (by simp), fun d found => ?_, by simp [settled]⟩
  have longer := (QuietMoves.bufferAt quiet first.homed.owned found).2
  rwa [show Heap.bufferAt _ d = s.heap.bufferAt d from buffers d] at longer

theorem pushMerged_recycles (home : AtHome s) (run : s.push (o.slot + 1) o.slot = some t) :
    Recycles s t o.slot rest := by
  have handed := State.push_handedOn home.homed.owned run
  refine ⟨home.step (.push (o.slot + 1) o.slot) rfl run (by simp), fun d _ => ?_, fun _ => handed⟩
  obtain ⟨part, source, pushed⟩ := Option.bind_eq_some_iff.1 run
  exact State.pushPart_grows home.homed.owned (State.constBlob_moves source) pushed d

theorem pushShared_recycles (home : AtHome s) {blob : ConstBlob} {range : Part}
    (lives : ∀ part ∈ o.arguments, s.Lives part) (first : o.arguments.findSome? (·.range blob) = some range)
    (handed : awaitsTake rest → s.HandedOn o.slot) (run : s.pushPart (o.slot + 1) (some range) = some t) :
    Recycles s t o.slot rest := by
  obtain ⟨_, part, alive, item, _, copied⟩ := range_spec lives first
  have moves := QuietMoves.moves (acquireItem_quiet (partRefs_pointers (some range)) copied)
  have has : s.Has range.item := by
    rw [item]
    rcases alive with held | ⟨cell, found, stored⟩
    · exact .handle held rfl
    · obtain ⟨e, present⟩ := List.mem_iff_getElem?.1 found
      exact .stored (d := e) (by rwa [Heap.bufferAt, lookup_of_some _ _ present])
  have parts := State.pushPart_grows home.homed.owned moves run
  obtain ⟨_, handles, _⟩ := State.pushPart_spec home.homed.owned (some range) moves run
  have handleAt : ∀ j, t.handleAt j = s.handleAt j := fun j => by rw [State.handleAt, State.handleAt, handles]
  exact ⟨home.pushPart has moves run, fun d _ => parts d, fun awaits =>
    (handed awaits).grows ⟨handleAt _, handleAt _, fun d _ => parts d⟩⟩

/-- An effect of an output loses no item. -/
theorem act_recycles (home : AtHome s) (follows : s.Follows o.slot phase) {effect : Effect}
    (discipline : phase.next effect = some next) (later : rest.foldlM Phase.next next = some last)
    (possible : o.Possible s popped effect) (handed : awaitsTake (effect :: rest) → s.HandedOn o.slot)
    (run : o.act s popped effect = some t) : Recycles s t o.slot rest := by
  cases effect with
  | resize vector =>
    simp only [Phase.next] at discipline
    split at discipline
    · cases discipline
    · cases discipline
      exact resize_recycles home (not_awaits rfl later) run
  | store ptr bytes =>
    simp only [Phase.next] at discipline
    split at discipline
    · next allowed =>
      cases discipline
      obtain ⟨d, data, own⟩ := follows.own (by simpa using allowed.1)
      obtain ⟨item, found, rfl⟩ := own.held
      -- the bytes go to the blob in the slot
      obtain ⟨e, base, run⟩ := Option.bind_eq_some_iff.1 run
      rw [allowed.2.1, data] at base
      cases base
      simp only at run
      split at run
      · cases run
        let vector := (s.heap.blobAt item.data).store ptr.offset bytes
        have written : s.write o.slot vector = some { s with heap := s.heap.setBlob item.data vector } := by
          simp only [State.write, found]
        exact resize_recycles home (not_awaits rfl later) written
      · cases run
    · cases discipline
  | take blob =>
    simp only [Phase.next] at discipline
    split at discipline
    · cases discipline
      exact take_recycles home follows.pair (handed rfl) (not_awaits rfl later) run
    · cases discipline
  | push allocation blob =>
    cases allocation with
    | pushMerged => exact pushMerged_recycles home run
    | pushShared =>
      cases discipline
      obtain ⟨range, first, run⟩ := Option.bind_eq_some_iff.1 run
      exact pushShared_recycles home possible first handed run
    | _ => cases discipline

end Output

theorem State.Pair.apart {s : State} {slot other : Nat} (pair : s.Pair slot) (pair' : s.Pair other) :
    slot ≠ other + 1 ∧ slot + 1 ≠ other := by
  obtain ⟨⟨_, blob⟩, _, buffer⟩ := pair
  obtain ⟨⟨_, blob'⟩, _, buffer'⟩ := pair'
  constructor
  · rintro rfl
    rw [buffer'] at blob
    cases blob
  · rintro rfl
    rw [buffer] at blob'
    cases blob'

namespace System

variable {memory : SharedMemory} {bond : BondCodec} {s t : System} {i j : Nat} {o : Output}

/-- In every state besides: the items are at home, and where an output replaces its blob next, it has handed it on. -/
structure Lossless (memory : SharedMemory) (s : System) : Prop where
  sound : s.Sound memory
  home : AtHome s.pool
  handed : ∀ i o, s.outputAt i = some o → awaitsTake o.todo → s.pool.HandedOn o.slot

/-- Clients spare the items that they let go of. -/
def careful (s : System) : Action memory → Bool
  | .client op => s.pool.spares op
  | _ => true

namespace Lossless

variable (lossless : s.Lossless memory)
include lossless

theorem pair (found : s.outputAt i = some o) : s.pool.Pair o.slot := (lossless.sound.outputs i o found).pair

theorem of_grows {pool : State} (sound : Sound memory { s with pool := pool }) (home : AtHome pool)
    (grows : ∀ slot, s.pool.Pair slot → s.pool.Grows pool slot) : Lossless memory { s with pool := pool } :=
  ⟨sound, home, fun i o found awaits => (lossless.handed i o found awaits).grows (grows _ (lossless.pair found))⟩

theorem setOutput (found : s.outputAt i = some o) {pool : State} {new : Option Output}
    (sound : Sound memory { s.setOutput i new with pool := pool }) (home : AtHome pool)
    (handed : ∀ p, new = some p → awaitsTake p.todo → pool.HandedOn p.slot)
    (grows : ∀ slot, slot ≠ o.slot → s.pool.Pair slot → s.pool.Grows pool slot) :
    Lossless memory { s.setOutput i new with pool := pool } := by
  refine ⟨sound, home, fun j p present awaits => ?_⟩
  rw [show outputAt { s.setOutput i new with pool := pool } j = _ from outputAt_set found new j] at present
  split at present
  · exact handed p present awaits
  · next other =>
    have different : p.slot ≠ o.slot := fun same => other (lossless.sound.apart j i p o present found same)
    exact (lossless.handed j p present awaits).grows (grows _ different (lossless.pair present))

theorem call {pool : BufferPool} (same : pool.memory = memory) {op : WriteOp} (formed : op.WellFormed)
    {arguments : List Part} (run : s.call bond i pool op arguments = some t) : t.Lossless memory := by
  have sound := lossless.sound.call same formed run
  subst same
  obtain ⟨o, found, run⟩ := Option.bind_eq_some_iff.1 run
  split at run
  · next allowed =>
    split at run
    · cases run
    · next state wrote =>
      cases run
      have ready := (lossless.sound.outputs i o found).ready allowed.2.1
      have settled := not_awaits_recorded ready (WriteOp.records pool bond formed _ _ _ wrote)
        (ready.op_appends formed state wrote).ready.disciplined
      refine lossless.setOutput found sound lossless.home ?_ fun slot _ _ => ⟨rfl, rfl, fun d _ => List.prefix_refl _⟩
      rintro p ⟨⟩ awaits
      rw [settled] at awaits
      cases awaits
  · cases run

theorem finish {pool : BufferPool} (same : pool.memory = memory) (run : s.finish i pool = some t) :
    t.Lossless memory := by
  have sound := lossless.sound.finish same run
  subst same
  obtain ⟨o, found, run⟩ := Option.bind_eq_some_iff.1 run
  split at run
  · next allowed =>
    split at run
    · cases run
    · next buffer state merged =>
      cases run
      have ready := (lossless.sound.outputs i o found).ready allowed.2
      obtain ⟨_, after, step, rest⟩ := bind_ok.1 merged
      cases rest
      have settled : awaitsTake (state.effects.drop o.state.effects.length) = false := by
        rw [ready.merge_run] at step
        split at step
        · cases step
          rw [List.drop_length]
          rfl
        · split at step
          · cases step
            simp [OutputBuffer.merged, OutputBuffer.trimmed, awaitsTake]
          · cases step
      refine lossless.setOutput found sound lossless.home ?_ fun slot _ _ => ⟨rfl, rfl, fun d _ => List.prefix_refl _⟩
      rintro p ⟨⟩ awaits
      rw [settled] at awaits
      cases awaits
  · cases run

theorem act {popped : Nat} (run : s.act i popped = some t) : t.Lossless memory := by
  have sound := lossless.sound.act run
  obtain ⟨o, found, run⟩ := Option.bind_eq_some_iff.1 run
  split at run
  · cases run
  · next effect rest todo =>
    split at run
    · next possible =>
      have good := lossless.sound.outputs i o found
      obtain ⟨u, acted, _, _, _, _, spares⟩ := good.act lossless.sound.owned lossless.sound.faithful todo possible
      rw [acted] at run
      cases run
      obtain ⟨phase, last, follows, fold, _⟩ := good.current
      rw [todo] at fold
      obtain ⟨next, discipline, later⟩ := Option.bind_eq_some_iff.1 fold
      have recycles := Output.act_recycles lossless.home follows discipline later possible
        (fun awaits => lossless.handed i o found (todo ▸ awaits)) acted
      refine lossless.setOutput found sound recycles.home ?_ fun slot different pair =>
        ⟨(spares slot different pair).blob, (spares slot different pair).buffer, recycles.parts⟩
      rintro p ⟨⟩ awaits
      exact recycles.handed awaits
    · cases run

theorem make {pool : BufferPool} (same : pool.memory = memory) {minBlobSize popped : Nat}
    (run : s.make pool minBlobSize popped = some t) : t.Lossless memory := by
  have sound := lossless.sound.make same run
  unfold System.make at run
  split at run
  · cases run
  · next state made =>
    obtain ⟨v, taken, same⟩ := Option.bind_eq_some_iff.1 run
    cases same
    obtain ⟨⟨item, w⟩, took, same⟩ := Option.bind_eq_some_iff.1 taken
    cases same
    let prior := s.pool.addHandle (.null .blob)
    have first : AtHome prior := lossless.home.step (.construct .blob) rfl rfl (by simp)
    have home := first.step (.takeBuffer 0 popped) rfl taken (by simp)
    have handles : w.handles = prior.handles := by rw [(State.take_quiet first.homed.owned took).2]
    have length : prior.handles.length = s.pool.handles.length + 1 := List.length_append
    have handleAt : ∀ j, j < prior.handles.length →
        (w.addHandle (.buffer (some item))).handleAt j = prior.handleAt j := by
      intro j inside
      rw [State.handleAt_addHandle, if_neg (by rw [handles]; omega), State.handleAt, State.handleAt, handles]
    have old : ∀ j, j < s.pool.handles.length →
        (w.addHandle (.buffer (some item))).handleAt j = s.pool.handleAt j := by
      intro j inside
      rw [handleAt j (by omega), State.handleAt_addHandle, if_neg (by omega)]
    have buffers : ∀ d, w.heap.bufferAt d = s.pool.heap.bufferAt d := (State.take_spec first.homed.owned took).2.2.2
    refine ⟨sound, home, fun j p present awaits => ?_⟩
    simp only [System.outputAt, List.getElem?_append] at present
    split at present
    · have pair := lossless.pair present
      exact (lossless.handed j p present awaits).grows ⟨old _ pair.lt.1, old _ pair.lt.2, fun d _ =>
        show s.pool.heap.bufferAt d <+: w.heap.bufferAt d by rw [buffers]⟩
    · rw [List.getElem?_singleton] at present
      split at present
      · -- the blob is null until the body of the constructor runs
        cases present
        intro other found
        have null : (w.addHandle (.buffer (some item))).handleAt s.pool.handles.length = some (.null .blob) := by
          rw [handleAt _ (by omega), State.handleAt_addHandle, if_pos rfl]
        cases null.symm.trans found
      · cases present

theorem destroyOutput (run : s.destroyOutput i = some t) : t.Lossless memory := by
  have sound := lossless.sound.destroyOutput run
  obtain ⟨o, found, run⟩ := Option.bind_eq_some_iff.1 run
  split at run
  · obtain ⟨u, first, run⟩ := Option.bind_eq_some_iff.1 run
    obtain ⟨v, second, same⟩ := Option.bind_eq_some_iff.1 run
    cases same
    have quiet : QuietMoves s.pool.books v.books := (State.destroy_quiet first).trans (State.destroy_quiet second)
    have between : AtHome u := lossless.home.step (.destroy (o.slot + 1)) rfl first (by simp)
    have home : AtHome v := between.step (.destroy o.slot) rfl second (by simp)
    refine lossless.setOutput found sound home nofun fun slot different pair => ?_
    obtain ⟨apart, apart'⟩ := pair.apart (lossless.pair found)
    refine ⟨?_, ?_, fun d member => (quiet.bufferAt lossless.sound.owned member).2⟩
    · rw [State.handleAt_destroy second, if_neg different, State.handleAt_destroy first, if_neg apart]
    · rw [State.handleAt_destroy second, if_neg apart', State.handleAt_destroy first, if_neg (by omega)]
  · cases run

theorem destroyPool (run : s.destroyPool = some t) : t.Lossless memory := by
  have sound := lossless.sound.destroyPool run
  unfold System.destroyPool at run
  split at run
  · obtain ⟨u, gone, same⟩ := Option.bind_eq_some_iff.1 run
    cases same
    have home : AtHome u := lossless.home.step (.destroyPool 0) rfl gone (by simp)
    have quiet := State.destroyPool_quiet gone
    obtain ⟨q, _, same⟩ := Option.bind_eq_some_iff.1 gone
    cases same
    exact lossless.of_grows sound home fun slot _ =>
      ⟨rfl, rfl, fun d member => (quiet.bufferAt lossless.sound.owned member).2⟩
  · cases run

theorem client {op : Op} (spares : s.pool.spares op) (run : s.client op = some t) : t.Lossless memory := by
  have sound := lossless.sound.client run
  unfold System.client at run
  split at run
  · next client =>
    obtain ⟨u, stepped, same⟩ := Option.bind_eq_some_iff.1 run
    cases same
    obtain ⟨quiet, writers⟩ := State.client_spec lossless.sound.owned client stepped
    have home : AtHome u := lossless.home.step op spares stepped (by rintro rfl; cases client)
    refine lossless.of_grows sound home fun slot pair => ?_
    obtain ⟨⟨_, blob⟩, _, buffer⟩ := pair
    exact ⟨((writers _ _ rfl).2 blob).trans blob.symm, ((writers _ _ rfl).2 buffer).trans buffer.symm,
      fun d member => (quiet.bufferAt lossless.sound.owned member).2⟩
  · cases run

theorem step {action : Action memory} (careful : s.careful action) (run : s.step bond action = some t) :
    t.Lossless memory := by
  cases action with
  | make pool minBlobSize popped => exact lossless.make pool.property run
  | call i pool op arguments => exact lossless.call pool.property op.property run
  | finish i pool => exact lossless.finish pool.property run
  | act i popped => exact lossless.act run
  | destroyOutput i => exact lossless.destroyOutput run
  | destroyPool => exact lossless.destroyPool run
  | client op => exact lossless.client careful run

end Lossless

end System

end IpcBond.Pool
