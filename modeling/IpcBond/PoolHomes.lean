import IpcBond.PoolLifetime

/-! Where the items of a pool come from. Whatever refers to an item, a queue that holds it included, names the
queue of the pool that has made it. -/

namespace IpcBond.Pool
open Library.RefCount

def Task.item : Task → Option Item
  | .destroy handle => handle.item
  | .handOver item => some item
  | .releaseQueue _ => none
  | .releaseData _ => none

namespace State

/-- An item that something refers to, with the queue that is named beside it. -/
inductive Has (s : State) : Item → Prop where
  | handle {handle : Handle} {item : Item} (found : some handle ∈ s.handles) (same : handle.item = some item) :
      Has s item
  | stored {d : Nat} {part : Part} (found : some part ∈ s.heap.bufferAt d) : Has s part.item
  | task {thread : List Task} {task : Task} {item : Item} (running : thread ∈ s.threads) (found : task ∈ thread)
      (same : task.item = some item) : Has s item
  | queued {q d : Nat} (found : d ∈ s.heap.itemsAt q) : Has s ⟨d, q⟩

variable {s t : State} {i : Nat} {item : Item}

theorem has_of_handleAt {handle : Handle} (found : s.handleAt i = some handle) (same : handle.item = some item) :
    s.Has item := .handle (List.mem_of_getElem? (handles_of_handleAt found)) same

def makes (s : State) (p popped : Nat) : List Nat :=
  match s.poolAt p with
  | some q => if (s.heap.itemsAt q)[popped]? = none then [q] else []
  | none => []

def created (s : State) : Op → List Nat
  | .takeBlob p popped => s.makes p popped
  | .takeBuffer p popped => s.makes p popped
  | _ => []

end State

namespace Heap

variable (heap : Heap) (n : Node) (d q : Nat)

def sizes : Nat × Nat := (heap.data.length, heap.queues.length)

@[simp] theorem sizes_setUses (f : Nat → Nat) : (heap.setUses f n).sizes = heap.sizes := by
  cases n with
  | data d => simp [sizes, setUses]
  | queue q => simp [sizes, setUses]

@[simp] theorem sizes_setBlob (vector : ByteVector) : (heap.setBlob d vector).sizes = heap.sizes := by
  simp [sizes, setBlob]

@[simp] theorem sizes_pushBack (part : Option Part) : (heap.pushBack d part).sizes = heap.sizes := by
  simp [sizes, pushBack]

@[simp] theorem sizes_clear : (heap.clear d).sizes = heap.sizes := by
  simp [sizes, clear]

@[simp] theorem sizes_setItems (f : List Nat → List Nat) : (heap.setItems q f).sizes = heap.sizes := by
  simp [sizes, setItems]

@[simp] theorem sizes_acquireItem (item : Option Item) : (heap.acquireItem item).sizes = heap.sizes := by
  cases item with
  | none => rfl
  | some item => simp [acquireItem, acquire]

@[simp] theorem bufferAt_acquireItem (item : Option Item) : (heap.acquireItem item).bufferAt d = heap.bufferAt d := by
  cases item with
  | none => rfl
  | some item => simp [acquireItem, acquire]

@[simp] theorem itemsAt_acquireItem (item : Option Item) : (heap.acquireItem item).itemsAt q = heap.itemsAt q := by
  cases item with
  | none => rfl
  | some item => simp [acquireItem, acquire]

theorem itemsAt_setItems_cases (heap : Heap) (q p : Nat) (f : List Nat → List Nat) :
    (heap.setItems q f).itemsAt p = heap.itemsAt p ∨ p = q ∧ (heap.setItems q f).itemsAt p = f (heap.itemsAt p) := by
  by_cases same : q = p
  · subst same
    cases found : heap.queues[q]? with
    | none =>
      rw [setItems, List.modify_eq_self (List.getElem?_eq_none_iff.1 found)]
      exact Or.inl rfl
    | some cell =>
      refine Or.inr ⟨rfl, ?_⟩
      rw [itemsAt, setItems, lookup_modify _ _ found, if_pos rfl, itemsAt, lookup_of_some _ _ found]
  · exact Or.inl (itemsAt_setItems_ne same f)

theorem mem_bufferAt_pushBack {heap : Heap} {d e : Nat} {part new : Option Part}
    (found : part ∈ (heap.pushBack d new).bufferAt e) : part ∈ heap.bufferAt e ∨ part = new := by
  cases cell : heap.data[d]? with
  | none =>
    rw [pushBack, List.modify_eq_self (List.getElem?_eq_none_iff.1 cell)] at found
    exact Or.inl found
  | some data =>
    rw [bufferAt, pushBack, lookup_modify _ _ cell] at found
    split at found
    · next same =>
      rw [bufferAt, ← same, lookup_of_some _ _ cell]
      exact (List.mem_append.1 found).imp id List.mem_singleton.1
    · exact Or.inl found

theorem sizes_run {heap heap' : Heap} {task : Task} {tasks : List Task} (run : heap.run task = (heap', tasks)) :
    heap'.sizes = heap.sizes := by
  cases ran run <;> simp [release]

theorem run_items {heap heap' : Heap} {task : Task} {tasks : List Task} (run : heap.run task = (heap', tasks)) :
    (∀ d part, part ∈ heap'.bufferAt d → part ∈ heap.bufferAt d) ∧
      (∀ q d, d ∈ heap'.itemsAt q → d ∈ heap.itemsAt q ∨ task.item = some ⟨d, q⟩) ∧
      ∀ next ∈ tasks, ∀ item, next.item = some item →
        task.item = some item ∨ ∃ d part, some part ∈ heap.bufferAt d ∧ part.item = item := by
  have cleared : ∀ heap : Heap, ∀ d e part, part ∈ (heap.clear d).bufferAt e → part ∈ heap.bufferAt e := by
    intro heap d e part member
    rw [bufferAt_clear] at member
    split at member
    · cases member
    · exact member
  have destroyed : ∀ d, ∀ next ∈ (heap.bufferAt d).map (fun part => Task.destroy (.constBlob part)), ∀ item,
      next.item = some item → ∃ d part, some part ∈ heap.bufferAt d ∧ part.item = item := by
    intro d next member item same
    obtain ⟨part, found, rfl⟩ := List.mem_map.1 member
    obtain ⟨part, rfl, rfl⟩ := Option.map_eq_some_iff.1 (show part.map Part.item = some item from same)
    exact ⟨d, part, found, rfl⟩
  cases ran run with
  | null => exact ⟨fun _ _ => id, fun _ _ => Or.inl, by simp⟩
  | recycle same unique =>
    refine ⟨cleared heap _, fun _ _ found => Or.inl (by rwa [itemsAt_clear] at found), fun next member item known => ?_⟩
    rcases List.mem_append.1 member with stored | last
    · exact Or.inr (destroyed _ next stored item known)
    · rw [List.mem_singleton.1 last] at known
      exact Or.inl (same.trans known)
  | letGo same shared =>
    refine ⟨fun _ _ => id, fun _ _ => Or.inl, fun next member item known => ?_⟩
    simp only [List.mem_cons, List.not_mem_nil, or_false] at member
    rcases member with rfl | rfl <;> cases known
  | handOver item =>
    refine ⟨fun _ _ => id, fun q d found => ?_, fun next member item known => ?_⟩
    · rcases itemsAt_setItems_cases heap item.queue q (· ++ [item.data]) with same | ⟨rfl, same⟩
      · exact Or.inl (by rwa [same] at found)
      · rw [same] at found
        rcases List.mem_append.1 found with before | last
        · exact Or.inl before
        · rw [List.mem_singleton.1 last]
          exact Or.inr rfl
    · cases List.mem_singleton.1 member
      cases known
  | @freeQueue q last =>
    refine ⟨fun d part found => ?_, fun p d found => Or.inl ?_, fun next member item known => ?_⟩
    · rwa [bufferAt_setItems, release, bufferAt_setUses] at found
    · rcases itemsAt_setItems_cases (heap.release (.queue q)) q p (fun _ => []) with same | ⟨_, same⟩
      · rwa [same, release, itemsAt_setUses] at found
      · rw [same] at found
        cases found
    · obtain ⟨d, _, rfl⟩ := List.mem_map.1 member
      cases known
  | dropQueue =>
    exact ⟨fun d part found => by rwa [release, bufferAt_setUses] at found,
      fun p d found => Or.inl (by rwa [release, itemsAt_setUses] at found), by simp⟩
  | @freeData d last =>
    refine ⟨fun e part found => ?_, fun p e found => Or.inl ?_, fun next member item known => ?_⟩
    · have before := cleared _ _ _ _ found
      rwa [release, bufferAt_setUses] at before
    · rwa [itemsAt_clear, release, itemsAt_setUses] at found
    · exact Or.inr (destroyed d next member item known)
  | dropData =>
    exact ⟨fun d part found => by rwa [release, bufferAt_setUses] at found,
      fun p d found => Or.inl (by rwa [release, itemsAt_setUses] at found), by simp⟩

end Heap

namespace State.Has

variable {s t : State} {i : Nat} {item : Item}

theorem setHeap {heap : Heap} (has : { s with heap := heap }.Has item)
    (stored : ∀ d part, some part ∈ heap.bufferAt d → s.Has part.item)
    (queued : ∀ q d, d ∈ heap.itemsAt q → s.Has ⟨d, q⟩) : s.Has item := by
  cases has with
  | handle found same => exact .handle found same
  | stored found => exact stored _ _ found
  | task running found same => exact .task running found same
  | queued found => exact queued _ _ found

theorem sameHeap {heap : Heap} (has : { s with heap := heap }.Has item)
    (buffers : ∀ d, heap.bufferAt d = s.heap.bufferAt d) (items : ∀ q, heap.itemsAt q = s.heap.itemsAt q) :
    s.Has item :=
  has.setHeap (fun d _ found => .stored (buffers d ▸ found)) fun q _ found => .queued (items q ▸ found)

theorem addHandle {handle : Handle} (has : (s.addHandle handle).Has item) : s.Has item ∨ handle.item = some item := by
  cases has with
  | handle found same =>
    rcases List.mem_append.1 found with before | last
    · exact Or.inl (.handle before same)
    · cases List.mem_singleton.1 last
      exact Or.inr same
  | stored found => exact Or.inl (.stored found)
  | task running found same => exact Or.inl (.task running found same)
  | queued found => exact Or.inl (.queued found)

theorem spawn {tasks : List Task} (has : (s.spawn tasks).Has item) :
    s.Has item ∨ ∃ task ∈ tasks, task.item = some item := by
  cases has with
  | handle found same => exact Or.inl (.handle found same)
  | stored found => exact Or.inl (.stored found)
  | task running found same =>
    rcases List.mem_append.1 running with before | last
    · exact Or.inl (.task before found same)
    · cases List.mem_singleton.1 last
      exact Or.inr ⟨_, found, same⟩
  | queued found => exact Or.inl (.queued found)

theorem setHandle {new : Option Handle} (has : { s with handles := s.handles.set i new }.Has item) :
    s.Has item ∨ new.bind Handle.item = some item := by
  cases has with
  | handle found same =>
    rcases List.mem_or_eq_of_mem_set found with before | rfl
    · exact Or.inl (.handle before same)
    · exact Or.inr same
  | stored found => exact Or.inl (.stored found)
  | task running found same => exact Or.inl (.task running found same)
  | queued found => exact Or.inl (.queued found)

theorem share {handle : Handle} (has : (s.share handle).Has item) : s.Has item ∨ handle.item = some item := by
  rcases has.addHandle with before | new
  · exact Or.inl (before.sameHeap (fun d => Heap.bufferAt_acquireItem _ _ _) fun q => Heap.itemsAt_acquireItem _ _ _)
  · exact Or.inr new

theorem shared {handle : Handle} (has : (s.share handle).Has item) (known : ∀ item, handle.item = some item → s.Has item) :
    s.Has item := has.share.elim id (known item)

end State.Has

namespace State

variable {s t : State} {i : Nat}

structure Brings (s t : State) (made : List Nat) : Prop where
  items : ∀ item, t.Has item → s.Has item ∨ item.data = s.heap.data.length ∧ item.queue ∈ made
  data : t.heap.data.length = s.heap.data.length + made.length
  queues : s.heap.queues.length ≤ t.heap.queues.length
  pools : ∀ q, some q ∈ t.pools → some q ∈ s.pools ∨ q = s.heap.queues.length

theorem Brings.kept (items : ∀ item, t.Has item → s.Has item) (sizes : t.heap.sizes = s.heap.sizes)
    (pools : t.pools = s.pools) : Brings s t [] := by
  obtain ⟨data, queues⟩ := Prod.mk.inj sizes
  exact ⟨fun item has => Or.inl (items item has), data, Nat.le_of_eq queues.symm, fun q found => Or.inl (pools ▸ found)⟩

def Shares (s t : State) : Prop := ∃ handle, t = s.share handle ∧ ∀ item, handle.item = some item → s.Has item

theorem Shares.brings (shares : Shares s t) : Brings s t [] := by
  obtain ⟨handle, rfl, known⟩ := shares
  exact .kept (fun _ has => has.shared known) (Heap.sizes_acquireItem _ _) rfl

theorem take_brings {p popped : Nat} {item : Item} {u : State} (run : s.take p popped = some (item, u)) :
    Brings s u (s.makes p popped) ∧ (s.Has item ∨ item.data = s.heap.data.length ∧ item.queue ∈ s.makes p popped) := by
  obtain ⟨q, pool, run⟩ := Option.bind_eq_some_iff.1 run
  split at run
  · next d found =>
    cases run
    have none : s.makes p popped = [] := by simp [makes, pool, found]
    rw [none]
    refine ⟨.kept (fun item has => ?_) (by simp [Heap.acquire]) rfl, Or.inl (.queued (List.mem_of_getElem? found))⟩
    refine has.setHeap (fun d part stored => .stored (d := d) ?_) fun p d queued => .queued ?_
    · rwa [Heap.acquire, Heap.bufferAt_setUses, Heap.bufferAt_setItems] at stored
    · rw [Heap.acquire, Heap.itemsAt_setUses] at queued
      rcases s.heap.itemsAt_setItems_cases q p (fun items => items.eraseIdx popped) with same | ⟨rfl, same⟩
      · rwa [same] at queued
      · rw [same] at queued
        exact List.mem_of_mem_eraseIdx queued
  · next absent =>
    cases run
    have one : s.makes p popped = [q] := by simp [makes, pool, absent]
    rw [one]
    refine ⟨⟨fun item has => Or.inl ?_, ?_, ?_, fun q found => Or.inl found⟩, Or.inr ⟨rfl, List.mem_singleton_self _⟩⟩
    · exact has.sameHeap (fun d => by simp [Heap.acquire]) fun q => by simp [Heap.acquire]
    · simp [Heap.acquire, Heap.setUses, Heap.newData]
    · simp [Heap.acquire, Heap.setUses, Heap.newData]

theorem takeHandle_brings {p popped : Nat} {item : Item} {u : State} (run : s.take p popped = some (item, u))
    {handle : Handle} (same : handle.item = some item) : Brings s (u.addHandle handle) (s.makes p popped) := by
  obtain ⟨brings, known⟩ := take_brings run
  refine ⟨fun other has => ?_, brings.data, brings.queues, brings.pools⟩
  rcases has.addHandle with before | new
  · exact brings.items other before
  · rw [same] at new
    cases new
    exact known

theorem has_of_constBlob {part : Option Part} (run : s.constBlob i = some part) :
    ∀ item, part.map Part.item = some item → s.Has item := by
  intro item same
  rcases constBlob_cases run with found | ⟨held, found, rfl⟩
  · exact has_of_handleAt found same
  · exact has_of_handleAt found same

theorem toConstBlob_shares (run : s.toConstBlob i = some t) : Shares s t := by
  obtain ⟨part, source, same⟩ := Option.bind_eq_some_iff.1 run
  cases same
  exact ⟨_, rfl, has_of_constBlob source⟩

theorem toConstBuffer_shares (run : s.toConstBuffer i = some t) : Shares s t := by
  unfold toConstBuffer at run
  split at run
  · next item found =>
    cases run
    exact ⟨_, rfl, fun item same => has_of_handleAt found same⟩
  · cases run

theorem getRange_shares {offset count : Nat} (run : s.getRange i offset count = some t) : Shares s t := by
  unfold getRange at run
  split at run
  · next part found =>
    split at run
    · cases run
    · cases run
      exact ⟨_, rfl, fun item same => by cases same⟩
    · next range part =>
      obtain ⟨slice, sliced, same⟩ := Option.bind_eq_some_iff.1 run
      cases same
      refine ⟨_, rfl, fun item same => has_of_handleAt found ?_⟩
      rw [← same]
      exact congrArg some (slice_spec sliced).1.symm
  · cases run

theorem element_shares {index : Nat} (run : s.element i index = some t) : Shares s t := by
  obtain ⟨item, _, run⟩ := Option.bind_eq_some_iff.1 run
  obtain ⟨part, found, same⟩ := Option.bind_eq_some_iff.1 run
  cases same
  refine ⟨_, rfl, fun item same => ?_⟩
  obtain ⟨part, rfl, rfl⟩ := Option.map_eq_some_iff.1 (show part.map Part.item = some item from same)
  exact .stored (List.mem_of_getElem? found)

theorem copy_shares (run : s.copy i = some t) : Shares s t := by
  obtain ⟨handle, found, same⟩ := Option.bind_eq_some_iff.1 run
  cases same
  exact ⟨_, rfl, fun item same => has_of_handleAt found same⟩

theorem assign_brings {target source : Nat} (run : s.assign target source = some t) : Brings s t [] := by
  obtain ⟨old, there, run⟩ := Option.bind_eq_some_iff.1 run
  obtain ⟨handle, found, run⟩ := Option.bind_eq_some_iff.1 run
  split at run
  · cases run
    refine .kept (fun item has => ?_) (Heap.sizes_acquireItem _ _) rfl
    rcases has.spawn with before | ⟨task, member, known⟩
    · rcases before.setHandle (s := { s with heap := s.heap.acquireItem handle.item }) with before | new
      · exact before.sameHeap (fun d => Heap.bufferAt_acquireItem _ _ _) fun q => Heap.itemsAt_acquireItem _ _ _
      · exact has_of_handleAt found new
    · -- what is left of the old value no longer names an item
      unfold replaced at member
      split at member
      · simp only [List.mem_cons, List.not_mem_nil, or_false] at member
        rcases member with rfl | rfl <;> cases known
      · cases member
  · cases run

theorem pushPart_brings {buffer : Nat} {part : Option Part} (run : s.pushPart buffer part = some t)
    (known : ∀ item, part.map Part.item = some item → s.Has item) : Brings s t [] := by
  unfold pushPart at run
  split at run
  · cases run
    refine .kept (fun item has => has.setHeap (fun d other found => ?_) fun q d found => .queued (q := q) ?_) (by simp) rfl
    · rcases Heap.mem_bufferAt_pushBack found with before | rfl
      · rw [Heap.bufferAt_acquireItem] at before
        exact .stored before
      · exact known _ rfl
    · rwa [Heap.itemsAt_pushBack, Heap.itemsAt_acquireItem] at found
  · cases run

theorem push_brings {buffer blob : Nat} (run : s.push buffer blob = some t) : Brings s t [] := by
  obtain ⟨part, source, run⟩ := Option.bind_eq_some_iff.1 run
  exact pushPart_brings run (has_of_constBlob source)

theorem runThread_brings (run : s.runThread i = some t) : Brings s t [] := by
  unfold runThread at run
  split at run
  · next task rest found =>
    rcases ran : s.heap.run task with ⟨heap, tasks⟩
    rw [ran] at run
    cases run
    have thread := List.mem_of_getElem? found
    obtain ⟨buffers, queues, later⟩ := Heap.run_items ran
    refine .kept (fun item has => ?_) (Heap.sizes_run ran) rfl
    cases has with
    | handle slot same => exact .handle slot same
    | stored inside => exact .stored (buffers _ _ inside)
    | queued inside =>
      rcases queues _ _ inside with before | same
      · exact .queued before
      · exact .task thread List.mem_cons_self same
    | task running inside same =>
      rcases List.mem_or_eq_of_mem_set running with before | rfl
      · exact .task before inside same
      · rcases List.mem_append.1 inside with new | old
        · rcases later _ new item same with known | ⟨d, part, stored, rfl⟩
          · exact .task thread List.mem_cons_self known
          · exact .stored stored
        · exact .task thread (List.mem_cons_of_mem _ old) same
  · cases run

end State

/-- Every step brings in only the items that it makes. -/
theorem step_brings {s t : State} {op : Op} (run : step s op = some t) : s.Brings t (s.created op) := by
  cases op with
  | createPool =>
    cases run
    refine ⟨fun item has => Or.inl ?_, rfl, ?_, fun q found => ?_⟩
    · cases has with
      | handle found same => exact .handle found same
      | stored found => exact .stored found
      | task running found same => exact .task running found same
      | queued found => exact .queued (by rwa [State.createPool, Heap.itemsAt_newQueue] at found)
    · simp [State.createPool, Heap.newQueue]
    · rcases List.mem_append.1 found with before | last
      · exact Or.inl before
      · exact Or.inr (Option.some.inj (List.mem_singleton.1 last))
  | destroyPool p =>
    obtain ⟨q, found, same⟩ := Option.bind_eq_some_iff.1 run
    cases same
    refine ⟨fun item has => Or.inl ?_, rfl, Nat.le_refl _, fun q member => Or.inl ?_⟩
    · rcases has.spawn with before | ⟨task, member, known⟩
      · cases before with
        | handle found same => exact .handle found same
        | stored found => exact .stored found
        | task running found same => exact .task running found same
        | queued found => exact .queued found
      · cases List.mem_singleton.1 member
        cases known
    · rcases List.mem_or_eq_of_mem_set member with before | new
      · exact before
      · cases new
  | takeBlob p popped =>
    obtain ⟨⟨item, u⟩, taken, same⟩ := Option.bind_eq_some_iff.1 run
    cases same
    exact State.takeHandle_brings taken rfl
  | takeBuffer p popped =>
    obtain ⟨⟨item, u⟩, taken, same⟩ := Option.bind_eq_some_iff.1 run
    cases same
    exact State.takeHandle_brings taken rfl
  | construct kind =>
    cases run
    refine .kept (fun item has => has.addHandle.elim id fun same => ?_) rfl rfl
    cases kind <;> cases same
  | toConstBlob i => exact (State.toConstBlob_shares run).brings
  | toConstBuffer i => exact (State.toConstBuffer_shares run).brings
  | getRange i offset count => exact (State.getRange_shares run).brings
  | element i index => exact (State.element_shares run).brings
  | copy i => exact (State.copy_shares run).brings
  | assign target source => exact State.assign_brings run
  | push buffer blob => exact State.push_brings run
  | write i vector =>
    change s.write i vector = some t at run
    unfold State.write at run
    split at run
    · cases run
      refine .kept (fun item has => has.sameHeap (fun d => Heap.bufferAt_setBlob _) fun q => Heap.itemsAt_setBlob _) ?_ rfl
      exact Heap.sizes_setBlob _ _ _
    · cases run
  | destroy i =>
    obtain ⟨handle, found, same⟩ := Option.bind_eq_some_iff.1 run
    cases same
    refine .kept (fun item has => ?_) rfl rfl
    rcases has.spawn with before | ⟨task, member, known⟩
    · rcases before.setHandle with before | new
      · exact before
      · cases new
    · cases List.mem_singleton.1 member
      exact State.has_of_handleAt found known
  | runThread i => exact State.runThread_brings run

end IpcBond.Pool
