import IpcBond.PoolLedger
import Mathlib.Tactic.Abel

/-! Every step of the pool machine is a sequence of moves, so every reachable state is owned. -/

namespace IpcBond.Pool
open Library.RefCount Relation

abbrev QuietMoves : Books → Books → Prop := ReflTransGen Quiet

abbrev Moves : Books → Books → Prop := ReflTransGen Move

theorem QuietMoves.moves {before after : Books} (quiet : QuietMoves before after) : Moves before after :=
  ReflTransGen.mono (fun _ _ => Move.quiet) _ _ quiet

theorem Moves.owned {before after : Books} (moves : Moves before after) (owned : Owned before.1 before.2) :
    Owned after.1 after.2 := by
  induction moves with
  | refl => exact owned
  | tail _ last ih => exact ih.move last

inductive Pointers : Option Item → Ledger → Prop where
  | none : Pointers none 0
  | some {item : Item} {ref : Ref} (node : ref.node = .data item.data) :
      Pointers (some item) ({ref} + {.queue item.queue})

theorem partRefs_pointers (part : Option Part) : Pointers (part.map Part.item) (partRefs part) := by
  cases part with
  | none => exact .none
  | some part => exact .some rfl

theorem Handle.refs_pointers (handle : Handle) : Pointers handle.item handle.refs := by
  cases handle with
  | blob item => cases item with
    | none => exact .none
    | some item => exact .some rfl
  | buffer item => cases item with
    | none => exact .none
    | some item => exact .some rfl
  | constBlob part => exact partRefs_pointers part
  | constBuffer item => cases item with
    | none => exact .none
    | some item => exact .some rfl

theorem partRefs_alias (heap : Heap) (part : Option Part) : ∀ ref ∈ partRefs part, heap.Alias ref ref := by
  intro ref member
  cases part with
  | none => simp [partRefs] at member
  | some part =>
    simp only [partRefs, Multiset.mem_add, Multiset.mem_singleton] at member
    rcases member with rfl | rfl
    · exact .range rfl rfl
    · exact .queue _

theorem itemRefs_alias (heap : Heap) {pointer : Nat → Ref} (same : ∀ d, heap.Alias (pointer d) (pointer d))
    (item : Option Item) : ∀ ref ∈ itemRefs pointer item, heap.Alias ref ref := by
  intro ref member
  cases item with
  | none => simp [itemRefs] at member
  | some item =>
    simp only [itemRefs, Multiset.mem_add, Multiset.mem_singleton] at member
    rcases member with rfl | rfl
    · exact same _
    · exact .queue _

theorem Handle.refs_alias (heap : Heap) (handle : Handle) : ∀ ref ∈ handle.refs, heap.Alias ref ref := by
  cases handle with
  | blob item => exact itemRefs_alias heap .blob item
  | buffer item => exact itemRefs_alias heap .buffer item
  | constBlob part => exact partRefs_alias heap part
  | constBuffer item => exact itemRefs_alias heap .buffer item

def Copied (before : Books) (new : Ref) : Prop :=
  ∃ old ∈ before.2, before.1.Alias old new ∧ ∀ d, old = .blob d → new = old

theorem acquireItem_quiet {heap : Heap} {ledger : Ledger} {item : Option Item} {refs : Ledger}
    (pointers : Pointers item refs) (sources : ∀ new ∈ refs, Copied (heap, ledger) new) :
    QuietMoves (heap, ledger) (heap.acquireItem item, refs + ledger) := by
  cases pointers with
  | none =>
    rw [zero_add]
    exact .refl
  | @some item ref node =>
    obtain ⟨old, found, alias_, copies⟩ := sources ref (by simp)
    obtain ⟨queue, live, same, _⟩ := sources (.queue item.queue) (by simp)
    have first : Quiet (heap, ledger) (heap.acquire (.data item.data), ref ::ₘ ledger) :=
      node ▸ .acquire found alias_ copies
    have queue_eq : queue = .queue item.queue := by cases same; rfl
    have second : Quiet (heap.acquire (.data item.data), ref ::ₘ ledger)
        (heap.acquireItem (some item), .queue item.queue ::ₘ ref ::ₘ ledger) :=
      .acquire (Multiset.mem_cons_of_mem (queue_eq ▸ live)) (.queue item.queue) (by simp)
    convert (ReflTransGen.single first).tail second using 2
    simp only [← Multiset.singleton_add]
    ac_rfl

theorem acquireItem_whole {heap : Heap} {ledger : Ledger} {item : Item} (found : .blob item.data ∈ ledger)
    (live : .queue item.queue ∈ ledger) :
    Moves (heap, ledger)
      (heap.acquireItem (some item), partRefs (some (.whole item (heap.blobAt item.data))) + ledger) := by
  have first : Move (heap, ledger)
      (heap.acquire (.data item.data), .part (.whole item (heap.blobAt item.data)) ::ₘ ledger) := .whole found
  have second : Quiet (heap.acquire (.data item.data), .part (.whole item (heap.blobAt item.data)) ::ₘ ledger)
      (heap.acquireItem (some item), .queue item.queue ::ₘ .part (.whole item (heap.blobAt item.data)) ::ₘ ledger) :=
    .acquire (Multiset.mem_cons_of_mem live) (.queue item.queue) (by simp)
  convert (ReflTransGen.single first).tail (.quiet second) using 2
  simp only [partRefs, ← Multiset.singleton_add, Part.whole]
  abel

namespace Heap

section Totals

variable {M : Type*} [AddCommMonoid M] (stored : Option Part → M) (queued : Nat → M) (heap : Heap) (d q : Nat)

theorem total_setUses (f : Nat → Nat) (n : Node) : (heap.setUses f n).total stored queued = heap.total stored queued := by
  cases n with
  | data d => rw [total, total, setUses, gather_modify_same]; intro cell; rfl
  | queue q => rw [total, total, setUses, gather_modify_same]; intro cell; rfl

theorem total_acquireItem (item : Option Item) :
    (heap.acquireItem item).total stored queued = heap.total stored queued := by
  cases item with
  | none => rfl
  | some item => rw [acquireItem, acquire, acquire, total_setUses, total_setUses]

theorem total_setBlob (vector : ByteVector) : (heap.setBlob d vector).total stored queued = heap.total stored queued := by
  rw [total, total, setBlob, gather_modify_same]
  intro cell
  rfl

theorem total_newData : heap.newData.total stored queued = heap.total stored queued := by
  simp [total, newData]

theorem total_newQueue : heap.newQueue.total stored queued = heap.total stored queued := by
  simp [total, newQueue]

variable {heap d q}

theorem total_pushBack (live : heap.uses (.data d) ≠ 0) (part : Option Part) :
    (heap.pushBack d part).total stored queued = heap.total stored queued + stored part := by
  obtain ⟨cell, found⟩ := data_of_uses live
  rw [total, total, pushBack, gather_modify_add _ found _ (by simp; rfl)]
  ac_rfl

theorem total_clear : (heap.clear d).total stored queued + gather stored (heap.bufferAt d) = heap.total stored queued := by
  cases found : heap.data[d]? with
  | none =>
    rw [clear, List.modify_eq_self (List.getElem?_eq_none_iff.1 found), bufferAt, lookup, found]
    exact add_zero _
  | some cell =>
    have removed := gather_modify_sub (fun cell : DataCell => gather stored cell.buffer) found (fun cell => { cell with
      blob := { cell.blob with size := 0, size_le := Nat.zero_le _ }
      buffer := [] }) (zero_add (gather stored cell.buffer))
    rw [bufferAt, lookup_of_some _ _ found, total, total, clear, ← removed]
    ac_rfl

theorem total_enqueue (live : heap.uses (.queue q) ≠ 0) (d : Nat) :
    (heap.setItems q (· ++ [d])).total stored queued = heap.total stored queued + queued d := by
  obtain ⟨cell, found⟩ := queue_of_uses live
  rw [total, total, setItems, gather_modify_add _ found _ (by simp; rfl), add_assoc]

theorem total_eraseItem {i : Nat} (found : (heap.itemsAt q)[i]? = some d) :
    (heap.setItems q fun items => items.eraseIdx i).total stored queued + queued d = heap.total stored queued := by
  obtain ⟨cell, present⟩ := exists_of_lookup_ne _ _ (List.ne_nil_of_mem (List.mem_of_getElem? found))
  rw [itemsAt, lookup_of_some _ _ present] at found
  rw [total, total, setItems, add_assoc, gather_modify_sub _ present _ (gather_eraseIdx queued found)]

theorem total_clearItems :
    (heap.setItems q fun _ => []).total stored queued + gather queued (heap.itemsAt q) = heap.total stored queued := by
  cases found : heap.queues[q]? with
  | none =>
    rw [setItems, List.modify_eq_self (List.getElem?_eq_none_iff.1 found), itemsAt, lookup, found]
    exact add_zero _
  | some cell =>
    have removed := gather_modify_sub (fun cell : QueueCell => gather queued cell.items) found
      (fun cell => { cell with items := [] }) (zero_add (gather queued cell.items))
    rw [itemsAt, lookup_of_some _ _ found, total, total, setItems, ← removed, add_assoc]

end Totals

variable {heap : Heap} {d q : Nat}

@[simp] theorem refs_setUses (f : Nat → Nat) (n : Node) : (heap.setUses f n).refs = heap.refs := total_setUses _ _ _ f n

@[simp] theorem blobAt_acquireItem (item : Option Item) : (heap.acquireItem item).blobAt d = heap.blobAt d := by
  cases item with
  | none => rfl
  | some item => simp only [acquireItem, acquire, blobAt_setUses]

@[simp] theorem refs_acquireItem (item : Option Item) : (heap.acquireItem item).refs = heap.refs :=
  total_acquireItem _ _ _ item

end Heap

inductive Heap.Ran (heap : Heap) : Task → Heap → List Task → Prop where
  | null {handle : Handle} (null : handle.item = none) : Ran heap (.destroy handle) heap []
  | recycle {handle : Handle} {item : Item} (same : handle.item = some item)
      (unique : heap.uses (.data item.data) = 1) :
      Ran heap (.destroy handle) (heap.clear item.data)
        ((heap.bufferAt item.data).map (fun part => .destroy (.constBlob part)) ++ [.handOver item])
  | letGo {handle : Handle} {item : Item} (same : handle.item = some item)
      (shared : heap.uses (.data item.data) ≠ 1) :
      Ran heap (.destroy handle) heap [.releaseQueue item.queue, .releaseData item.data]
  | handOver (item : Item) :
      Ran heap (.handOver item) (heap.setItems item.queue (· ++ [item.data])) [.releaseQueue item.queue]
  | freeQueue {q : Nat} (last : (heap.release (.queue q)).uses (.queue q) = 0) :
      Ran heap (.releaseQueue q) ((heap.release (.queue q)).setItems q fun _ => [])
        ((heap.itemsAt q).map .releaseData)
  | dropQueue {q : Nat} (shared : (heap.release (.queue q)).uses (.queue q) ≠ 0) :
      Ran heap (.releaseQueue q) (heap.release (.queue q)) []
  | freeData {d : Nat} (last : (heap.release (.data d)).uses (.data d) = 0) :
      Ran heap (.releaseData d) ((heap.release (.data d)).clear d)
        ((heap.bufferAt d).map fun part => .destroy (.constBlob part))
  | dropData {d : Nat} (shared : (heap.release (.data d)).uses (.data d) ≠ 0) :
      Ran heap (.releaseData d) (heap.release (.data d)) []

theorem Heap.ran {heap heap' : Heap} {task : Task} {tasks : List Task} (run : heap.run task = (heap', tasks)) :
    heap.Ran task heap' tasks := by
  cases task with
  | destroy handle =>
    simp only [Heap.run] at run
    split at run
    · next null =>
      cases run
      exact .null null
    · next item same =>
      split at run
      · next unique =>
        cases run
        exact .recycle same unique
      · next shared =>
        cases run
        exact .letGo same shared
  | handOver item =>
    cases run
    exact .handOver item
  | releaseQueue q =>
    simp only [Heap.run] at run
    split at run
    · next last =>
      cases run
      exact .freeQueue last
    · next shared =>
      cases run
      exact .dropQueue shared
  | releaseData d =>
    simp only [Heap.run] at run
    split at run
    · next last =>
      cases run
      exact .freeData last
    · next shared =>
      cases run
      exact .dropData shared

namespace Heap

variable {heap : Heap} {d q : Nat}

theorem refs_freeQueue :
    ((heap.release (.queue q)).setItems q fun _ => []).refs + gather (fun d => {.parked d}) (heap.itemsAt q) =
      heap.refs := by
  rw [← heap.itemsAt_setUses (· - 1) (n := .queue q), ← heap.refs_setUses (· - 1) (.queue q)]
  exact total_clearItems _ _

theorem refs_clear : (heap.clear d).refs + gather partRefs (heap.bufferAt d) = heap.refs := total_clear _ _

theorem refs_freeData : ((heap.release (.data d)).clear d).refs + gather partRefs (heap.bufferAt d) = heap.refs := by
  rw [← heap.bufferAt_setUses (· - 1) (n := .data d), ← heap.refs_setUses (· - 1) (.data d)]
  exact total_clear _ _

end Heap

section Tasks

variable {heap : Heap} {rest : Ledger}

theorem loosen_items (heap : Heap) (items : List Nat) (ledger : Ledger) :
    QuietMoves (heap, gather (fun d => {.parked d}) items + ledger) (heap, gather (fun d => {.loose d}) items + ledger) := by
  induction items generalizing ledger with
  | nil => exact .refl
  | cons d rest ih =>
    have front := ih ({.parked d} + ledger)
    have last : Quiet (heap, .parked d ::ₘ (gather (fun d => {.loose d}) rest + ledger)) _ := .loosen rfl
    simp only [← Multiset.singleton_add, add_left_comm] at front last
    simp only [gather_cons, add_assoc]
    exact front.tail last

theorem gather_destroy_refs (parts : List (Option Part)) :
    gather Task.refs (parts.map fun part => .destroy (.constBlob part)) = gather partRefs parts := by
  rw [gather_map]
  rfl

/-- One action of a destructor, beside the references that it does not touch. -/
theorem run_moves {task : Task} (owned : Owned heap (task.refs + (rest + heap.refs))) {heap' : Heap} {tasks : List Task}
    (run : heap.run task = (heap', tasks)) :
    QuietMoves (heap, task.refs + (rest + heap.refs)) (heap', gather Task.refs tasks + (rest + heap'.refs)) := by
  have released : ∀ n, heap.uses n ≠ 0 → (heap.release n).uses n = heap.uses n - 1 := fun n live => by
    rw [Heap.release, Heap.uses_setUses live, if_pos rfl]
  cases Heap.ran run with
  | @null handle null =>
    have pointers := handle.refs_pointers
    rw [null] at pointers
    simp only [Task.refs]
    generalize handle.refs = refs at pointers
    cases pointers
    exact .refl
  | @recycle handle item same unique =>
    have pointers := handle.refs_pointers
    rw [same] at pointers
    simp only [Task.refs]
    generalize handle.refs = refs at pointers
    cases pointers with
    | @some item ref node =>
      have move : Quiet (heap, ref ::ₘ ({.queue item.queue} + (rest + heap.refs))) _ := .recycle node unique
      convert ReflTransGen.single move using 2
      · simp only [← Multiset.singleton_add, add_assoc]
      · rw [gather_append, gather_destroy_refs, gather_cons, gather_nil, Task.refs, ← heap.refs_clear (d := item.data)]
        simp only [← Multiset.singleton_add]
        abel
  | @letGo handle item same shared =>
    have pointers := handle.refs_pointers
    rw [same] at pointers
    simp only [Task.refs]
    generalize handle.refs = refs at pointers
    cases pointers with
    | @some item ref node =>
      have move : Quiet (heap, ref ::ₘ ({.queue item.queue} + (rest + heap.refs))) _ := .loosen node
      convert ReflTransGen.single move using 2
      · simp only [← Multiset.singleton_add, add_assoc]
      · simp only [gather_cons, gather_nil, Task.refs, ← Multiset.singleton_add]
        abel
  | handOver item =>
    have live := owned.uses_ne_zero (show Ref.queue item.queue ∈ _ by simp [Task.refs])
    have moved : (heap.setItems item.queue (· ++ [item.data])).refs = heap.refs + {.parked item.data} :=
      Heap.total_enqueue _ _ live item.data
    have move : Quiet (heap, (Task.handOver item).refs + (rest + heap.refs)) _ := .setItems live (· ++ [item.data])
    convert ReflTransGen.single move using 2
    rw [moved]
    simp only [gather_cons, gather_nil, Task.refs]
    ac_rfl
  | @freeQueue q last =>
    have live : heap.uses (.queue q) ≠ 0 := owned.uses_ne_zero (show Ref.queue q ∈ _ by simp [Task.refs])
    rw [released _ live] at last
    have free : Quiet (heap, .queue q ::ₘ (rest + heap.refs)) _ := .freeQueue (by omega)
    have loose := loosen_items ((heap.release (.queue q)).setItems q fun _ => []) (heap.itemsAt q)
      (rest + ((heap.release (.queue q)).setItems q fun _ => []).refs)
    simp only [Task.refs, Multiset.singleton_add]
    rw [gather_map]
    refine (ReflTransGen.single ?_).trans loose
    convert free using 2
    rw [← heap.refs_freeQueue (q := q)]
    abel
  | @dropQueue q shared =>
    have live : heap.uses (.queue q) ≠ 0 := owned.uses_ne_zero (show Ref.queue q ∈ _ by simp [Task.refs])
    rw [released _ live] at shared
    have move : Quiet (heap, .queue q ::ₘ (rest + heap.refs)) _ := .release (by simp; omega)
    simp only [Task.refs, Multiset.singleton_add]
    convert ReflTransGen.single move using 2
    · rfl
    · rw [gather_nil, zero_add, Heap.release, Heap.refs_setUses]
  | @freeData d last =>
    have live : heap.uses (.data d) ≠ 0 := owned.uses_ne_zero (show Ref.loose d ∈ _ by simp [Task.refs])
    rw [released _ live] at last
    have free : Quiet (heap, .loose d ::ₘ (rest + heap.refs)) _ := .freeData (by omega)
    simp only [Task.refs, Multiset.singleton_add]
    convert ReflTransGen.single free using 2
    rw [gather_destroy_refs, ← heap.refs_freeData (d := d)]
    abel
  | @dropData d shared =>
    have live : heap.uses (.data d) ≠ 0 := owned.uses_ne_zero (show Ref.loose d ∈ _ by simp [Task.refs])
    rw [released _ live] at shared
    have move : Quiet (heap, .loose d ::ₘ (rest + heap.refs)) _ := .release (by simp; omega)
    simp only [Task.refs, Multiset.singleton_add]
    convert ReflTransGen.single move using 2
    · rfl
    · rw [gather_nil, zero_add, Heap.release, Heap.refs_setUses]

end Tasks

namespace State

variable {s t : State} {i : Nat}

theorem handles_of_handleAt {handle : Handle} (found : s.handleAt i = some handle) :
    s.handles[i]? = some (some handle) := by
  rw [handleAt, Option.join_eq_some_iff] at found
  exact found

theorem pools_of_poolAt {q : Nat} (found : s.poolAt i = some q) : s.pools[i]? = some (some q) := by
  rw [poolAt, Option.join_eq_some_iff] at found
  exact found

theorem mem_ledger_of_handleAt {handle : Handle} (found : s.handleAt i = some handle) {ref : Ref}
    (member : ref ∈ handle.refs) : ref ∈ s.ledger := by
  have slot : ref ∈ gather slotRefs s.handles :=
    mem_gather.2 ⟨some handle, List.mem_of_getElem? (handles_of_handleAt found), member⟩
  simp only [ledger, outside, Multiset.mem_add]
  exact Or.inl (Or.inl (Or.inl slot))

theorem mem_ledger_of_bufferAt {d : Nat} {part : Option Part} (found : part ∈ s.heap.bufferAt d) {ref : Ref}
    (member : ref ∈ partRefs part) : ref ∈ s.ledger := by
  have live : s.heap.bufferAt d ≠ [] := List.ne_nil_of_mem found
  obtain ⟨cell, present⟩ := exists_of_lookup_ne _ _ live
  rw [Heap.bufferAt, lookup_of_some _ _ present] at found
  have stored : ref ∈ gather (fun cell : DataCell => gather partRefs cell.buffer) s.heap.data :=
    mem_gather.2 ⟨cell, List.mem_of_getElem? present, mem_gather.2 ⟨part, found, member⟩⟩
  simp only [ledger, Heap.refs, Heap.total, Multiset.mem_add]
  exact Or.inr (Or.inl stored)

theorem mem_ledger_of_pool {q : Nat} (found : some q ∈ s.pools) : .queue q ∈ s.ledger := by
  have slot : .queue q ∈ gather poolRefs s.pools := mem_gather.2 ⟨some q, found, Multiset.mem_singleton_self _⟩
  simp only [ledger, outside, Multiset.mem_add]
  exact Or.inl (Or.inl (Or.inr slot))

theorem mem_ledger_of_task {thread : List Task} {task : Task} (running : thread ∈ s.threads) (found : task ∈ thread)
    {ref : Ref} (member : ref ∈ task.refs) : ref ∈ s.ledger := by
  have slot : ref ∈ gather (gather Task.refs) s.threads :=
    mem_gather.2 ⟨thread, running, mem_gather.2 ⟨task, found, member⟩⟩
  simp only [ledger, outside, Multiset.mem_add]
  exact Or.inl (Or.inr slot)

theorem ledger_addHandle (handle : Handle) : (s.addHandle handle).ledger = handle.refs + s.ledger := by
  simp only [ledger, outside, addHandle, gather_append, gather_cons, gather_nil, slotRefs]
  abel

theorem ledger_spawn (tasks : List Task) : (s.spawn tasks).ledger = gather Task.refs tasks + s.ledger := by
  simp only [ledger, outside, spawn, gather_append, gather_cons, gather_nil]
  abel

theorem ledger_setHandle {old : Handle} (found : s.handleAt i = some old) (new : Option Handle) :
    { s with handles := s.handles.set i new }.ledger + old.refs = slotRefs new + s.ledger := by
  have exchange := gather_set slotRefs (handles_of_handleAt found) new
  simp only [ledger, outside]
  calc gather slotRefs (s.handles.set i new) + gather poolRefs s.pools + gather (gather Task.refs) s.threads +
        s.heap.refs + old.refs
      = (gather slotRefs (s.handles.set i new) + slotRefs (some old)) + gather poolRefs s.pools +
        gather (gather Task.refs) s.threads + s.heap.refs := by rw [slotRefs]; abel
    _ = _ := by rw [exchange]; abel

theorem ledger_heap (heap : Heap) (same : heap.refs = s.heap.refs) : { s with heap := heap }.ledger = s.ledger := by
  rw [ledger, ledger, same]
  rfl

theorem ledger_share (handle : Handle) : (s.share handle).ledger = handle.refs + s.ledger := by
  rw [share, ledger_addHandle, ledger_heap _ (Heap.refs_acquireItem _)]

theorem share_quiet {handle : Handle} (sources : ∀ new ∈ handle.refs, Copied s.books new) :
    QuietMoves s.books (s.share handle).books := by
  have moves := acquireItem_quiet handle.refs_pointers sources
  rwa [books, books, ledger_share]

theorem ledger_createPool : s.createPool.ledger = .queue s.heap.queues.length ::ₘ s.ledger := by
  simp only [ledger, outside, createPool, gather_append, gather_cons, gather_nil, poolRefs, Heap.refs,
    Heap.total_newQueue, ← Multiset.singleton_add]
  abel

theorem createPool_quiet : QuietMoves s.books s.createPool.books := by
  have move := Quiet.newQueue s.heap s.ledger
  rw [books, books, ledger_createPool]
  exact .single move

theorem ledger_destroyPool (run : s.destroyPool i = some t) : t.ledger = s.ledger := by
  obtain ⟨q, found, same⟩ := Option.bind_eq_some_iff.1 run
  cases same
  have exchange := gather_set poolRefs (pools_of_poolAt found) none
  rw [ledger_spawn, ledger, ledger, outside, outside]
  simp only [gather_cons, gather_nil, Task.refs]
  calc {Ref.queue q} + 0 + (gather slotRefs s.handles + gather poolRefs (s.pools.set i none) +
        gather (gather Task.refs) s.threads + s.heap.refs)
      = gather slotRefs s.handles + (gather poolRefs (s.pools.set i none) + poolRefs (some q)) +
        gather (gather Task.refs) s.threads + s.heap.refs := by rw [poolRefs]; abel
    _ = _ := by rw [exchange, poolRefs, add_zero]

theorem destroyPool_quiet (run : s.destroyPool i = some t) : QuietMoves s.books t.books := by
  have kept := ledger_destroyPool run
  obtain ⟨q, found, same⟩ := Option.bind_eq_some_iff.1 run
  cases same
  rw [books, books, kept]
  exact .refl

theorem ledger_take {popped : Nat} {item : Item} (run : s.take i popped = some (item, t)) :
    .parked item.data ::ₘ t.ledger = s.ledger ∨ item.data = s.heap.data.length ∧ t.ledger = s.ledger := by
  obtain ⟨q, pool, run⟩ := Option.bind_eq_some_iff.1 run
  split at run
  · next d found =>
    cases run
    have removed : (s.heap.setItems q fun items => items.eraseIdx popped).refs + {.parked d} = s.heap.refs :=
      Heap.total_eraseItem _ _ found
    refine Or.inl ?_
    rw [ledger, ledger, Heap.acquire, Heap.refs_setUses, ← removed]
    simp only [outside, ← Multiset.singleton_add]
    abel
  · cases run
    refine Or.inr ⟨rfl, ledger_heap _ ?_⟩
    rw [Heap.acquire, Heap.refs_setUses, Heap.refs, Heap.total_newData, Heap.refs]

theorem take_quiet (owned : Owned s.heap s.ledger) {popped : Nat} {item : Item} (run : s.take i popped = some (item, t)) :
    QuietMoves s.books (t.heap, .parked item.data ::ₘ .queue item.queue ::ₘ t.ledger) ∧
      t = { s with heap := t.heap } := by
  obtain ⟨q, pool, run⟩ := Option.bind_eq_some_iff.1 run
  have pooled : .queue q ∈ s.ledger := mem_ledger_of_pool (List.mem_of_getElem? (pools_of_poolAt pool))
  have live : s.heap.uses (.queue q) ≠ 0 := owned.uses_ne_zero pooled
  split at run
  · next d found =>
    cases run
    refine ⟨?_, rfl⟩
    have removed : (s.heap.setItems q fun items => items.eraseIdx popped).refs + {.parked d} = s.heap.refs :=
      Heap.total_eraseItem _ _ found
    have erase : Quiet (s.heap, s.ledger) _ := .setItems live fun items => items.eraseIdx popped
    have copy : Quiet (s.heap.setItems q fun items => items.eraseIdx popped, s.ledger) _ :=
      .acquire pooled (.queue q) (by simp)
    convert (ReflTransGen.single erase).tail copy using 2
    · rfl
    · rw [Multiset.cons_swap, ledger, ledger, Heap.acquire, Heap.refs_setUses, ← removed]
      simp only [outside, ← Multiset.singleton_add]
      abel
  · cases run
    refine ⟨?_, rfl⟩
    have create := Quiet.newData s.heap s.ledger
    have kept : .queue q ∈ .parked s.heap.data.length ::ₘ s.ledger := Multiset.mem_cons_of_mem pooled
    have copy : Quiet (s.heap.newData, .parked s.heap.data.length ::ₘ s.ledger) _ := .acquire kept (.queue q) (by simp)
    convert (ReflTransGen.single create).tail copy using 2
    · rfl
    · rw [Multiset.cons_swap, ledger_heap _ (by rw [Heap.acquire, Heap.refs_setUses, Heap.refs, Heap.total_newData, Heap.refs])]

theorem takeHandle_moves (owned : Owned s.heap s.ledger) {popped : Nat} {item : Item}
    (run : s.take i popped = some (item, t)) {handle : Handle} {ref : Ref} (kind : ref = .blob item.data ∨ ref = .buffer item.data)
    (refs : handle.refs = {ref} + {.queue item.queue}) : Moves s.books (t.addHandle handle).books := by
  have moves := (take_quiet owned run).1.moves.tail (.hand kind)
  rw [books, books, ledger_addHandle, refs]
  convert moves using 2
  · rfl
  · simp only [← Multiset.singleton_add, add_assoc]

theorem takeBlob_moves (owned : Owned s.heap s.ledger) {popped : Nat} (run : s.takeBlob i popped = some t) :
    Moves s.books t.books := by
  obtain ⟨⟨item, u⟩, taken, same⟩ := Option.bind_eq_some_iff.1 run
  cases same
  exact takeHandle_moves owned taken (Or.inl rfl) rfl

theorem takeBuffer_moves (owned : Owned s.heap s.ledger) {popped : Nat} (run : s.takeBuffer i popped = some t) :
    Moves s.books t.books := by
  obtain ⟨⟨item, u⟩, taken, same⟩ := Option.bind_eq_some_iff.1 run
  cases same
  exact takeHandle_moves owned taken (Or.inr rfl) rfl

theorem copied_of_handleAt {handle : Handle} (found : s.handleAt i = some handle) :
    ∀ new ∈ handle.refs, Copied s.books new := fun new member =>
  ⟨new, mem_ledger_of_handleAt found member, handle.refs_alias _ new member, fun _ _ => rfl⟩

theorem copied_of_bufferAt {d : Nat} {part : Option Part} (found : part ∈ s.heap.bufferAt d) :
    ∀ new ∈ partRefs part, Copied s.books new := fun new member =>
  ⟨new, mem_ledger_of_bufferAt found member, partRefs_alias _ part new member, fun _ _ => rfl⟩

theorem copied_slice {part slice : Part} (copied : ∀ new ∈ partRefs (some part), Copied s.books new)
    (item : slice.item = part.item) (elements : slice.elements = part.elements) :
    ∀ new ∈ partRefs (some slice), Copied s.books new := by
  intro new member
  simp only [partRefs, Multiset.mem_add, Multiset.mem_singleton] at member
  rcases member with rfl | rfl
  · obtain ⟨old, found, alias_, copies⟩ := copied (.part part) (by simp [partRefs])
    cases alias_ with
    | range item' elements' => exact ⟨_, found, .range (item.trans item') (elements.trans elements'), by simp⟩
    | whole origin => cases copies _ rfl
  · rw [item]
    exact copied _ (by simp [partRefs])

theorem constBlob_cases {part : Option Part} (run : s.constBlob i = some part) :
    s.handleAt i = some (.constBlob part) ∨
      ∃ item, s.handleAt i = some (.blob (some item)) ∧ part = some (.whole item (s.heap.blobAt item.data)) := by
  unfold constBlob at run
  split at run
  · next found =>
    cases run
    exact Or.inl found
  · next item found =>
    cases run
    exact Or.inr ⟨item, found, rfl⟩
  · cases run

theorem constBlob_moves {part : Option Part} (run : s.constBlob i = some part) :
    Moves s.books (s.heap.acquireItem (part.map Part.item), partRefs part + s.ledger) := by
  rcases constBlob_cases run with found | ⟨item, found, same⟩
  · exact (acquireItem_quiet (partRefs_pointers part) (copied_of_handleAt found)).moves
  · rw [same]
    have blob : .blob item.data ∈ s.ledger := mem_ledger_of_handleAt found (by simp [Handle.refs, itemRefs])
    have queue : .queue item.queue ∈ s.ledger := mem_ledger_of_handleAt found (by simp [Handle.refs, itemRefs])
    exact acquireItem_whole blob queue

theorem toConstBlob_moves (run : s.toConstBlob i = some t) : Moves s.books t.books := by
  obtain ⟨part, source, same⟩ := Option.bind_eq_some_iff.1 run
  cases same
  rw [books, books, ledger_share]
  exact constBlob_moves source

theorem copy_quiet (run : s.copy i = some t) : QuietMoves s.books t.books := by
  obtain ⟨handle, found, same⟩ := Option.bind_eq_some_iff.1 run
  cases same
  exact share_quiet (copied_of_handleAt found)

theorem toConstBuffer_quiet (run : s.toConstBuffer i = some t) : QuietMoves s.books t.books := by
  unfold toConstBuffer at run
  split at run
  · next item found =>
    cases run
    have copied : ∀ new ∈ (Handle.buffer item).refs, Copied s.books new := copied_of_handleAt found
    exact share_quiet copied
  · cases run

theorem slice_spec {part slice : Part} {beginAt endAt : Nat} (run : part.slice beginAt endAt = some slice) :
    slice.item = part.item ∧ slice.elements = part.elements ∧ slice.beginAt = beginAt ∧ slice.endAt = endAt := by
  unfold Part.slice at run
  split at run
  · cases run
    exact ⟨rfl, rfl, rfl, rfl⟩
  · cases run

theorem getRange_quiet {offset count : Nat} (run : s.getRange i offset count = some t) : QuietMoves s.books t.books := by
  unfold getRange at run
  split at run
  · next part found =>
    split at run
    · cases run
    · cases run
      exact share_quiet fun new member => absurd member (Multiset.notMem_zero _)
    · next range part =>
      obtain ⟨slice, sliced, same⟩ := Option.bind_eq_some_iff.1 run
      cases same
      obtain ⟨item, elements, _⟩ := slice_spec sliced
      exact share_quiet (copied_slice (copied_of_handleAt found) item elements)
  · cases run

theorem element_quiet {index : Nat} (run : s.element i index = some t) : QuietMoves s.books t.books := by
  obtain ⟨item, _, run⟩ := Option.bind_eq_some_iff.1 run
  obtain ⟨part, found, same⟩ := Option.bind_eq_some_iff.1 run
  cases same
  exact share_quiet (copied_of_bufferAt (List.mem_of_getElem? found))

theorem loosen_replaced (heap : Heap) (handle : Handle) (ledger : Ledger) :
    QuietMoves (heap, handle.refs + ledger) (heap, gather Task.refs (replaced handle) + ledger) := by
  have pointers := handle.refs_pointers
  unfold replaced
  generalize handle.item = item, handle.refs = refs at pointers
  cases pointers with
  | none => exact .refl
  | @some item ref node =>
    have move : Quiet (heap, ref ::ₘ ({.queue item.queue} + ledger)) _ := .loosen node
    convert ReflTransGen.single move using 2
    · simp only [← Multiset.singleton_add, add_assoc]
    · simp only [gather_cons, gather_nil, Task.refs, ← Multiset.singleton_add]
      abel

/-- The references of the new value are there twice before those of the old one are reset. -/
theorem ledger_assigned {target : Nat} {old : Handle} (there : s.handleAt target = some old) (handle : Handle) :
    old.refs + State.ledger ⟨s.heap.acquireItem handle.item, s.handles.set target (some handle), s.pools, s.threads⟩ =
      handle.refs + s.ledger := by
  let u : State := { s with heap := s.heap.acquireItem handle.item }
  have exchange := u.ledger_setHandle there (some handle)
  rw [show u.ledger = s.ledger from ledger_heap _ (Heap.refs_acquireItem _)] at exchange
  rw [add_comm]
  exact exchange

theorem assign_quiet {target source : Nat} (run : s.assign target source = some t) : QuietMoves s.books t.books := by
  obtain ⟨old, there, run⟩ := Option.bind_eq_some_iff.1 run
  obtain ⟨handle, found, run⟩ := Option.bind_eq_some_iff.1 run
  split at run
  · cases run
    have copied := acquireItem_quiet handle.refs_pointers (copied_of_handleAt found)
    rw [← ledger_assigned there handle] at copied
    rw [books, books, ledger_spawn]
    exact copied.trans (loosen_replaced _ old _)
  · cases run

theorem pushPart_spec (owned : Owned s.heap s.ledger) {buffer : Nat} (part : Option Part)
    (copied : Moves s.books (s.heap.acquireItem (part.map Part.item), partRefs part + s.ledger))
    (run : s.pushPart buffer part = some t) :
    Moves s.books t.books ∧ t.handles = s.handles ∧ t.ledger = partRefs part + s.ledger ∧
      ∀ e, t.heap.blobAt e = s.heap.blobAt e := by
  unfold pushPart at run
  split at run
  · next item there =>
    cases run
    have buffered : .buffer item.data ∈ partRefs part + s.ledger :=
      Multiset.mem_add.2 (Or.inr (mem_ledger_of_handleAt there (by simp [Handle.refs, itemRefs])))
    have live := (copied.owned owned).uses_ne_zero buffered
    have pushed := Heap.total_pushBack partRefs (fun d => {.parked d}) live part
    rw [← Heap.refs, ← Heap.refs, Heap.refs_acquireItem] at pushed
    have ledger_eq : State.ledger { s with heap := (s.heap.acquireItem (part.map Part.item)).pushBack item.data part } =
        partRefs part + s.ledger := by
      rw [ledger, ledger, pushed]
      simp only [outside]
      abel
    refine ⟨?_, rfl, ledger_eq, fun e => ?_⟩
    · rw [books, books, ledger_eq]
      exact copied.tail (.quiet (.pushBack buffered part))
    · rw [Heap.blobAt_pushBack, Heap.blobAt_acquireItem]
  · cases run

theorem push_moves (owned : Owned s.heap s.ledger) {buffer blob : Nat} (run : s.push buffer blob = some t) :
    Moves s.books t.books := by
  obtain ⟨part, source, run⟩ := Option.bind_eq_some_iff.1 run
  exact (pushPart_spec owned part (constBlob_moves source) run).1

theorem write_moves {vector : ByteVector} (run : s.write i vector = some t) : Moves s.books t.books := by
  unfold write at run
  split at run
  · next item found =>
    cases run
    have blob : .blob item.data ∈ s.ledger := mem_ledger_of_handleAt found (by simp [Handle.refs, itemRefs])
    rw [books, books, ledger_heap _ (Heap.total_setBlob _ _ _ _ _)]
    exact .single (.setBlob blob vector)
  · cases run

theorem construct_quiet (kind : Handle.Kind) : QuietMoves s.books (s.addHandle (.null kind)).books := by
  have none : (Handle.null kind).refs = 0 := by cases kind <;> rfl
  rw [books, books, ledger_addHandle, none, zero_add]
  exact .refl

theorem ledger_destroy (run : s.destroy i = some t) : t.ledger = s.ledger := by
  obtain ⟨handle, found, same⟩ := Option.bind_eq_some_iff.1 run
  cases same
  have exchange := ledger_setHandle found none
  rw [ledger_spawn, gather_cons, gather_nil, add_zero, add_comm, Task.refs, exchange, slotRefs, zero_add]

theorem destroy_quiet (run : s.destroy i = some t) : QuietMoves s.books t.books := by
  have kept := ledger_destroy run
  obtain ⟨handle, found, same⟩ := Option.bind_eq_some_iff.1 run
  cases same
  rw [books, books, kept]
  exact .refl

theorem ledger_runThread (run : s.runThread i = some t) :
    ∃ task rest tasks others, s.threads[i]? = some (task :: rest) ∧ s.heap.run task = (t.heap, tasks) ∧
      s.ledger = task.refs + (others + s.heap.refs) ∧ t.ledger = gather Task.refs tasks + (others + t.heap.refs) := by
  unfold runThread at run
  split at run
  · next task rest found =>
    rcases ran : s.heap.run task with ⟨heap, tasks⟩
    rw [ran] at run
    cases run
    let others := gather slotRefs s.handles + gather poolRefs s.pools + gather (gather Task.refs) (s.threads.set i rest)
    have removed := gather_set (gather Task.refs) found rest
    have before : s.ledger = task.refs + (others + s.heap.refs) := by
      rw [gather_cons, ← add_assoc, add_left_inj] at removed
      simp only [ledger, outside, others]
      rw [← removed]
      abel
    have after : State.ledger ⟨heap, s.handles, s.pools, s.threads.set i (tasks ++ rest)⟩ =
        gather Task.refs tasks + (others + heap.refs) := by
      have replaced := gather_set (gather Task.refs) found (tasks ++ rest)
      have threads : gather (gather Task.refs) (s.threads.set i (tasks ++ rest)) =
          gather Task.refs tasks + gather (gather Task.refs) (s.threads.set i rest) := by
        refine add_right_cancel (b := gather Task.refs (task :: rest)) ?_
        rw [replaced, add_assoc, removed, gather_append]
        abel
      simp only [ledger, outside, others, threads]
      abel
    exact ⟨task, rest, tasks, others, found, ran, before, after⟩
  · cases run

theorem runThread_quiet (owned : Owned s.heap s.ledger) (run : s.runThread i = some t) : QuietMoves s.books t.books := by
  obtain ⟨task, rest, tasks, others, _, ran, before, after⟩ := ledger_runThread run
  rw [before] at owned
  rw [books, books, before, after]
  exact run_moves owned ran

end State

/-- A step of the machine is a sequence of moves. -/
theorem step_moves {s t : State} (owned : Owned s.heap s.ledger) {op : Op} (run : step s op = some t) :
    Moves s.books t.books := by
  cases op with
  | createPool => cases run; exact State.createPool_quiet.moves
  | destroyPool p => exact (State.destroyPool_quiet run).moves
  | takeBlob p popped => exact State.takeBlob_moves owned run
  | takeBuffer p popped => exact State.takeBuffer_moves owned run
  | construct kind => cases run; exact (State.construct_quiet kind).moves
  | toConstBlob i => exact State.toConstBlob_moves run
  | toConstBuffer i => exact (State.toConstBuffer_quiet run).moves
  | getRange i offset count => exact (State.getRange_quiet run).moves
  | element i index => exact (State.element_quiet run).moves
  | copy i => exact (State.copy_quiet run).moves
  | assign target source => exact (State.assign_quiet run).moves
  | push buffer blob => exact State.push_moves owned run
  | write i vector => exact State.write_moves run
  | destroy i => exact (State.destroy_quiet run).moves
  | runThread i => exact (State.runThread_quiet owned run).moves

end IpcBond.Pool
