import IpcBond.PoolHomes

/-! What keeps an item. A handle, a stored blob, a queue and a destructor that has yet to decide each keep
their item; a pointer that is only reset does not, whatever its count. -/

namespace IpcBond.Pool
open Library.RefCount Relation

def Ref.keeps : Ref → Option Nat
  | .blob d => some d
  | .part p => some p.item.data
  | .buffer d => some d
  | .parked d => some d
  | .loose _ => none
  | .queue _ => none

def keepers (ledger : Ledger) (d : Nat) : Nat := ledger.countP fun ref => ref.keeps = some d

def pins (item : Option Item) (d : Nat) : Nat := if item.map Item.data = some d then 1 else 0

section Counting

variable (d : Nat)

@[simp] theorem keepers_zero : keepers 0 d = 0 := rfl

@[simp] theorem keepers_add (front back : Ledger) : keepers (front + back) d = keepers front d + keepers back d :=
  Multiset.countP_add _ _ _

@[simp] theorem keepers_cons (ref : Ref) (rest : Ledger) :
    keepers (ref ::ₘ rest) d = (if ref.keeps = some d then 1 else 0) + keepers rest d := by
  rw [keepers, Multiset.countP_cons, add_comm, keepers]

@[simp] theorem keepers_singleton (ref : Ref) : keepers {ref} d = if ref.keeps = some d then 1 else 0 := by
  rw [← Multiset.cons_zero, keepers_cons, keepers_zero, add_zero]

theorem keepers_queue (q : Nat) : keepers {.queue q} d = 0 := by simp [Ref.keeps]

theorem keepers_loose (e : Nat) : keepers {.loose e} d = 0 := by simp [Ref.keeps]

theorem keepers_gather {α : Type*} (refs : α → Ledger) (table : List α) :
    keepers (gather refs table) d = gather (fun cell => keepers (refs cell) d) table := by
  induction table with
  | nil => rfl
  | cons cell rest ih => rw [gather_cons, gather_cons, keepers_add, ih]

theorem keepers_itemRefs {pointer : Nat → Ref} (keeps : ∀ e, (pointer e).keeps = some e) (item : Option Item) :
    keepers (itemRefs pointer item) d = pins item d := by
  cases item with
  | none => rfl
  | some item =>
    rw [itemRefs, keepers_add, keepers_singleton, keeps, keepers_queue, add_zero]
    rfl

@[simp] theorem keepers_partRefs (part : Option Part) : keepers (partRefs part) d = pins (part.map Part.item) d := by
  cases part with
  | none => rfl
  | some part => simp [partRefs, pins, Ref.keeps]

@[simp] theorem keepers_handle (handle : Handle) : keepers handle.refs d = pins handle.item d := by
  cases handle with
  | blob item => exact keepers_itemRefs d (fun _ => rfl) item
  | buffer item => exact keepers_itemRefs d (fun _ => rfl) item
  | constBlob part => exact keepers_partRefs d part
  | constBuffer item => exact keepers_itemRefs d (fun _ => rfl) item

@[simp] theorem keepers_task (task : Task) : keepers task.refs d = pins task.item d := by
  cases task with
  | destroy handle => exact keepers_handle d handle
  | handOver item => simp [Task.refs, Task.item, pins, Ref.keeps]
  | releaseQueue q => exact keepers_queue d q
  | releaseData e => exact keepers_loose d e

end Counting

variable {d q : Nat}

theorem keepers_pos {ledger : Ledger} : 0 < keepers ledger d ↔ ∃ ref ∈ ledger, ref.keeps = some d := by
  rw [keepers, Multiset.countP_pos]

theorem pins_pos {item : Option Item} : 0 < pins item d ↔ ∃ found, item = some found ∧ found.data = d := by
  cases item with
  | none => simp [pins]
  | some item => by_cases same : item.data = d <;> simp [pins, same]

theorem keepers_parked (items : List Nat) (absent : d ∉ items) :
    keepers (gather (fun e => {.parked e}) items) d = 0 := by
  rw [keepers_gather]
  refine gather_eq_zero _ fun e member => ?_
  rw [keepers_singleton, Ref.keeps, if_neg]
  rintro ⟨rfl⟩
  exact absent member

theorem keepers_released (items : List Nat) : keepers (gather Task.refs (items.map .releaseData)) d = 0 := by
  rw [gather_map, keepers_gather]
  exact gather_eq_zero _ fun e _ => keepers_loose d e

theorem run_keepers {heap heap' : Heap} {task : Task} {tasks : List Task} {rest : Ledger}
    (owned : Owned heap (task.refs + (rest + heap.refs))) (run : heap.run task = (heap', tasks))
    (kept : 0 < keepers (task.refs + (rest + heap.refs)) d)
    (spares : ∀ handle item, task = .destroy handle → handle.item = some item → heap.uses (.data item.data) ≠ 1 →
      2 ≤ keepers (task.refs + (rest + heap.refs)) item.data)
    (home : ∀ p, d ∈ heap.itemsAt p → p = q) (live : heap'.uses (.queue q) ≠ 0) :
    0 < keepers (gather Task.refs tasks + (rest + heap'.refs)) d := by
  cases Heap.ran run with
  | null null => simpa [Task.item, null, pins] using kept
  | @recycle handle item same unique =>
    rw [← heap.refs_clear (d := item.data)] at kept
    simp only [keepers_add, keepers_task, gather_append, gather_cons, gather_nil, gather_destroy_refs, Task.item,
      keepers_zero, same] at kept ⊢
    omega
  | @letGo handle item same shared =>
    have another := spares handle item rfl same shared
    simp only [keepers_add, keepers_task, gather_cons, gather_nil, keepers_zero, Task.item, same] at kept another ⊢
    by_cases mine : item.data = d
    · simp only [pins, Option.map_some, mine, if_true] at another ⊢
      simp only [Option.map_none, reduceCtorEq, if_false]
      omega
    · simpa [pins, mine] using kept
  | handOver item =>
    have there := owned.uses_ne_zero (show Ref.queue item.queue ∈ _ by simp [Task.refs])
    have moved : (heap.setItems item.queue (· ++ [item.data])).refs = heap.refs + {.parked item.data} :=
      Heap.total_enqueue _ _ there item.data
    rw [moved]
    simpa [Task.item, pins, Ref.keeps, add_comm, add_assoc, add_left_comm] using kept
  | @freeQueue p last =>
    have elsewhere : d ∉ heap.itemsAt p := by
      intro member
      cases home p member
      rw [Heap.uses_setItems] at live
      exact live last
    have none := keepers_parked _ elsewhere
    rw [← heap.refs_freeQueue (q := p)] at kept
    simp only [keepers_add, keepers_task, none, keepers_released, Task.item, pins] at kept ⊢
    simpa using kept
  | dropQueue =>
    rw [Heap.release, Heap.refs_setUses]
    simpa [Task.item, pins] using kept
  | @freeData e last =>
    rw [← heap.refs_freeData (d := e)] at kept
    simp only [keepers_add, keepers_task, gather_destroy_refs, Task.item, pins] at kept ⊢
    simp only [Option.map_none, reduceCtorEq, if_false] at kept
    omega
  | dropData =>
    rw [Heap.release, Heap.refs_setUses]
    simpa [Task.item, pins] using kept

namespace State

variable {s t : State} {i : Nat}

/-- The item whose keeper a step takes away without returning it to its queue: an assignment has no destructor run
for the value that it replaces, and a destructor returns the item only where it finds its pointer unique. -/
def letsGo (s : State) : Op → Option Item
  | .assign target source =>
    match s.handleAt target, s.handleAt source with
    | some old, some handle => if old.item.map Item.data = handle.item.map Item.data then none else old.item
    | _, _ => none
  | .runThread i =>
    match s.threads[i]? with
    | some (.destroy handle :: _) => handle.item.filter fun item => s.heap.uses (.data item.data) ≠ 1
    | _ => none
  | _ => none

/-- An item that a step lets go of has another keeper. -/
def spares (s : State) (op : Op) : Bool := (s.letsGo op).all fun item => 2 ≤ keepers s.ledger item.data

theorem Shares.keepers_le (shares : Shares s t) (d : Nat) : keepers s.ledger d ≤ keepers t.ledger d := by
  obtain ⟨handle, rfl, _⟩ := shares
  rw [ledger_share, keepers_add]
  exact Nat.le_add_left _ _

theorem takeHandle_keepers {p popped : Nat} {item : Item} {u : State} (run : s.take p popped = some (item, u))
    {handle : Handle} (same : handle.item = some item) :
    keepers s.ledger d ≤ keepers (u.addHandle handle).ledger d := by
  rw [ledger_addHandle, keepers_add, keepers_handle, same]
  rcases ledger_take run with popped | ⟨_, created⟩
  · rw [← popped, keepers_cons]
    simp [pins, Ref.keeps]
  · rw [created]
    exact Nat.le_add_left _ _

theorem assign_exchange {target source : Nat} (run : s.assign target source = some t) {old handle : Handle}
    (there : s.handleAt target = some old) (found : s.handleAt source = some handle) (d : Nat) :
    keepers t.ledger d + pins old.item d = pins handle.item d + keepers s.ledger d := by
  simp only [assign, there, found, Option.bind_eq_bind, Option.bind_some] at run
  split at run
  · cases run
    have exchange := congrArg (keepers · d) (ledger_assigned there handle)
    have loose : keepers (gather Task.refs (replaced old)) d = 0 := by
      unfold replaced
      split <;> simp [Task.item, pins]
    simp only [keepers_add, keepers_handle] at exchange
    rw [ledger_spawn, keepers_add, loose, zero_add, ← exchange]
    exact Nat.add_comm _ _
  · cases run

theorem assign_keepers {target source : Nat} (run : s.assign target source = some t)
    (spares : s.spares (.assign target source)) (kept : 0 < keepers s.ledger d) : 0 < keepers t.ledger d := by
  obtain ⟨old, there, rest⟩ := Option.bind_eq_some_iff.1 run
  obtain ⟨handle, found, _⟩ := Option.bind_eq_some_iff.1 rest
  have exchange := assign_exchange run there found d
  simp only [State.spares, letsGo, there, found] at spares
  split at spares
  · next same =>
    rw [pins, same, pins] at exchange
    omega
  · cases held : old.item with
    | none =>
      rw [held] at exchange
      simp only [pins, Option.map_none, reduceCtorEq, if_false] at exchange
      omega
    | some item =>
      simp only [held, Option.all_some, decide_eq_true_eq] at spares
      rw [held] at exchange
      by_cases mine : item.data = d
      · rw [mine] at spares
        simp only [pins, Option.map_some, mine, if_true] at exchange
        omega
      · simp only [pins, Option.map_some, Option.some.injEq, mine, if_false] at exchange
        omega

theorem push_keepers (owned : Owned s.heap s.ledger) {buffer blob : Nat} (run : s.push buffer blob = some t) :
    keepers s.ledger d ≤ keepers t.ledger d := by
  obtain ⟨part, source, run⟩ := Option.bind_eq_some_iff.1 run
  obtain ⟨_, _, pushed, _⟩ := pushPart_spec owned part (constBlob_moves source) run
  rw [pushed, keepers_add]
  exact Nat.le_add_left _ _

theorem runThread_keepers (owned : Owned s.heap s.ledger) (run : s.runThread i = some t) (spares : s.spares (.runThread i))
    (home : ∀ p, d ∈ s.heap.itemsAt p → p = q) (live : t.heap.uses (.queue q) ≠ 0) (kept : 0 < keepers s.ledger d) :
    0 < keepers t.ledger d := by
  obtain ⟨task, rest, tasks, others, found, ran, before, after⟩ := ledger_runThread run
  rw [after]
  rw [before] at owned kept
  refine run_keepers owned ran kept (fun handle item same held shared => ?_) home live
  simp only [State.spares, letsGo, found, same, held, before] at spares
  simpa [shared, same] using spares

end State

/-- A step leaves every item kept whose queue is in use, if it spares the item that it lets go of. -/
theorem step_keepers {s t : State} (owned : Owned s.heap s.ledger) {op : Op} (run : step s op = some t)
    (spares : s.spares op) (home : ∀ p, d ∈ s.heap.itemsAt p → p = q) (live : t.heap.uses (.queue q) ≠ 0)
    (kept : 0 < keepers s.ledger d) : 0 < keepers t.ledger d := by
  cases op with
  | createPool =>
    cases run
    rw [State.ledger_createPool, keepers_cons]
    exact Nat.lt_of_lt_of_le kept (Nat.le_add_left _ _)
  | destroyPool p => rwa [State.ledger_destroyPool run]
  | takeBlob p popped =>
    obtain ⟨⟨item, u⟩, taken, same⟩ := Option.bind_eq_some_iff.1 run
    cases same
    exact Nat.lt_of_lt_of_le kept (State.takeHandle_keepers taken rfl)
  | takeBuffer p popped =>
    obtain ⟨⟨item, u⟩, taken, same⟩ := Option.bind_eq_some_iff.1 run
    cases same
    exact Nat.lt_of_lt_of_le kept (State.takeHandle_keepers taken rfl)
  | construct kind =>
    cases run
    rw [State.ledger_addHandle, keepers_add]
    exact Nat.lt_of_lt_of_le kept (Nat.le_add_left _ _)
  | toConstBlob i => exact Nat.lt_of_lt_of_le kept ((State.toConstBlob_shares run).keepers_le d)
  | toConstBuffer i => exact Nat.lt_of_lt_of_le kept ((State.toConstBuffer_shares run).keepers_le d)
  | getRange i offset count => exact Nat.lt_of_lt_of_le kept ((State.getRange_shares run).keepers_le d)
  | element i index => exact Nat.lt_of_lt_of_le kept ((State.element_shares run).keepers_le d)
  | copy i => exact Nat.lt_of_lt_of_le kept ((State.copy_shares run).keepers_le d)
  | assign target source => exact State.assign_keepers run spares kept
  | push buffer blob => exact Nat.lt_of_lt_of_le kept (State.push_keepers owned run)
  | write i vector =>
    change s.write i vector = some t at run
    unfold State.write at run
    split at run
    · cases run
      rwa [State.ledger_heap _ (Heap.total_setBlob _ _ _ _ _)]
    · cases run
  | destroy i => rwa [State.ledger_destroy run]
  | runThread i => exact State.runThread_keepers owned run spares home live kept

namespace State

variable {s t : State} {item : Item}

theorem letsGo_cases {op : Op} (lets : s.letsGo op = some item) :
    (∃ target source old handle, op = .assign target source ∧ s.handleAt target = some old ∧
      s.handleAt source = some handle ∧ old.item = some item ∧ handle.item.map Item.data ≠ some item.data) ∨
      ∃ i handle rest, op = .runThread i ∧ s.threads[i]? = some (.destroy handle :: rest) ∧ handle.item = some item ∧
        s.heap.uses (.data item.data) ≠ 1 := by
  cases op with
  | assign target source =>
    simp only [letsGo] at lets
    split at lets
    · next old handle there found =>
      split at lets
      · cases lets
      · next different =>
        refine Or.inl ⟨target, source, old, handle, rfl, there, found, lets, fun same => different ?_⟩
        rw [lets, same, Option.map_some]
    · cases lets
  | runThread i =>
    simp only [letsGo] at lets
    split at lets
    · next handle rest found =>
      obtain ⟨held, shared⟩ := Option.filter_eq_some_iff.1 lets
      exact Or.inr ⟨i, handle, rest, rfl, found, held, of_decide_eq_true shared⟩
    · cases lets
  | _ => cases lets

/-- An item that is not spared is lost: it was kept, nothing keeps it any longer, and its queue is still in use. -/
theorem lost {op : Op} (run : step s op = some t) (careless : s.spares op = false) :
    ∃ item, s.letsGo op = some item ∧ s.Has item ∧ keepers t.ledger item.data = 0 ∧ .queue item.queue ∈ t.ledger := by
  cases lets : s.letsGo op with
  | none => simp [State.spares, lets] at careless
  | some item =>
    have last : keepers s.ledger item.data ≤ 1 := by
      simp only [State.spares, lets, Option.all_some, decide_eq_false_iff_not, Nat.not_le] at careless
      omega
    refine ⟨item, rfl, ?_⟩
    rcases letsGo_cases lets with ⟨target, source, old, handle, rfl, there, found, held, other⟩ |
      ⟨i, handle, rest, rfl, found, held, shared⟩
    · have exchange := assign_exchange run there found item.data
      rw [held, pins, pins, if_pos (Option.map_some ..), if_neg other] at exchange
      refine ⟨has_of_handleAt there held, by omega, ?_⟩
      simp only [Pool.step, assign, there, found, Option.bind_eq_bind, Option.bind_some] at run
      split at run
      · cases run
        rw [ledger_spawn, replaced, held]
        simp [Task.refs]
      · cases run
    · obtain ⟨task, others, tasks, more, same, ran, before, after⟩ := ledger_runThread run
      rw [found] at same
      cases same
      simp only [Heap.run, held, if_neg shared] at ran
      obtain ⟨heap, rfl⟩ := Prod.mk.inj ran
      refine ⟨.task (List.mem_of_getElem? found) List.mem_cons_self held, ?_, ?_⟩
      · rw [before] at last
        rw [after, ← heap]
        simp only [keepers_add, keepers_task, gather_cons, gather_nil, Task.item, held] at last ⊢
        simp only [pins, Option.map_some, Option.map_none, reduceCtorEq, if_true, if_false, keepers_zero] at last ⊢
        omega
      · rw [after]
        simp [Task.refs]

end State

def QueuesKept (before after : Books) : Prop :=
  before.1.queues.length ≤ after.1.queues.length ∧
    ∀ q, .queue q ∈ after.2 → .queue q ∈ before.2 ∨ before.1.queues.length ≤ q

theorem QueuesKept.of_sizes {before after : Books} (sizes : after.1.sizes = before.1.sizes)
    (mem : ∀ q, .queue q ∈ after.2 → .queue q ∈ before.2) : QueuesKept before after :=
  ⟨Nat.le_of_eq (Prod.mk.inj sizes).2.symm, fun q found => Or.inl (mem q found)⟩

theorem Quiet.queues {before after : Books} (quiet : Quiet before after) : QueuesKept before after := by
  cases quiet with
  | @acquire heap ledger old new found alias_ copies =>
    refine .of_sizes (Heap.sizes_setUses _ _ _) fun q member => ?_
    rcases Multiset.mem_cons.1 member with same | before
    · cases alias_ with
      | queue p => rwa [same]
      | _ => cases same
    · exact before
  | newData heap ledger =>
    exact ⟨Nat.le_refl _, fun q member => Or.inl (by simpa using member)⟩
  | newQueue heap ledger =>
    refine ⟨by simp [Heap.newQueue], fun q member => ?_⟩
    rcases Multiset.mem_cons.1 member with same | before
    · cases same
      exact Or.inr (Nat.le_refl _)
    · exact Or.inl before
  | recycle node unique =>
    exact .of_sizes (Heap.sizes_clear _ _) fun q member => Multiset.mem_cons_of_mem (by simpa using member)
  | loosen node => exact .of_sizes rfl fun q member => Multiset.mem_cons_of_mem (by simpa using member)
  | release shared => exact .of_sizes (Heap.sizes_setUses _ _ _) fun q => Multiset.mem_cons_of_mem
  | freeData last => exact .of_sizes (by simp [Heap.release]) fun q => Multiset.mem_cons_of_mem
  | freeQueue last => exact .of_sizes (by simp [Heap.release]) fun q => Multiset.mem_cons_of_mem
  | setItems live f => exact .of_sizes (Heap.sizes_setItems _ _ _) fun q => id
  | pushBack found part => exact .of_sizes (Heap.sizes_pushBack _ _ _) fun q => id

theorem Move.queues {before after : Books} (move : Move before after) : QueuesKept before after := by
  cases move with
  | quiet quiet => exact quiet.queues
  | hand kind =>
    refine .of_sizes rfl fun q member => ?_
    rcases kind with rfl | rfl <;> simpa using member
  | setBlob found vector => exact .of_sizes (Heap.sizes_setBlob _ _ _) fun q => id
  | whole found => exact .of_sizes (Heap.sizes_setUses _ _ _) fun q member => by simpa using member

theorem Moves.queues {before after : Books} (moves : Moves before after) : QueuesKept before after := by
  induction moves with
  | refl => exact .of_sizes rfl fun q => id
  | tail _ last ih =>
    obtain ⟨longer, found⟩ := last.queues
    refine ⟨Nat.le_trans ih.1 longer, fun q member => ?_⟩
    rcases found q member with before | past
    · exact ih.2 q before
    · exact Or.inr (Nat.le_trans ih.1 past)

theorem Moves.live {before after : Books} (moves : Moves before after) (owned : Owned before.1 before.2)
    (inside : q < before.1.queues.length) (live : after.1.uses (.queue q) ≠ 0) : before.1.uses (.queue q) ≠ 0 := by
  rw [(moves.owned owned).counted, ← Nat.pos_iff_ne_zero, Multiset.countP_pos] at live
  obtain ⟨ref, member, node⟩ := live
  have queue : ref = .queue q := by
    cases ref <;> simp_all [Ref.node]
  rcases moves.queues.2 q (queue ▸ member) with found | past
  · exact owned.uses_ne_zero found
  · exact absurd inside (Nat.not_lt.2 past)

theorem step_live {s t : State} (owned : Owned s.heap s.ledger) {op : Op} (run : step s op = some t)
    (inside : q < s.heap.queues.length) (live : t.heap.uses (.queue q) ≠ 0) : s.heap.uses (.queue q) ≠ 0 :=
  (step_moves owned run).live owned inside live

end IpcBond.Pool
