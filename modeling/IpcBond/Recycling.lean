import IpcBond.PoolKeepers
import IpcBond.Library.Machine

/-! Recycling. As long as nothing lets go of an item that it alone keeps, every item that a pool has made is in its
queue or a handle refers to it. Only the destructor of a handle returns an item: an assignment over the last handle
frees it, and so do two destructors that each find the pointer of the other. -/

namespace IpcBond.Pool
open Library.RefCount Library.Machine

namespace State

def liveItems (s : State) : List Item :=
  s.handles.filterMap (·.bind Handle.item) ++
    s.heap.data.flatMap fun cell => cell.buffer.filterMap fun part => part.map Part.item

/-- A destructor that is running has yet to let go of the item or to return it. -/
def Returning (s : State) (item : Item) : Prop := ∃ thread ∈ s.threads, ∃ task ∈ thread, task.item = some item

def Found (s : State) (item : Item) : Prop :=
  item.data ∈ s.heap.itemsAt item.queue ∨ item ∈ s.liveItems ∨ s.Returning item

variable {s t : State} {d q : Nat} {item : Item}

theorem mem_liveItems : item ∈ s.liveItems ↔
    (∃ handle, some handle ∈ s.handles ∧ handle.item = some item) ∨
      ∃ e part, some part ∈ s.heap.bufferAt e ∧ part.item = item := by
  rw [liveItems, List.mem_append, List.mem_filterMap, List.mem_flatMap]
  refine or_congr ⟨?_, ?_⟩ ⟨?_, ?_⟩
  · rintro ⟨slot, member, same⟩
    obtain ⟨handle, rfl, same⟩ := Option.bind_eq_some_iff.1 same
    exact ⟨handle, member, same⟩
  · rintro ⟨handle, member, same⟩
    exact ⟨some handle, member, same⟩
  · rintro ⟨cell, member, inside⟩
    obtain ⟨slot, stored, same⟩ := List.mem_filterMap.1 inside
    obtain ⟨part, rfl, known⟩ := Option.map_eq_some_iff.1 same
    obtain ⟨e, present⟩ := List.mem_iff_getElem?.1 member
    refine ⟨e, part, ?_, known⟩
    rw [Heap.bufferAt, lookup_of_some _ _ present]
    exact stored
  · rintro ⟨e, part, stored, same⟩
    obtain ⟨cell, present⟩ := exists_of_lookup_ne _ _ (List.ne_nil_of_mem stored)
    rw [Heap.bufferAt, lookup_of_some _ _ present] at stored
    exact ⟨cell, List.mem_of_getElem? present, List.mem_filterMap.2 ⟨some part, stored, congrArg some same⟩⟩

theorem found_iff_has : s.Found item ↔ s.Has item := by
  rw [Found, mem_liveItems]
  constructor
  · rintro (queued | (⟨handle, found, same⟩ | ⟨e, part, found, rfl⟩) | ⟨thread, running, task, found, same⟩)
    · exact .queued queued
    · exact .handle found same
    · exact .stored found
    · exact .task running found same
  · intro has
    cases has with
    | handle found same => exact Or.inr (Or.inl (Or.inl ⟨_, found, same⟩))
    | stored found => exact Or.inr (Or.inl (Or.inr ⟨_, _, found, rfl⟩))
    | task running found same => exact Or.inr (Or.inr ⟨_, running, _, found, same⟩)
    | queued found => exact Or.inl found

theorem keeps_iff {pointer : Option Item} {refs : Ledger} (count : ∀ e, keepers refs e = pins pointer e) :
    (∃ ref ∈ refs, ref.keeps = some d) ↔ ∃ item, pointer = some item ∧ item.data = d := by
  rw [← keepers_pos, count, pins_pos]

theorem has_of_keepers (kept : 0 < keepers s.ledger d) : ∃ item, s.Has item ∧ item.data = d := by
  obtain ⟨ref, member, keeps⟩ := keepers_pos.1 kept
  simp only [ledger, outside, Heap.refs, Heap.total, Multiset.mem_add, mem_gather] at member
  rcases member with ((⟨slot, found, refers⟩ | ⟨pool, _, refers⟩) | ⟨thread, running, task, found, refers⟩) |
    ⟨cell, present, slot, found, refers⟩ | ⟨cell, present, e, found, refers⟩
  · cases slot with
    | none => exact absurd refers (Multiset.notMem_zero _)
    | some handle =>
      obtain ⟨item, same, data⟩ := (keeps_iff fun e => keepers_handle e handle).1 ⟨ref, refers, keeps⟩
      exact ⟨item, .handle found same, data⟩
  · cases pool with
    | none => exact absurd refers (Multiset.notMem_zero _)
    | some q =>
      rw [Multiset.mem_singleton.1 refers] at keeps
      cases keeps
  · obtain ⟨item, same, data⟩ := (keeps_iff fun e => keepers_task e task).1 ⟨ref, refers, keeps⟩
    exact ⟨item, .task running found same, data⟩
  · obtain ⟨item, same, data⟩ := (keeps_iff fun e => keepers_partRefs e slot).1 ⟨ref, refers, keeps⟩
    obtain ⟨part, rfl, rfl⟩ := Option.map_eq_some_iff.1 same
    obtain ⟨e, there⟩ := List.mem_iff_getElem?.1 present
    have stored : some part ∈ s.heap.bufferAt e := by rwa [Heap.bufferAt, lookup_of_some _ _ there]
    exact ⟨part.item, .stored stored, data⟩
  · rw [Multiset.mem_singleton.1 refers] at keeps
    cases keeps
    obtain ⟨q, there⟩ := List.mem_iff_getElem?.1 present
    have queued : d ∈ s.heap.itemsAt q := by rwa [Heap.itemsAt, lookup_of_some _ _ there]
    exact ⟨⟨d, q⟩, .queued queued, rfl⟩

theorem keepers_of_has (has : s.Has item) : 0 < keepers s.ledger item.data := by
  rw [keepers_pos]
  simp only [ledger, outside, Heap.refs, Heap.total, Multiset.mem_add, mem_gather]
  cases has with
  | @handle handle _ found same =>
    obtain ⟨ref, refers, keeps⟩ := (keeps_iff fun e => keepers_handle e handle).2 ⟨item, same, rfl⟩
    exact ⟨ref, Or.inl (Or.inl (Or.inl ⟨some handle, found, refers⟩)), keeps⟩
  | @stored e part found =>
    obtain ⟨cell, present⟩ := exists_of_lookup_ne _ _ (List.ne_nil_of_mem found)
    rw [Heap.bufferAt, lookup_of_some _ _ present] at found
    have refers : .part part ∈ partRefs (some part) := by simp [partRefs]
    exact ⟨.part part, Or.inr (Or.inl ⟨cell, List.mem_of_getElem? present, some part, found, refers⟩), rfl⟩
  | @task thread task _ running found same =>
    obtain ⟨ref, refers, keeps⟩ := (keeps_iff fun e => keepers_task e task).2 ⟨item, same, rfl⟩
    exact ⟨ref, Or.inl (Or.inr ⟨thread, running, task, found, refers⟩), keeps⟩
  | @queued q d found =>
    obtain ⟨cell, present⟩ := exists_of_lookup_ne _ _ (List.ne_nil_of_mem found)
    rw [Heap.itemsAt, lookup_of_some _ _ present] at found
    exact ⟨.parked d, Or.inr (Or.inr ⟨cell, List.mem_of_getElem? present, d, found, Multiset.mem_singleton_self _⟩), rfl⟩

end State

namespace State

variable {s t : State} {d q : Nat}

theorem makes_new {p popped : Nat} {item : Item} {u : State} (run : s.take p popped = some (item, u))
    (made : q ∈ s.makes p popped) : some q ∈ s.pools ∧ s.makes p popped = [q] ∧ item.data = s.heap.data.length := by
  obtain ⟨r, pool, run⟩ := Option.bind_eq_some_iff.1 run
  simp only [makes, pool] at made ⊢
  split at made
  · next absent =>
    rw [absent] at run
    cases run
    cases List.mem_singleton.1 made
    exact ⟨List.mem_of_getElem? (pools_of_poolAt pool), if_pos absent, rfl⟩
  · cases made

theorem keepers_addHandle {handle : Handle} {item : Item} (same : handle.item = some item) :
    0 < keepers (s.addHandle handle).ledger item.data := by
  rw [ledger_addHandle, keepers_add, keepers_handle, same]
  simp [pins]

theorem created_new {op : Op} (run : step s op = some t) (made : q ∈ s.created op) :
    some q ∈ s.pools ∧ s.created op = [q] ∧ 0 < keepers t.ledger s.heap.data.length := by
  cases op with
  | takeBlob p popped =>
    obtain ⟨⟨item, u⟩, taken, same⟩ := Option.bind_eq_some_iff.1 run
    cases same
    obtain ⟨pool, one, last⟩ := makes_new taken made
    exact ⟨pool, one, last ▸ keepers_addHandle rfl⟩
  | takeBuffer p popped =>
    obtain ⟨⟨item, u⟩, taken, same⟩ := Option.bind_eq_some_iff.1 run
    cases same
    obtain ⟨pool, one, last⟩ := makes_new taken made
    exact ⟨pool, one, last ▸ keepers_addHandle rfl⟩
  | _ => cases made

theorem pool_live (owned : Owned s.heap s.ledger) (pool : some q ∈ s.pools) : s.heap.uses (.queue q) ≠ 0 :=
  owned.uses_ne_zero (mem_ledger_of_pool pool)

end State

structure Trace where
  state : State
  made : List Nat
  deriving DecidableEq, Repr

namespace Trace

def start : Trace := ⟨.initial, []⟩

def step (t : Trace) (op : Op) : Option Trace :=
  (Pool.step t.state op).map fun state => ⟨state, t.made ++ t.state.created op⟩

def spares (t : Trace) (op : Op) : Bool := t.state.spares op

/-- Every item is at home where it refers to its queue, and it is kept while that is in use. -/
structure Homed (t : Trace) : Prop where
  owned : Owned t.state.heap t.state.ledger
  length : t.made.length = t.state.heap.data.length
  queues : ∀ q ∈ t.made, q < t.state.heap.queues.length
  homes : ∀ item, t.state.Has item → t.made[item.data]? = some item.queue
  kept : ∀ d q, t.made[d]? = some q → t.state.heap.uses (.queue q) ≠ 0 → 0 < keepers t.state.ledger d

variable {t u : Trace} {d q : Nat}

theorem start_homed : start.Homed := by
  refine ⟨initial_owned, rfl, fun q member => ?_, fun item has => ?_, fun d q found _ => ?_⟩
  · cases member
  · cases has with
    | handle found => cases found
    | @stored d part found => cases (found : some part ∈ ([] : List (Option Part)))
    | task running => cases running
    | @queued q d found => cases (found : d ∈ ([] : List Nat))
  · cases found

theorem Homed.moved (homed : t.Homed) {s : State} {made : List Nat} (moves : Moves t.state.books s.books)
    (brings : t.state.Brings s made)
    (new : ∀ q ∈ made, some q ∈ t.state.pools ∧ made = [q] ∧ 0 < keepers s.ledger t.state.heap.data.length)
    (keeps : ∀ d q, t.made[d]? = some q → s.heap.uses (.queue q) ≠ 0 → 0 < keepers t.state.ledger d →
      0 < keepers s.ledger d) : Homed ⟨s, t.made ++ made⟩ := by
  have owned := homed.owned
  have past := homed.length
  have inside : ∀ q ∈ t.made ++ made, q < t.state.heap.queues.length := by
    intro q member
    rcases List.mem_append.1 member with before | last
    · exact homed.queues q before
    · obtain ⟨cell, there⟩ := Heap.queue_of_uses (State.pool_live owned (new q last).1)
      exact (List.getElem?_eq_some_iff.1 there).1
  refine ⟨moves.owned owned, ?_, fun q member => ?_, fun item has => ?_, fun d q found live => ?_⟩
  · rw [List.length_append, past, brings.data]
  · exact Nat.lt_of_lt_of_le (inside q member) brings.queues
  · rcases brings.items item has with before | ⟨last, one⟩
    · have home := homed.homes item before
      rw [List.getElem?_append_left (List.getElem?_eq_some_iff.1 home).1, home]
    · rw [(new item.queue one).2.1, last, ← past, List.getElem?_concat_length]
  · rcases Nat.lt_or_ge d t.made.length with before | after
    · rw [List.getElem?_append_left before] at found
      have live' := moves.live owned (homed.queues q (List.mem_of_getElem? found)) live
      exact keeps d q found live (homed.kept d q found live')
    · rw [List.getElem?_append_right after] at found
      obtain ⟨_, one, kept⟩ := new q (List.mem_of_getElem? found)
      rw [one, List.getElem?_singleton] at found
      split at found
      · next first =>
        have last : d = t.state.heap.data.length := by omega
        rwa [last]
      · cases found

/-- A step leaves the items where they are at home. -/
theorem Homed.step (homed : t.Homed) {op : Op} (spares : t.spares op) (taken : t.step op = some u) : u.Homed := by
  obtain ⟨s, run, rfl⟩ := Option.map_eq_some_iff.1 taken
  refine homed.moved (step_moves homed.owned run) (step_brings run) (fun q made => State.created_new run made)
    fun d q found live kept => step_keepers homed.owned run spares (fun p member => ?_) live kept
  have home := homed.homes ⟨d, p⟩ (.queued member)
  exact Option.some.inj (home.symm.trans found)

theorem homed_of_run (run : Run step (· = start) (fun t op => t.spares op) t) : t.Homed :=
  run.invariant (fun _ same => same ▸ start_homed) fun _ _ _ homed spares taken => homed.step spares taken

theorem Homed.found (homed : t.Homed) (live : t.state.heap.uses (.queue q) ≠ 0) (made : t.made[d]? = some q) :
    t.state.Found ⟨d, q⟩ := by
  obtain ⟨item, has, rfl⟩ := State.has_of_keepers (homed.kept d q made live)
  have home := homed.homes item has
  rw [made] at home
  cases home
  exact State.found_iff_has.2 has

theorem Homed.queued_apart (homed : t.Homed) (queued : d ∈ t.state.heap.itemsAt q) {item : Item}
    (member : item ∈ t.state.liveItems) : item.data ≠ d := by
  have free := (State.queued_spec homed.owned (State.queued_of_itemsAt queued)).2.1
  rcases State.mem_liveItems.1 member with ⟨handle, found, same⟩ | ⟨e, part, stored, rfl⟩
  · exact free.handles handle item found same
  · exact free.stored e part stored

theorem Homed.itemsAt_nodup (homed : t.Homed) : (t.state.heap.itemsAt q).Nodup := by
  refine List.nodup_iff_count_le_one.2 fun d => ?_
  by_cases member : d ∈ t.state.heap.itemsAt q
  · obtain ⟨cell, present⟩ := exists_of_lookup_ne _ _ (List.ne_nil_of_mem member)
    have inside : (t.state.heap.itemsAt q).Sublist t.state.queued := by
      rw [Heap.itemsAt, lookup_of_some _ _ present, State.queued]
      simpa using (List.singleton_sublist.2 (List.mem_of_getElem? present)).flatMap QueueCell.items
    calc (t.state.heap.itemsAt q).count d
        ≤ t.state.queued.count d := inside.count_le d
      _ = 1 := (State.queued_spec homed.owned (State.queued_of_itemsAt member)).1
      _ ≤ 1 := Nat.le_refl 1
  · rw [List.count_eq_zero_of_not_mem member]
    exact Nat.zero_le 1

/-- Once the destructors have come to an end, a pool has made as many items as its queue holds and handles refer to. -/
theorem Homed.count (homed : t.Homed) (live : t.state.heap.uses (.queue q) ≠ 0) (idle : t.state.Idle) :
    t.made.count q = (t.state.heap.itemsAt q).length + (t.state.liveItems.filter (·.queue = q)).toFinset.card := by
  have places : (Finset.range t.made.length).filter (fun d => t.made[d]? = some q) =
      (t.state.heap.itemsAt q).toFinset ∪ (t.state.liveItems.filter (·.queue = q)).toFinset.image Item.data := by
    ext d
    simp only [Finset.mem_filter, Finset.mem_range, Finset.mem_union, Finset.mem_image, List.mem_toFinset,
      List.mem_filter, decide_eq_true_eq]
    constructor
    · rintro ⟨_, made⟩
      rcases homed.found live made with queued | handle | ⟨thread, running, task, found, _⟩
      · exact Or.inl queued
      · exact Or.inr ⟨_, ⟨handle, rfl⟩, rfl⟩
      · rw [idle thread running] at found
        cases found
    · have inside : ∀ item, t.state.Found item → item.data < t.made.length ∧ t.made[item.data]? = some item.queue :=
        fun item found =>
          have home := homed.homes item (State.found_iff_has.1 found)
          ⟨(List.getElem?_eq_some_iff.1 home).1, home⟩
      rintro (queued | ⟨item, ⟨handle, rfl⟩, rfl⟩)
      · exact inside ⟨d, q⟩ (Or.inl queued)
      · exact inside item (Or.inr (Or.inl handle))
  have apart : Disjoint (t.state.heap.itemsAt q).toFinset
      ((t.state.liveItems.filter (·.queue = q)).toFinset.image Item.data) := by
    rw [Finset.disjoint_left]
    intro d queued member
    obtain ⟨item, handle, same⟩ := Finset.mem_image.1 member
    exact homed.queued_apart (List.mem_toFinset.1 queued) (List.mem_filter.1 (List.mem_toFinset.1 handle)).1 same
  have items : Set.InjOn Item.data ((t.state.liveItems.filter (·.queue = q)).toFinset : Set Item) := by
    intro item member other member' same
    have queue := (List.mem_filter.1 (List.mem_toFinset.1 member)).2
    have queue' := (List.mem_filter.1 (List.mem_toFinset.1 member')).2
    simp only [decide_eq_true_eq] at queue queue'
    cases item
    cases other
    simp_all
  rw [count_eq_card_places, places, Finset.card_union_of_disjoint apart, Finset.card_image_of_injOn items,
    List.toFinset_card_of_nodup homed.itemsAt_nodup]

end Trace

/-- In a run that spares every item, each item that was made for a queue in use is free, and then empty and only
there, or a handle refers to it, or a destructor that is running has it; so once no destructor runs, a pool that
exists has made as many items as its queue holds and handles refer to. The first step that spares one not loses it. -/
theorem recycling_loses_none {t : Trace} (run : Run Trace.step (· = .start) (fun t op => t.spares op) t) :
    (∀ q, some q ∈ t.state.pools → t.state.heap.uses (.queue q) ≠ 0) ∧
      (∀ q, t.state.heap.uses (.queue q) ≠ 0 →
        (∀ d, t.made[d]? = some q →
          (d ∈ t.state.heap.itemsAt q ∧ t.state.queued.count d = 1 ∧ t.state.Unaliased d ∧ t.state.Clean d) ∨
            ⟨d, q⟩ ∈ t.state.liveItems ∨ t.state.Returning ⟨d, q⟩) ∧
        (t.state.Idle → t.made.count q =
          (t.state.heap.itemsAt q).length + (t.state.liveItems.filter (·.queue = q)).toFinset.card)) ∧
      ∀ op u, t.step op = some u → t.spares op = false →
        ∃ item, t.state.letsGo op = some item ∧ u.made[item.data]? = some item.queue ∧
          u.state.heap.uses (.queue item.queue) ≠ 0 ∧ ¬ u.state.Found item := by
  have homed := Trace.homed_of_run run
  refine ⟨fun q pool => State.pool_live homed.owned pool, fun q live => ⟨fun d made => ?_, homed.count live⟩,
    fun op u taken careless => ?_⟩
  · rcases homed.found live made with queued | handle | returning
    · exact Or.inl ⟨queued, State.queued_spec homed.owned (State.queued_of_itemsAt queued)⟩
    · exact Or.inr (Or.inl handle)
    · exact Or.inr (Or.inr returning)
  · obtain ⟨s, stepped, rfl⟩ := Option.map_eq_some_iff.1 taken
    obtain ⟨item, lets, has, gone, queue⟩ := State.lost stepped careless
    have home := homed.homes item has
    refine ⟨item, lets, ?_, ?_, fun found => ?_⟩
    · exact (List.getElem?_append_left (List.getElem?_eq_some_iff.1 home).1).trans home
    · exact ((step_moves homed.owned stepped).owned homed.owned).uses_ne_zero queue
    · have kept := State.keepers_of_has (State.found_iff_has.1 found)
      rw [gone] at kept
      exact Nat.lt_irrefl 0 kept

def retaking : List Op := recycling ++ [.takeBlob 0 1]

theorem recycling_loses_none_retaken :
    ∃ t : Trace, retaking.foldlM (guarded Trace.step Trace.spares) .start = some t ∧ t.made = [0, 0] ∧
      t.made.count 0 = (t.state.heap.itemsAt 0).length + (t.state.liveItems.filter (·.queue = 0)).toFinset.card := by
  have known : (retaking.foldlM (guarded Trace.step Trace.spares) .start).map
      (fun t : Trace => (t.made, t.state.pools, t.state.threads)) = some ([0, 0], [some 0], [[], [], [], []]) := by decide
  obtain ⟨t, taken, same⟩ := Option.map_eq_some_iff.1 known
  obtain ⟨made, rest⟩ := Prod.mk.inj same
  obtain ⟨pools, threads⟩ := Prod.mk.inj rest
  have start : Run Trace.step (· = .start) (fun t op => t.spares op) .start := .initial rfl
  obtain ⟨inUse, complete, _⟩ := recycling_loses_none (start.tested _ taken)
  have idle : t.state.Idle := by
    rw [State.Idle, threads]
    decide
  exact ⟨t, taken, made, (complete 0 (inUse 0 (by rw [pools]; decide))).2 idle⟩

def reset (kind : Handle.Kind) (target temporary : Nat) : List Op :=
  [.construct kind, .assign target temporary, .destroy temporary]

theorem reset_spares {s : State} {i : Nat} {handle : Handle} {item : Item} (found : s.handleAt i = some handle)
    (held : handle.item = some item) :
    (s.addHandle (.null handle.kind)).spares (.assign i s.handles.length) = decide (2 ≤ keepers s.ledger item.data) := by
  have there : (s.addHandle (.null handle.kind)).handleAt i = some handle := by
    have slot := State.handles_of_handleAt found
    have before := (List.getElem?_eq_some_iff.1 slot).1
    rw [State.handleAt, State.addHandle, List.getElem?_append_left before, slot, Option.join_some]
  have null : (s.addHandle (.null handle.kind)).handleAt s.handles.length = some (.null handle.kind) := by
    rw [State.handleAt, State.addHandle, List.getElem?_concat_length, Option.join_some]
  have none_ : (Handle.null handle.kind).item = none := by
    cases handle.kind <;> rfl
  rw [State.spares, State.letsGo, there, null]
  simp only [none_, held, Option.map_some, Option.map_none, reduceCtorEq, if_false, Option.all_some]
  rw [State.ledger_addHandle, keepers_add, keepers_handle, none_, pins]
  simp

def resetting : List Op :=
  [.createPool, .takeBlob 0 0] ++ reset .blob 0 1 ++ [.runThread 0, .runThread 0, .runThread 1]

/-- Its item is then neither in the queue nor referred to, and the next `TakeBlob` makes another one. -/
theorem recycling_loses_reset :
    ∃ t, resetting.foldlM Trace.step .start = some t ∧ some 0 ∈ t.state.pools ∧ t.state.Idle ∧ t.made.count 0 = 1 ∧
      t.state.heap.itemsAt 0 = [] ∧ t.state.liveItems = [] ∧ t.state.created (.takeBlob 0 0) = [0] := by
  have known : (resetting.foldlM Trace.step .start).map (fun t : Trace => (t.state.pools, t.state.threads, t.made)) =
      some ([some 0], [[], []], [0]) := by decide
  have left : (resetting.foldlM Trace.step .start).map (fun t : Trace =>
      (t.state.heap.itemsAt 0, t.state.liveItems, t.state.created (.takeBlob 0 0))) = some ([], [], [0]) := by decide
  obtain ⟨t, taken, same⟩ := Option.map_eq_some_iff.1 known
  rw [taken] at left
  simp only [Option.map_some, Option.some.injEq, Prod.mk.injEq] at same left
  obtain ⟨pools, threads, made⟩ := same
  refine ⟨t, taken, ?_, ?_, ?_, left⟩
  · rw [pools]
    decide
  · rw [State.Idle, threads]
    decide
  · rw [made]
    decide

end IpcBond.Pool
