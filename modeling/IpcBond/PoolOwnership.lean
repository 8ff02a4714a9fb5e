import IpcBond.PoolSteps

/-! What the ownership rules mean in every reachable state: a free item belongs to the queue
alone, and nothing is kept alive by a cycle. -/

namespace IpcBond.Pool
open Library.RefCount Relation

theorem initial_owned : Owned State.initial.heap State.initial.ledger := by
  have none : State.initial.ledger = 0 := rfl
  rw [none]
  refine ⟨fun n => ?_, fun d member => ?_, fun ref member => ?_, fun d _ => rfl, fun q _ => rfl⟩
  · cases n <;> rfl
  · simp at member
  · simp at member

theorem steps_owned {s t : State} (owned : Owned s.heap s.ledger) {ops : List Op} (run : steps s ops = some t) :
    Owned t.heap t.ledger := by
  induction ops generalizing s with
  | nil =>
    cases run
    exact owned
  | cons op rest ih =>
    obtain ⟨u, first, later⟩ := Option.bind_eq_some_iff.1 run
    exact ih ((step_moves owned first).owned owned) later

theorem Reachable.owned {s : State} (reached : Reachable s) : Owned s.heap s.ledger := by
  obtain ⟨ops, run⟩ := reached
  exact steps_owned initial_owned run

theorem pointers_mem {item : Option Item} {refs : Ledger} (pointers : Pointers item refs) {found : Item}
    (same : item = some found) : ∃ ref ∈ refs, ref.node = .data found.data := by
  cases pointers with
  | none => cases same
  | @some item ref node =>
    cases same
    exact ⟨ref, by simp, node⟩

namespace State

def queued (s : State) : List Nat := s.heap.queues.flatMap QueueCell.items

/-- No handle refers to the item, nor a blob stored in a buffer, nor a destructor that is running. -/
structure Unaliased (s : State) (d : Nat) : Prop where
  handles : ∀ handle item, some handle ∈ s.handles → handle.item = some item → item.data ≠ d
  stored : ∀ e part, some part ∈ s.heap.bufferAt e → part.item.data ≠ d
  running : ∀ thread ∈ s.threads, ∀ handle item, .destroy handle ∈ thread → handle.item = some item → item.data ≠ d

def Clean (s : State) (d : Nat) : Prop := (s.heap.blobAt d).elements = [] ∧ s.heap.bufferAt d = []

variable {s t : State} {d : Nat}

theorem elements_of_size {v : ByteVector} (empty : v.size = 0) : v.elements = [] := by
  rw [ByteVector.elements, empty, List.take_zero]

theorem gather_queues (cells : List QueueCell) :
    gather (fun cell : QueueCell => gather (fun d => ({.parked d} : Ledger)) cell.items) cells =
      (cells.flatMap QueueCell.items).map Ref.parked := by
  have items : ∀ items : List Nat, gather (fun d => ({.parked d} : Ledger)) items = items.map Ref.parked := by
    intro items
    induction items with
    | nil => rfl
    | cons d rest ih => rw [gather_cons, ih, List.map_cons, ← Multiset.cons_coe, Multiset.singleton_add]
  induction cells with
  | nil => rfl
  | cons cell rest ih => rw [gather_cons, ih, items, List.flatMap_cons, List.map_append, ← Multiset.coe_add]

theorem refs_queued (s : State) :
    s.heap.refs = gather (fun cell : DataCell => gather partRefs cell.buffer) s.heap.data + s.queued.map Ref.parked := by
  rw [Heap.refs, Heap.total, gather_queues]
  rfl

theorem parked_of_queued (member : d ∈ s.queued) : .parked d ∈ s.ledger := by
  rw [ledger, refs_queued, Multiset.mem_add, Multiset.mem_add, Multiset.mem_coe]
  exact Or.inr (Or.inr (List.mem_map_of_mem member))

theorem unaliased_of_parked (parked : ∀ ref ∈ s.ledger, ref.node = .data d → ref = .parked d) : s.Unaliased d := by
  have apart : ∀ refs : Ledger, (∀ ref ∈ refs, ref ∈ s.ledger) → (∀ ref ∈ refs, s.heap.Alias ref ref) →
      ∀ {item found}, Pointers item refs → item = some found → found.data ≠ d := by
    intro refs member alias_ item found pointers same equal
    obtain ⟨ref, inside, node⟩ := pointers_mem pointers same
    have is_parked := parked ref (member ref inside) (by rw [node, equal])
    exact (alias_ ref inside).not_parked d |>.1 is_parked
  refine ⟨fun handle item found same => ?_, fun e part found => ?_, fun thread running handle item found same => ?_⟩
  · obtain ⟨i, at_⟩ := List.mem_iff_getElem?.1 found
    have slot : s.handleAt i = some handle := by rw [handleAt, at_]; rfl
    exact apart handle.refs (fun _ => mem_ledger_of_handleAt slot) (handle.refs_alias _) handle.refs_pointers same
  · exact apart (partRefs (some part)) (fun _ => mem_ledger_of_bufferAt found) (partRefs_alias _ _)
      (partRefs_pointers (some part)) rfl
  · exact apart handle.refs (fun _ => mem_ledger_of_task running found) (handle.refs_alias _) handle.refs_pointers same

theorem queued_spec (owned : Owned s.heap s.ledger) (member : d ∈ s.queued) :
    s.queued.count d = 1 ∧ s.Unaliased d ∧ s.Clean d := by
  have parked := parked_of_queued member
  obtain ⟨unique, blob, buffer⟩ := owned.parked d parked
  refine ⟨?_, unaliased_of_parked fun ref found node => ?_, elements_of_size blob, buffer⟩
  · have once : s.queued.count d ≤ 1 := by
      rw [← unique, owned.counted]
      calc s.queued.count d
          ≤ (s.queued.map Ref.parked).countP fun ref => ref.node = .data d := by
            rw [List.countP_map, List.count]
            exact List.countP_mono_left fun e _ same => by simpa using same
        _ ≤ s.ledger.countP fun ref => ref.node = .data d := by
            rw [ledger, refs_queued, Multiset.countP_add, Multiset.countP_add, Multiset.coe_countP]
            omega
    have some_ : 0 < s.queued.count d := List.count_pos_iff.2 member
    omega
  · by_contra different
    exact owned.parked_alone parked found different node

/-- What `Take` returns: an item without other references, empty and left as it was. -/
theorem take_spec (owned : Owned s.heap s.ledger) {p popped : Nat} {item : Item}
    (run : s.take p popped = some (item, t)) :
    (∀ ref ∈ s.ledger, ref.node = .data item.data → ref = .parked item.data) ∧ s.Clean item.data ∧
      (∀ e, t.heap.blobAt e = s.heap.blobAt e) ∧ ∀ e, t.heap.bufferAt e = s.heap.bufferAt e := by
  obtain ⟨q, _, run⟩ := Option.bind_eq_some_iff.1 run
  split at run
  · next d found =>
    cases run
    have queue := List.mem_of_getElem? found
    obtain ⟨cell, present⟩ := exists_of_lookup_ne _ _ (List.ne_nil_of_mem queue)
    rw [Heap.itemsAt, lookup_of_some _ _ present] at queue
    have member : d ∈ s.queued := List.mem_flatMap.2 ⟨cell, List.mem_of_getElem? present, queue⟩
    refine ⟨fun ref found node => ?_, (queued_spec owned member).2.2, fun e => ?_, fun e => ?_⟩
    · by_contra different
      exact owned.parked_alone (parked_of_queued member) found different node
    · simp only [Heap.acquire, Heap.blobAt_setUses, Heap.blobAt_setItems]
    · simp only [Heap.acquire, Heap.bufferAt_setUses, Heap.bufferAt_setItems]
  · cases run
    have past := Nat.le_refl s.heap.data.length
    have absent : s.heap.uses (.data s.heap.data.length) = 0 := by
      rw [Heap.uses, lookup, List.getElem?_eq_none past]
      rfl
    refine ⟨fun ref found node => ?_, ⟨?_, Heap.bufferAt_past past⟩, fun e => ?_, fun e => ?_⟩
    · exact absurd (node ▸ absent) (owned.uses_ne_zero found)
    · rw [Heap.blobAt_past past]
      rfl
    · simp only [Heap.acquire, Heap.blobAt_setUses, Heap.blobAt_newData]
    · simp only [Heap.acquire, Heap.bufferAt_setUses, Heap.bufferAt_newData]

theorem takeHandle_spec (owned : Owned s.heap s.ledger) {p popped : Nat} {item : Item} {u : State}
    (run : s.take p popped = some (item, u)) {handle : Handle} {ref : Ref}
    (kind : ref = .blob item.data ∨ ref = .buffer item.data) (refs : handle.refs = {ref} + {.queue item.queue}) :
    s.Unaliased item.data ∧ item.data ∉ (u.addHandle handle).queued ∧ (u.addHandle handle).Clean item.data := by
  obtain ⟨parked, clean, blobs, buffers⟩ := take_spec owned run
  have owned' := (takeHandle_moves owned run kind refs).owned owned
  have held : ref ∈ (u.addHandle handle).ledger := by
    rw [ledger_addHandle, refs]
    simp
  refine ⟨unaliased_of_parked parked, fun member => ?_, ?_, ?_⟩
  · refine owned'.parked_alone (parked_of_queued member) held ?_ ?_
    · rcases kind with same | same <;> simp [same]
    · rcases kind with same | same <;> simp [same]
  · exact (congrArg ByteVector.elements (blobs item.data)).trans clean.1
  · exact (buffers item.data).trans clean.2

end State

/-- Exclusivity of the pool: free items belong to the queue alone and are empty, so what is
taken is empty and aliased by nothing. -/
theorem pool_exclusive {s : State} (reached : Reachable s) :
    (∀ d ∈ s.queued, s.queued.count d = 1 ∧ s.Unaliased d ∧ s.Clean d) ∧
      (∀ p popped t, step s (.takeBlob p popped) = some t → ∃ item,
        t.handles = s.handles ++ [some (.blob (some item))] ∧ s.Unaliased item.data ∧ item.data ∉ t.queued ∧
          t.Clean item.data) ∧
      ∀ p popped t, step s (.takeBuffer p popped) = some t → ∃ item,
        t.handles = s.handles ++ [some (.buffer (some item))] ∧ s.Unaliased item.data ∧ item.data ∉ t.queued ∧
          t.Clean item.data := by
  have owned := reached.owned
  refine ⟨fun d member => State.queued_spec owned member, fun p popped t run => ?_, fun p popped t run => ?_⟩
  · obtain ⟨⟨item, u⟩, taken, same⟩ := Option.bind_eq_some_iff.1 run
    cases same
    refine ⟨item, ?_, State.takeHandle_spec owned taken (Or.inl rfl) rfl⟩
    rw [(State.take_quiet owned taken).2]
    rfl
  · obtain ⟨⟨item, u⟩, taken, same⟩ := Option.bind_eq_some_iff.1 run
    cases same
    refine ⟨item, ?_, State.takeHandle_spec owned taken (Or.inr rfl) rfl⟩
    rw [(State.take_quiet owned taken).2]
    rfl

def recycling : List Op :=
  [.createPool, .takeBlob 0 0, .write 0 ⟨[5, 6], 2, by decide, by decide⟩, .takeBuffer 0 0, .push 1 0, .copy 0,
    .destroy 0, .destroy 2, .toConstBuffer 1, .destroy 1, .runThread 0, .runThread 1, .runThread 2, .runThread 0,
    .runThread 0, .runThread 1, .runThread 1, .runThread 2, .runThread 2, .destroy 3, .runThread 3, .runThread 3,
    .runThread 3, .runThread 3, .runThread 3, .runThread 3]

theorem pool_exclusive_recycled :
    ∃ s, steps .initial recycling = some s ∧ s.queued = [0, 1] ∧ s.Unaliased 0 ∧ s.Clean 0 ∧
      ∃ t item, step s (.takeBlob 0 1) = some t ∧ t.handles = s.handles ++ [some (.blob (some item))] ∧
        t.Clean item.data := by
  obtain ⟨s, run⟩ := Option.isSome_iff_exists.1 (by decide : (steps .initial recycling).isSome = true)
  have queued : s.queued = [0, 1] := by
    have both : (steps .initial recycling).map State.queued = some [0, 1] := by decide
    rw [run] at both
    exact Option.some.inj both
  obtain ⟨free, takeBlob, _⟩ := pool_exclusive ⟨recycling, run⟩
  obtain ⟨_, unaliased, clean⟩ := free 0 (by rw [queued]; decide)
  obtain ⟨t, taken⟩ : ∃ t, step s (.takeBlob 0 1) = some t := by
    have both : ((steps .initial recycling).bind fun s => step s (.takeBlob 0 1)).isSome = true := by decide
    rw [run] at both
    exact Option.isSome_iff_exists.1 both
  obtain ⟨item, handles, _, _, empty⟩ := takeBlob 0 1 t taken
  exact ⟨s, run, queued, unaliased, clean, t, item, taken, handles, empty⟩

end IpcBond.Pool
