import IpcBond.Recycling

/-! How many items a pool makes: as many as were in use at once when most were. An item is in use while a handle
refers to it or a destructor has it, and `Take` makes one only where its queue is empty. -/

namespace IpcBond.Pool
open Library.RefCount Library.Machine

namespace State

def returningItems (s : State) : List Item := s.threads.flatMap fun thread => thread.filterMap Task.item

def busy (s : State) (q : Nat) : Finset Item :=
  ((s.liveItems ++ s.returningItems).filter (·.queue = q)).toFinset

def popsFrom (s : State) (p popped : Nat) : Bool :=
  match s.poolAt p with
  | some q => decide (s.heap.itemsAt q = [] ∨ popped < (s.heap.itemsAt q).length)
  | none => true

def pops (s : State) : Op → Bool
  | .takeBlob p popped => s.popsFrom p popped
  | .takeBuffer p popped => s.popsFrom p popped
  | _ => true

variable {s t : State} {q : Nat} {item : Item}

theorem mem_returningItems : item ∈ s.returningItems ↔ s.Returning item := by
  simp only [returningItems, List.mem_flatMap, List.mem_filterMap, Returning]

theorem mem_busy : item ∈ s.busy q ↔ (item ∈ s.liveItems ∨ s.Returning item) ∧ item.queue = q := by
  simp only [busy, List.mem_toFinset, List.mem_filter, List.mem_append, mem_returningItems, decide_eq_true_eq]

theorem has_of_busy (member : item ∈ s.busy q) : s.Has item := by
  rcases (mem_busy.1 member).1 with handle | returning
  · exact found_iff_has.1 (Or.inr (Or.inl handle))
  · exact found_iff_has.1 (Or.inr (Or.inr returning))

theorem queued_not_returning (owned : Owned s.heap s.ledger) {d : Nat} (member : d ∈ s.queued)
    (returning : s.Returning item) : item.data ≠ d := by
  obtain ⟨thread, running, task, found, same⟩ := returning
  cases task with
  | destroy handle => exact (queued_spec owned member).2.1.running thread running handle item found same
  | handOver other =>
    cases same
    rintro rfl
    -- the reference of the queue and that of the destructor would be two
    have outside : .parked item.data ∈ s.outside := by
      rw [State.outside, Multiset.mem_add, mem_gather]
      exact Or.inr ⟨thread, running, mem_gather.2 ⟨.handOver item, found, by simp [Task.refs]⟩⟩
    have inside : .parked item.data ∈ s.heap.refs := by
      rw [refs_queued, Multiset.mem_add, Multiset.mem_coe]
      exact Or.inr (List.mem_map_of_mem member)
    have once := (owned.parked item.data (parked_of_queued member)).1
    have first := Multiset.countP_pos_of_mem (p := fun ref => ref.node = .data item.data) outside rfl
    have second := Multiset.countP_pos_of_mem (p := fun ref => ref.node = .data item.data) inside rfl
    rw [owned.counted, ledger, Multiset.countP_add] at once
    omega
  | releaseQueue p => cases same
  | releaseData e => cases same

theorem created_items {op : Op} (run : step s op = some t) (made : q ∈ s.created op) (p : Nat) :
    t.heap.itemsAt p = s.heap.itemsAt p := by
  have taken : ∀ {r popped : Nat} {item : Item} {u : State}, s.take r popped = some (item, u) →
      q ∈ s.makes r popped → u.heap.itemsAt p = s.heap.itemsAt p := by
    intro r popped item u run made
    obtain ⟨own, pool, run⟩ := Option.bind_eq_some_iff.1 run
    simp only [makes, pool] at made
    split at made
    · next absent =>
      rw [absent] at run
      cases run
      rw [Heap.acquire, Heap.itemsAt_setUses, Heap.itemsAt_newData]
    · cases made
  cases op with
  | takeBlob r popped =>
    obtain ⟨⟨item, u⟩, taking, same⟩ := Option.bind_eq_some_iff.1 run
    cases same
    have unchanged : u.heap.itemsAt p = s.heap.itemsAt p := taken taking made
    exact unchanged
  | takeBuffer r popped =>
    obtain ⟨⟨item, u⟩, taking, same⟩ := Option.bind_eq_some_iff.1 run
    cases same
    have unchanged : u.heap.itemsAt p = s.heap.itemsAt p := taken taking made
    exact unchanged
  | _ => cases made

theorem created_empty {op : Op} (pops : s.pops op) (made : q ∈ s.created op) : s.heap.itemsAt q = [] := by
  have making : ∀ {r popped : Nat}, s.popsFrom r popped → q ∈ s.makes r popped → s.heap.itemsAt q = [] := by
    intro r popped pops made
    rw [popsFrom] at pops
    rw [makes] at made
    split at made
    · next own pool =>
      rw [pool] at pops
      split at made
      · next absent =>
        cases List.mem_singleton.1 made
        rcases of_decide_eq_true pops with none | inside
        · exact none
        · exact absurd (List.getElem?_eq_none_iff.1 absent) (Nat.not_le.2 inside)
      · cases made
    · cases made
  cases op with
  | takeBlob r popped => exact making pops made
  | takeBuffer r popped => exact making pops made
  | _ => cases made

end State

namespace Trace

variable {t u : Trace} {q : Nat}

/-- A pool has made as many items as its queue holds and are in use. -/
theorem Homed.count_busy (homed : t.Homed) (live : t.state.heap.uses (.queue q) ≠ 0) :
    t.made.count q = (t.state.heap.itemsAt q).length + (t.state.busy q).card := by
  have home : ∀ item ∈ t.state.busy q, t.made[item.data]? = some q := fun item member =>
    (homed.homes item (State.has_of_busy member)).trans (congrArg some (State.mem_busy.1 member).2)
  have places : (Finset.range t.made.length).filter (fun d => t.made[d]? = some q) =
      (t.state.heap.itemsAt q).toFinset ∪ (t.state.busy q).image Item.data := by
    ext d
    simp only [Finset.mem_filter, Finset.mem_range, Finset.mem_union, Finset.mem_image, List.mem_toFinset]
    constructor
    · rintro ⟨_, made⟩
      rcases homed.found live made with queued | handle | returning
      · exact Or.inl queued
      · exact Or.inr ⟨⟨d, q⟩, State.mem_busy.2 ⟨Or.inl handle, rfl⟩, rfl⟩
      · exact Or.inr ⟨⟨d, q⟩, State.mem_busy.2 ⟨Or.inr returning, rfl⟩, rfl⟩
    · rintro (queued | ⟨item, member, rfl⟩)
      · have made := homed.homes ⟨d, q⟩ (.queued queued)
        exact ⟨(List.getElem?_eq_some_iff.1 made).1, made⟩
      · have made := home item member
        exact ⟨(List.getElem?_eq_some_iff.1 made).1, made⟩
  have apart : Disjoint (t.state.heap.itemsAt q).toFinset ((t.state.busy q).image Item.data) := by
    rw [Finset.disjoint_left]
    intro d queued member
    obtain ⟨item, inUse, same⟩ := Finset.mem_image.1 member
    have free := List.mem_toFinset.1 queued
    rcases (State.mem_busy.1 inUse).1 with handle | returning
    · exact homed.queued_apart free handle same
    · exact State.queued_not_returning homed.owned (State.queued_of_itemsAt free) returning same
  have one : Set.InjOn Item.data (t.state.busy q : Set Item) := by
    intro item member other member' same
    have queue := (State.mem_busy.1 member).2
    have queue' := (State.mem_busy.1 member').2
    cases item
    cases other
    simp_all
  rw [count_eq_card_places, places, Finset.card_union_of_disjoint apart, Finset.card_image_of_injOn one,
    List.toFinset_card_of_nodup homed.itemsAt_nodup]

theorem Homed.count_outside (homed : t.Homed) (outside : t.state.heap.queues.length ≤ q) :
    t.made.count q = 0 ∧ (t.state.busy q).card = 0 := by
  have absent : q ∉ t.made := fun member => absurd (homed.queues q member) (Nat.not_lt.2 outside)
  refine ⟨List.count_eq_zero_of_not_mem absent, Finset.card_eq_zero.2 (Finset.eq_empty_of_forall_notMem ?_)⟩
  intro item member
  have made := homed.homes item (State.has_of_busy member)
  rw [(State.mem_busy.1 member).2] at made
  exact absent (List.mem_of_getElem? made)

end Trace

structure Watch where
  trace : Trace
  peak : Nat

namespace Watch

def start : Watch := ⟨.start, 0⟩

def step (q : Nat) (w : Watch) (op : Op) : Option Watch :=
  (w.trace.step op).map fun trace => ⟨trace, max w.peak (trace.state.busy q).card⟩

/-- A step that spares every item, and for which a queue gives what it has. -/
def careful (w : Watch) (op : Op) : Bool := w.trace.spares op && w.trace.state.pops op

structure Exact (q : Nat) (w : Watch) : Prop where
  homed : w.trace.Homed
  outside : w.trace.state.heap.queues.length ≤ q → w.peak = 0
  exact_ : q < w.trace.state.heap.queues.length → w.trace.state.heap.uses (.queue q) ≠ 0 →
    w.trace.made.count q = w.peak

theorem start_exact (q : Nat) : start.Exact q := by
  refine ⟨Trace.start_homed, fun _ => rfl, fun inside => ?_⟩
  exact absurd inside (Nat.not_lt_zero q)

theorem Exact.step {q : Nat} {w v : Watch} (exact : w.Exact q) {op : Op} (careful : w.careful op)
    (taken : w.step q op = some v) : v.Exact q := by
  obtain ⟨spares, pops⟩ := Bool.and_eq_true_iff.1 careful
  obtain ⟨u, stepped, rfl⟩ := Option.map_eq_some_iff.1 taken
  have homed := exact.homed.step spares stepped
  obtain ⟨s, run, rfl⟩ := Option.map_eq_some_iff.1 stepped
  have brings := step_brings run
  refine ⟨homed, fun outside => ?_, fun inside live => ?_⟩
  · rw [exact.outside (Nat.le_trans brings.queues outside), (homed.count_outside outside).2, Nat.max_self]
  · have now := homed.count_busy live
    change (w.trace.made ++ w.trace.state.created op).count q = max w.peak (s.busy q).card
    change (w.trace.made ++ w.trace.state.created op).count q = (s.heap.itemsAt q).length + (s.busy q).card at now
    by_cases made : q ∈ w.trace.state.created op
    · -- all items were in use before, and the new one is as well
      obtain ⟨pool, one, _⟩ := State.created_new run made
      have before := State.pool_live exact.homed.owned pool
      obtain ⟨cell, there⟩ := Heap.queue_of_uses before
      have same := exact.exact_ (List.getElem?_eq_some_iff.1 there).1 before
      rw [one, List.count_append, same, List.count_singleton_self] at now ⊢
      rw [State.created_items run made, State.created_empty pops made, List.length_nil] at now
      omega
    · have same : (w.trace.made ++ w.trace.state.created op).count q = w.trace.made.count q := by
        rw [List.count_append, List.count_eq_zero_of_not_mem made, Nat.add_zero]
      rw [same] at now ⊢
      rcases Nat.lt_or_ge q w.trace.state.heap.queues.length with old | new
      · rw [exact.exact_ old (step_live exact.homed.owned run old live)] at now ⊢
        omega
      · rw [(exact.homed.count_outside new).1] at now ⊢
        rw [exact.outside new]
        omega

end Watch

/-- In a run that spares every item, and whose queues give what they have, a pool makes exactly as many items as were in
use at once when most of them were: their memory is bounded by the peak of what its clients hold. -/
theorem pool_makes_peak (q : Nat) {w : Watch} (run : Run (Watch.step q) (· = .start) (fun w op => w.careful op) w)
    (live : w.trace.state.heap.uses (.queue q) ≠ 0) : w.trace.made.count q = w.peak := by
  have exact : w.Exact q := run.invariant (fun _ same => same ▸ Watch.start_exact q)
    fun _ _ _ exact careful taken => exact.step careful taken
  obtain ⟨cell, there⟩ := Heap.queue_of_uses live
  exact exact.exact_ (List.getElem?_eq_some_iff.1 there).1 live

def watching : List Op :=
  [.createPool, .takeBlob 0 0, .takeBlob 0 0, .destroy 0, .runThread 0, .runThread 0, .runThread 0, .takeBlob 0 0]

theorem pool_makes_peak_two :
    ∃ w : Watch, watching.foldlM (guarded (Watch.step 0) Watch.careful) .start = some w ∧
      w.trace.made.count 0 = w.peak ∧ w.peak = 2 := by
  have known : (watching.foldlM (guarded (Watch.step 0) Watch.careful) .start).map
      (fun w : Watch => (w.peak, w.trace.state.heap.uses (.queue 0))) = some (2, 3) := by decide
  obtain ⟨w, taken, same⟩ := Option.map_eq_some_iff.1 known
  obtain ⟨peak, uses⟩ := Prod.mk.inj same
  have start : Run (Watch.step 0) (· = .start) (fun w op => w.careful op) .start := .initial rfl
  exact ⟨w, taken, pool_makes_peak 0 (start.tested watching taken) (by rw [uses]; decide), peak⟩

end IpcBond.Pool
