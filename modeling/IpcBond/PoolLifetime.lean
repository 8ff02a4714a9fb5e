import IpcBond.PoolOwnership
import Mathlib.Data.Set.Finite.List

/-! Nothing leaks: references among the items and the queues form no cycle, and the destructors
that are running come to an end; so when pools and handles are gone, so is everything they held. -/

namespace IpcBond.Pool
open Library.RefCount Relation

/-- The ownership graph: a blob stored in an item refers to its own item and to its queue, and a
queue refers to the items in it. -/
inductive Heap.Points (heap : Heap) : Node → Node → Prop where
  | stored {d : Nat} {part : Part} (found : some part ∈ heap.bufferAt d) :
      Points heap (.data d) (.data part.item.data)
  | returns {d : Nat} {part : Part} (found : some part ∈ heap.bufferAt d) :
      Points heap (.data d) (.queue part.item.queue)
  | queued {q d : Nat} (found : d ∈ heap.itemsAt q) : Points heap (.queue q) (.data d)

def Heap.rank (heap : Heap) : Node → Nat
  | .data d => if heap.bufferAt d = [] then 0 else 2
  | .queue _ => 1

namespace State

variable {s t : State} {d q : Nat}

theorem queued_of_itemsAt (found : d ∈ s.heap.itemsAt q) : d ∈ s.queued := by
  obtain ⟨cell, present⟩ := exists_of_lookup_ne _ _ (List.ne_nil_of_mem found)
  rw [Heap.itemsAt, lookup_of_some _ _ present] at found
  exact List.mem_flatMap.2 ⟨cell, List.mem_of_getElem? present, found⟩

theorem rank_lower (owned : Owned s.heap s.ledger) {m n : Node} (points : s.heap.Points m n) :
    s.heap.rank n < s.heap.rank m := by
  cases points with
  | @stored d part found =>
    have member : .part part ∈ s.ledger := mem_ledger_of_bufferAt found (by simp [partRefs])
    have clean := (owned.blobs _ member part.item.data rfl).1
    simp only [Heap.rank, if_pos clean, if_neg (List.ne_nil_of_mem found)]
    decide
  | returns found =>
    simp only [Heap.rank, if_neg (List.ne_nil_of_mem found)]
    decide
  | @queued q d found =>
    have clean := (owned.parked d (parked_of_queued (queued_of_itemsAt found))).2.2
    simp only [Heap.rank, if_pos clean]
    decide

def Dropped (s : State) : Prop := (∀ slot ∈ s.handles, slot = none) ∧ ∀ pool ∈ s.pools, pool = none

def Idle (s : State) : Prop := ∀ thread ∈ s.threads, thread = []

theorem outside_eq_zero (dropped : s.Dropped) (idle : s.Idle) : s.outside = 0 := by
  rw [outside, gather_eq_zero slotRefs fun slot member => by rw [dropped.1 slot member, slotRefs],
    gather_eq_zero poolRefs fun pool member => by rw [dropped.2 pool member, poolRefs],
    gather_eq_zero _ fun thread member => by rw [idle thread member, gather_nil]]
  rfl

theorem points_of_refs (owned : Owned s.heap s.ledger) {ref : Ref} (member : ref ∈ s.heap.refs) :
    ∃ m, s.heap.Points m ref.node ∧ s.heap.uses m ≠ 0 := by
  rw [Heap.refs, Heap.total, Multiset.mem_add] at member
  rcases member with stored | queued
  · obtain ⟨cell, found, held⟩ := mem_gather.1 stored
    obtain ⟨part, blob, refers⟩ := mem_gather.1 held
    obtain ⟨d, present⟩ := List.mem_iff_getElem?.1 found
    cases part with
    | none => exact absurd refers (Multiset.notMem_zero _)
    | some part =>
      have inside : some part ∈ s.heap.bufferAt d := by
        rw [Heap.bufferAt, lookup_of_some _ _ present]
        exact blob
      refine ⟨.data d, ?_, fun gone => ?_⟩
      · simp only [partRefs, Multiset.mem_add, Multiset.mem_singleton] at refers
        rcases refers with rfl | rfl
        · exact .stored inside
        · exact .returns inside
      · rw [owned.data_gone d gone] at inside
        cases inside
  · obtain ⟨cell, found, held⟩ := mem_gather.1 queued
    obtain ⟨d, item, refers⟩ := mem_gather.1 held
    obtain ⟨q, present⟩ := List.mem_iff_getElem?.1 found
    have inside : d ∈ s.heap.itemsAt q := by
      rw [Heap.itemsAt, lookup_of_some _ _ present]
      exact item
    rw [Multiset.mem_singleton.1 refers]
    refine ⟨.queue q, .queued inside, fun gone => ?_⟩
    rw [owned.queue_gone q gone] at inside
    cases inside

theorem finite_sources (s : State) : {m | ∃ n, s.heap.Points m n}.Finite := by
  refine Set.Finite.subset (((List.range s.heap.data.length).map Node.data ++
    (List.range s.heap.queues.length).map Node.queue).finite_toSet) ?_
  rintro m ⟨n, points⟩
  have data : ∀ {d : Nat} {part : Option Part}, part ∈ s.heap.bufferAt d → d < s.heap.data.length := by
    intro d part found
    obtain ⟨cell, present⟩ := exists_of_lookup_ne _ _ (List.ne_nil_of_mem found)
    exact (List.getElem?_eq_some_iff.1 present).1
  cases points with
  | stored found => simpa using data found
  | returns found => simpa using data found
  | queued found =>
    obtain ⟨cell, present⟩ := exists_of_lookup_ne _ _ (List.ne_nil_of_mem found)
    simpa using (List.getElem?_eq_some_iff.1 present).1

theorem uses_eq_zero (owned : Owned s.heap s.ledger) (dropped : s.Dropped) (idle : s.Idle) (n : Node) :
    s.heap.uses n = 0 := by
  have inside : s.ledger = s.heap.refs := by rw [ledger, outside_eq_zero dropped idle, zero_add]
  have none := none_counted_of_acyclic (fun n => s.heap.uses n ≠ 0)
    (acyclic_of_rank s.heap.rank fun _ _ => rank_lower owned) s.finite_sources fun n counted => by
      rw [owned.counted, ← Nat.pos_iff_ne_zero, Multiset.countP_pos] at counted
      obtain ⟨ref, member, node⟩ := counted
      have node : ref.node = n := by simpa using node
      rw [← node]
      exact points_of_refs owned (inside ▸ member)
  exact not_not.1 (none n)

end State

def Task.weight : Task → Nat
  | .destroy _ => 4
  | .handOver _ => 3
  | .releaseQueue _ => 1
  | .releaseData _ => 1

def Heap.weight (heap : Heap) : Nat := heap.total (fun _ => 4) fun _ => 1

def State.weight (s : State) : Nat := gather (gather Task.weight) s.threads + s.heap.weight

theorem gather_destroy_weight (parts : List (Option Part)) :
    gather Task.weight (parts.map fun part => .destroy (.constBlob part)) = gather (fun _ => 4) parts :=
  gather_map _ _ _

theorem run_weight {heap heap' : Heap} {task : Task} {tasks : List Task}
    (live : ∀ ref ∈ task.refs, heap.uses ref.node ≠ 0) (run : heap.run task = (heap', tasks)) :
    gather Task.weight tasks + heap'.weight < task.weight + heap.weight := by
  cases Heap.ran run with
  | null => simp [Task.weight]
  | @recycle handle item same unique =>
    have cleared := heap.total_clear (fun _ => 4) (fun _ => 1) (d := item.data)
    rw [gather_append, gather_destroy_weight, gather_cons, gather_nil]
    simp only [Task.weight, Heap.weight]
    omega
  | letGo =>
    simp only [gather_cons, gather_nil, Task.weight, Heap.weight]
    omega
  | handOver item =>
    have queued := heap.total_enqueue (fun _ => 4) (fun _ => 1) (live (.queue item.queue) (by simp [Task.refs])) item.data
    simp only [gather_cons, gather_nil, Task.weight, Heap.weight] at queued ⊢
    omega
  | @freeQueue q last =>
    have cleared := (heap.release (.queue q)).total_clearItems (fun _ => 4) (fun _ => 1) (q := q)
    rw [Heap.release, Heap.total_setUses, Heap.itemsAt_setUses] at cleared
    have items : gather Task.weight ((heap.itemsAt q).map .releaseData) = gather (fun _ => 1) (heap.itemsAt q) :=
      gather_map _ _ _
    simp only [items, Task.weight, Heap.weight, Heap.release]
    omega
  | dropQueue =>
    simp only [gather_nil, Task.weight, Heap.weight, Heap.release, Heap.total_setUses]
    omega
  | @freeData d last =>
    have cleared := (heap.release (.data d)).total_clear (fun _ => 4) (fun _ => 1) (d := d)
    rw [Heap.release, Heap.total_setUses, Heap.bufferAt_setUses] at cleared
    rw [gather_destroy_weight]
    simp only [Task.weight, Heap.weight, Heap.release]
    omega
  | dropData =>
    simp only [gather_nil, Task.weight, Heap.weight, Heap.release, Heap.total_setUses]
    omega

namespace State

variable {s t : State}

theorem runs_weight (owned : Owned s.heap s.ledger) (runs : Runs s t) : t.weight < s.weight := by
  obtain ⟨i, run⟩ := runs
  unfold runThread at run
  split at run
  · next task rest found =>
    rcases ran : s.heap.run task with ⟨heap, tasks⟩
    rw [ran] at run
    cases run
    have live : ∀ ref ∈ task.refs, s.heap.uses ref.node ≠ 0 := fun ref member =>
      owned.uses_ne_zero (mem_ledger_of_task (List.mem_of_getElem? found) List.mem_cons_self member)
    have less := run_weight live ran
    have exchange := gather_set (gather Task.weight) found (tasks ++ rest)
    rw [gather_cons, gather_append] at exchange
    simp only [weight]
    omega
  · cases run

theorem runs_owned (owned : Owned s.heap s.ledger) (runs : Runs s t) : Owned t.heap t.ledger := by
  obtain ⟨i, run⟩ := runs
  exact (step_moves owned (show step s (.runThread i) = some t from run)).owned owned

/-- Destructors do not run for ever. -/
theorem runs_finite (owned : Owned s.heap s.ledger) : Acc (fun after before => Runs before after) s := by
  induction weight : s.weight using Nat.strong_induction_on generalizing s with
  | _ w ih =>
    subst weight
    exact ⟨_, fun t runs => ih _ (runs_weight owned runs) (runs_owned owned runs) rfl⟩

theorem runs_outside (runs : Runs s t) : t.handles = s.handles ∧ t.pools = s.pools := by
  obtain ⟨i, run⟩ := runs
  unfold runThread at run
  split at run
  · cases run
    exact ⟨rfl, rfl⟩
  · cases run

theorem dropped_of_runs (dropped : s.Dropped) (runs : ReflTransGen Runs s t) : t.Dropped := by
  induction runs with
  | refl => exact dropped
  | tail _ last ih =>
    obtain ⟨handles, pools⟩ := runs_outside last
    rw [Dropped, handles, pools]
    exact ih

theorem owned_of_runs (owned : Owned s.heap s.ledger) (runs : ReflTransGen Runs s t) : Owned t.heap t.ledger := by
  induction runs with
  | refl => exact owned
  | tail _ last ih => exact runs_owned ih last

theorem exists_runs (busy : ¬ s.Idle) : ∃ t, Runs s t := by
  simp only [Idle, not_forall] at busy
  obtain ⟨thread, member, unfinished⟩ := busy
  obtain ⟨i, at_⟩ := List.mem_iff_getElem?.1 member
  cases thread with
  | nil => exact absurd rfl unfinished
  | cons task rest => exact ⟨_, i, by rw [runThread, at_]⟩

/-- They all come to an end. -/
theorem exists_idle (owned : Owned s.heap s.ledger) : ∃ t, ReflTransGen Runs s t ∧ t.Idle := by
  induction runs_finite owned with
  | intro s _ ih =>
    by_cases idle : s.Idle
    · exact ⟨s, .refl, idle⟩
    · obtain ⟨t, runs⟩ := exists_runs idle
      obtain ⟨u, later, idle⟩ := ih t runs (runs_owned owned runs)
      exact ⟨u, .head runs later, idle⟩

end State

/-- Nothing leaks: the ownership graph has no cycle, destructors come to an end in whatever
order they run, and once no pool and no handle is left, every reference count is then zero. -/
theorem nothing_leaks {s : State} (reached : Reachable s) :
    (∀ n, ¬ TransGen s.heap.Points n n) ∧ Acc (fun after before => Runs before after) s ∧
      (∃ t, ReflTransGen Runs s t ∧ t.Idle) ∧
      (s.Dropped → ∀ t, ReflTransGen Runs s t → t.Idle → ∀ n, t.heap.uses n = 0) := by
  have owned := reached.owned
  refine ⟨acyclic_of_rank s.heap.rank fun _ _ => State.rank_lower owned, State.runs_finite owned,
    State.exists_idle owned, fun dropped t runs idle n => ?_⟩
  exact State.uses_eq_zero (State.owned_of_runs owned runs) (State.dropped_of_runs dropped runs) idle n

/-- The pool goes last, with two items in its queue. -/
theorem nothing_leaks_recycled :
    ∃ s, steps .initial (recycling ++ [.destroyPool 0]) = some s ∧ s.heap.uses (.data 0) = 1 ∧
      ∃ t, ReflTransGen Runs s t ∧ ∀ n, t.heap.uses n = 0 := by
  obtain ⟨s, run⟩ := Option.isSome_iff_exists.1
    (by decide : (steps .initial (recycling ++ [.destroyPool 0])).isSome = true)
  have left : (s.handles, s.pools) = ([none, none, none, none], [none]) ∧ s.heap.uses (.data 0) = 1 := by
    have all : (steps .initial (recycling ++ [.destroyPool 0])).map
        (fun s => ((s.handles, s.pools), s.heap.uses (.data 0))) = some (([none, none, none, none], [none]), 1) := by decide
    rw [run] at all
    exact Prod.ext_iff.1 (Option.some.inj all)
  obtain ⟨handles, pools⟩ := Prod.ext_iff.1 left.1
  have dropped : s.Dropped := by
    simp only at handles pools
    rw [State.Dropped, handles, pools]
    simp
  obtain ⟨_, _, ⟨t, runs, idle⟩, unused⟩ := nothing_leaks ⟨_, run⟩
  exact ⟨s, run, left.2, t, runs, unused dropped t runs idle⟩

end IpcBond.Pool
