import IpcBond.PoolMachine
import IpcBond.Library.RefCount

/-! The ledger of a pool: every reference to its items and queues, wherever it is kept. A step
of the machine is a sequence of moves on the heap and the ledger, and the ownership rules are
kept by each move. -/

namespace IpcBond.Pool
open Library.RefCount

/-- A reference, with the kind of pointer that holds it: one of a handle or of a stored
`ConstBlob`; one that is parked, in a queue or on its way there; or one about to be reset. -/
inductive Ref where
  | blob (data : Nat)
  | part (part : Part)
  | buffer (data : Nat)
  | parked (data : Nat)
  | loose (data : Nat)
  | queue (queue : Nat)
  deriving DecidableEq, Repr

abbrev Ledger := Multiset Ref

namespace Ref

def node : Ref → Node
  | .blob d => .data d
  | .part p => .data p.item.data
  | .buffer d => .data d
  | .parked d => .data d
  | .loose d => .data d
  | .queue q => .queue q

@[simp] theorem node_blob (d : Nat) : (blob d).node = .data d := rfl

@[simp] theorem node_buffer (d : Nat) : (buffer d).node = .data d := rfl

@[simp] theorem node_parked (d : Nat) : (parked d).node = .data d := rfl

@[simp] theorem node_loose (d : Nat) : (loose d).node = .data d := rfl

@[simp] theorem node_queue (q : Nat) : (queue q).node = .queue q := rfl

def blobOf : Ref → Option Nat
  | .blob d => some d
  | .part p => some p.item.data
  | _ => none

theorem node_of_blobOf {ref : Ref} {d : Nat} (blob : ref.blobOf = some d) : ref.node = .data d := by
  cases ref <;> simp_all [blobOf, node]

end Ref

def itemRefs (pointer : Nat → Ref) : Option Item → Ledger
  | some item => {pointer item.data} + {.queue item.queue}
  | none => 0

def partRefs : Option Part → Ledger
  | some part => {.part part} + {.queue part.item.queue}
  | none => 0

def Handle.refs : Handle → Ledger
  | .blob item => itemRefs .blob item
  | .buffer item => itemRefs .buffer item
  | .constBlob part => partRefs part
  | .constBuffer item => itemRefs .buffer item

def Task.refs : Task → Ledger
  | .destroy handle => handle.refs
  | .handOver item => {.parked item.data} + {.queue item.queue}
  | .releaseQueue q => {.queue q}
  | .releaseData d => {.loose d}

def Heap.total {M : Type*} [AddCommMonoid M] (stored : Option Part → M) (queued : Nat → M) (heap : Heap) : M :=
  gather (fun cell : DataCell => gather stored cell.buffer) heap.data +
    gather (fun cell : QueueCell => gather queued cell.items) heap.queues

def Heap.refs (heap : Heap) : Ledger := heap.total partRefs fun d => {.parked d}

def slotRefs : Option Handle → Ledger
  | some handle => handle.refs
  | none => 0

def poolRefs : Option Nat → Ledger
  | some q => {.queue q}
  | none => 0

def State.outside (s : State) : Ledger :=
  gather slotRefs s.handles + gather poolRefs s.pools + gather (gather Task.refs) s.threads

def State.ledger (s : State) : Ledger := s.outside + s.heap.refs

abbrev Books := Heap × Ledger

abbrev State.books (s : State) : Books := (s.heap, s.ledger)

namespace Heap

variable {heap : Heap} {d e q p : Nat} {m n : Node}

section Observations

theorem data_of_uses (live : heap.uses (.data d) ≠ 0) : ∃ cell, heap.data[d]? = some cell :=
  exists_of_lookup_ne _ _ live

theorem queue_of_uses (live : heap.uses (.queue q) ≠ 0) : ∃ cell, heap.queues[q]? = some cell :=
  exists_of_lookup_ne _ _ live

@[simp] theorem blobAt_setUses (f : Nat → Nat) : (heap.setUses f n).blobAt d = heap.blobAt d := by
  cases n with
  | data e => exact lookup_modify_same _ _ (by simp) _ _ _
  | queue q => rfl

@[simp] theorem bufferAt_setUses (f : Nat → Nat) : (heap.setUses f n).bufferAt d = heap.bufferAt d := by
  cases n with
  | data e => exact lookup_modify_same _ _ (by simp) _ _ _
  | queue q => rfl

@[simp] theorem itemsAt_setUses (f : Nat → Nat) : (heap.setUses f n).itemsAt q = heap.itemsAt q := by
  cases n with
  | data e => rfl
  | queue p => exact lookup_modify_same _ _ (by simp) _ _ _

theorem uses_setUses (live : heap.uses n ≠ 0) (f : Nat → Nat) :
    (heap.setUses f n).uses m = if n = m then f (heap.uses m) else heap.uses m := by
  cases n with
  | data d =>
    obtain ⟨cell, found⟩ := data_of_uses live
    cases m with
    | queue q => rfl
    | data e =>
      refine (lookup_modify _ _ found _ e).trans ?_
      simp only [Node.data.injEq]
      split
      · next same =>
        rw [← same, uses, lookup_of_some _ _ found]
      · rfl
  | queue q =>
    obtain ⟨cell, found⟩ := queue_of_uses live
    cases m with
    | data d => rfl
    | queue p =>
      refine (lookup_modify _ _ found _ p).trans ?_
      simp only [Node.queue.injEq]
      split
      · next same =>
        rw [← same, uses, lookup_of_some _ _ found]
      · rfl

@[simp] theorem uses_setBlob (vector : ByteVector) : (heap.setBlob d vector).uses n = heap.uses n := by
  cases n with
  | data e => exact lookup_modify_same _ _ (by simp) _ _ _
  | queue q => rfl

@[simp] theorem bufferAt_setBlob (vector : ByteVector) : (heap.setBlob d vector).bufferAt e = heap.bufferAt e :=
  lookup_modify_same _ _ (by simp) _ _ _

@[simp] theorem itemsAt_setBlob (vector : ByteVector) : (heap.setBlob d vector).itemsAt q = heap.itemsAt q := rfl

theorem blobAt_setBlob (live : heap.uses (.data d) ≠ 0) (vector : ByteVector) :
    (heap.setBlob d vector).blobAt e = if d = e then vector else heap.blobAt e := by
  obtain ⟨cell, found⟩ := data_of_uses live
  exact lookup_modify _ _ found _ e

@[simp] theorem uses_pushBack (part : Option Part) : (heap.pushBack d part).uses n = heap.uses n := by
  cases n with
  | data e => exact lookup_modify_same _ _ (by simp) _ _ _
  | queue q => rfl

@[simp] theorem blobAt_pushBack (part : Option Part) : (heap.pushBack d part).blobAt e = heap.blobAt e :=
  lookup_modify_same _ _ (by simp) _ _ _

@[simp] theorem itemsAt_pushBack (part : Option Part) : (heap.pushBack d part).itemsAt q = heap.itemsAt q := rfl

theorem bufferAt_pushBack (live : heap.uses (.data d) ≠ 0) (part : Option Part) :
    (heap.pushBack d part).bufferAt e = if d = e then heap.bufferAt d ++ [part] else heap.bufferAt e := by
  obtain ⟨cell, found⟩ := data_of_uses live
  rw [bufferAt, pushBack, lookup_modify _ _ found, bufferAt, bufferAt, lookup_of_some _ _ found]

@[simp] theorem uses_clear : (heap.clear d).uses n = heap.uses n := by
  cases n with
  | data e => exact lookup_modify_same _ _ (by simp) _ _ _
  | queue q => rfl

@[simp] theorem itemsAt_clear : (heap.clear d).itemsAt q = heap.itemsAt q := rfl

theorem bufferAt_clear : (heap.clear d).bufferAt e = if d = e then [] else heap.bufferAt e := by
  cases found : heap.data[d]? with
  | none =>
    have absent : heap.bufferAt d = [] := by rw [bufferAt, lookup, found]; rfl
    rw [clear, List.modify_eq_self (List.getElem?_eq_none_iff.1 found)]
    split
    · next same => rw [← same]; exact absent
    · rfl
  | some cell => exact lookup_modify _ _ found _ e

theorem blobAt_clear (other : d ≠ e) : (heap.clear d).blobAt e = heap.blobAt e := by
  rw [blobAt, clear, blobAt, lookup, lookup, List.getElem?_modify_ne _ _ other]

theorem size_clear : ((heap.clear d).blobAt d).size = 0 := by
  cases found : heap.data[d]? with
  | none =>
    rw [clear, List.modify_eq_self (List.getElem?_eq_none_iff.1 found), blobAt, lookup, found]
    rfl
  | some cell => rw [blobAt, clear, lookup_modify _ _ found, if_pos rfl]

@[simp] theorem uses_setItems (f : List Nat → List Nat) : (heap.setItems q f).uses n = heap.uses n := by
  cases n with
  | data e => rfl
  | queue p => exact lookup_modify_same _ _ (by simp) _ _ _

@[simp] theorem blobAt_setItems (f : List Nat → List Nat) : (heap.setItems q f).blobAt d = heap.blobAt d := rfl

@[simp] theorem bufferAt_setItems (f : List Nat → List Nat) : (heap.setItems q f).bufferAt d = heap.bufferAt d := rfl

theorem itemsAt_setItems_ne (other : q ≠ p) (f : List Nat → List Nat) :
    (heap.setItems q f).itemsAt p = heap.itemsAt p := by
  rw [itemsAt, setItems, itemsAt, lookup, lookup, List.getElem?_modify_ne _ _ other]

theorem itemsAt_clearItems : (heap.setItems q fun _ => []).itemsAt q = [] := by
  cases found : heap.queues[q]? with
  | none =>
    rw [setItems, List.modify_eq_self (List.getElem?_eq_none_iff.1 found), itemsAt, lookup, found]
    rfl
  | some cell => rw [itemsAt, setItems, lookup_modify _ _ found, if_pos rfl]

theorem uses_newData : heap.newData.uses n = if n = .data heap.data.length then 1 else heap.uses n := by
  cases n with
  | data e => simp only [uses, newData, lookup_append, Node.data.injEq, eq_comm]
  | queue q => rfl

@[simp] theorem blobAt_newData : heap.newData.blobAt d = heap.blobAt d := by
  rw [blobAt, newData, lookup_append]
  split
  · next last => rw [blobAt, lookup, List.getElem?_eq_none (by omega)]; rfl
  · rfl

@[simp] theorem bufferAt_newData : heap.newData.bufferAt d = heap.bufferAt d := by
  rw [bufferAt, newData, lookup_append]
  split
  · next last => rw [bufferAt, lookup, List.getElem?_eq_none (by omega)]; rfl
  · rfl

@[simp] theorem itemsAt_newData : heap.newData.itemsAt q = heap.itemsAt q := rfl

theorem uses_newQueue : heap.newQueue.uses n = if n = .queue heap.queues.length then 1 else heap.uses n := by
  cases n with
  | data e => rfl
  | queue q => simp only [uses, newQueue, lookup_append, Node.queue.injEq, eq_comm]

@[simp] theorem itemsAt_newQueue : heap.newQueue.itemsAt q = heap.itemsAt q := by
  rw [itemsAt, newQueue, lookup_append]
  split
  · next last => rw [itemsAt, lookup, List.getElem?_eq_none (by omega)]; rfl
  · rfl

theorem blobAt_past (past : heap.data.length ≤ d) : heap.blobAt d = .empty := by
  rw [blobAt, lookup, List.getElem?_eq_none past]
  rfl

theorem bufferAt_past (past : heap.data.length ≤ d) : heap.bufferAt d = [] := by
  rw [bufferAt, lookup, List.getElem?_eq_none past]
  rfl

end Observations

inductive Alias (heap : Heap) : Ref → Ref → Prop where
  | queue (q : Nat) : Alias heap (.queue q) (.queue q)
  | blob (d : Nat) : Alias heap (.blob d) (.blob d)
  | buffer (d : Nat) : Alias heap (.buffer d) (.buffer d)
  | range {part other : Part} (item : other.item = part.item) (elements : other.elements = part.elements) :
      Alias heap (.part part) (.part other)
  | whole (item : Item) : Alias heap (.blob item.data) (.part (.whole item (heap.blobAt item.data)))

end Heap

/-- The moves that change no `m_blob` but to clear one, and hand out no access to one. -/
inductive Quiet : Books → Books → Prop where
  | acquire {heap : Heap} {ledger : Ledger} {old new : Ref} (found : old ∈ ledger) (alias_ : heap.Alias old new)
      (copies : ∀ d, old = .blob d → new = old) : Quiet (heap, ledger) (heap.acquire new.node, new ::ₘ ledger)
  | newData (heap : Heap) (ledger : Ledger) :
      Quiet (heap, ledger) (heap.newData, .parked heap.data.length ::ₘ ledger)
  | newQueue (heap : Heap) (ledger : Ledger) :
      Quiet (heap, ledger) (heap.newQueue, .queue heap.queues.length ::ₘ ledger)
  | recycle {heap : Heap} {ledger : Ledger} {d : Nat} {ref : Ref} (node : ref.node = .data d)
      (unique : heap.uses (.data d) = 1) : Quiet (heap, ref ::ₘ ledger) (heap.clear d, .parked d ::ₘ ledger)
  | loosen {heap : Heap} {ledger : Ledger} {d : Nat} {ref : Ref} (node : ref.node = .data d) :
      Quiet (heap, ref ::ₘ ledger) (heap, .loose d ::ₘ ledger)
  | release {heap : Heap} {ledger : Ledger} {ref : Ref} (shared : heap.uses ref.node ≠ 1) :
      Quiet (heap, ref ::ₘ ledger) (heap.release ref.node, ledger)
  | freeData {heap : Heap} {ledger : Ledger} {d : Nat} (last : heap.uses (.data d) = 1) :
      Quiet (heap, .loose d ::ₘ ledger) ((heap.release (.data d)).clear d, ledger)
  | freeQueue {heap : Heap} {ledger : Ledger} {q : Nat} (last : heap.uses (.queue q) = 1) :
      Quiet (heap, .queue q ::ₘ ledger) ((heap.release (.queue q)).setItems q fun _ => [], ledger)
  | setItems {heap : Heap} {ledger : Ledger} {q : Nat} (live : heap.uses (.queue q) ≠ 0) (f : List Nat → List Nat) :
      Quiet (heap, ledger) (heap.setItems q f, ledger)
  | pushBack {heap : Heap} {ledger : Ledger} {d : Nat} (found : .buffer d ∈ ledger) (part : Option Part) :
      Quiet (heap, ledger) (heap.pushBack d part, ledger)

inductive Move : Books → Books → Prop where
  | quiet {before after : Books} (quiet : Quiet before after) : Move before after
  | hand {heap : Heap} {ledger : Ledger} {d : Nat} {ref : Ref} (kind : ref = .blob d ∨ ref = .buffer d) :
      Move (heap, .parked d ::ₘ ledger) (heap, ref ::ₘ ledger)
  | setBlob {heap : Heap} {ledger : Ledger} {d : Nat} (found : .blob d ∈ ledger) (vector : ByteVector) :
      Move (heap, ledger) (heap.setBlob d vector, ledger)
  | whole {heap : Heap} {ledger : Ledger} {item : Item} (found : .blob item.data ∈ ledger) :
      Move (heap, ledger)
        (heap.acquire (.data item.data), .part (.whole item (heap.blobAt item.data)) ::ₘ ledger)

/-- The ownership rules: counts are exact; what is parked is clean and not referred to again;
what is used as a blob holds no blobs, so it is not used as a buffer; what is gone holds nothing. -/
structure Owned (heap : Heap) (ledger : Ledger) : Prop where
  counted : ∀ n, heap.uses n = ledger.countP fun ref => ref.node = n
  parked : ∀ d, .parked d ∈ ledger →
    heap.uses (.data d) = 1 ∧ (heap.blobAt d).size = 0 ∧ heap.bufferAt d = []
  blobs : ∀ ref ∈ ledger, ∀ d, ref.blobOf = some d → heap.bufferAt d = [] ∧ .buffer d ∉ ledger
  data_gone : ∀ d, heap.uses (.data d) = 0 → heap.bufferAt d = []
  queue_gone : ∀ q, heap.uses (.queue q) = 0 → heap.itemsAt q = []

namespace Owned

variable {heap : Heap} {ledger : Ledger} (owned : Owned heap ledger)
include owned

theorem uses_ne_zero {ref : Ref} (found : ref ∈ ledger) : heap.uses ref.node ≠ 0 := by
  rw [owned.counted]
  exact (Multiset.countP_pos.2 ⟨ref, found, by simp⟩).ne'

theorem alone {ref other : Ref} {rest : Ledger} (split : ledger = ref ::ₘ rest)
    (unique : heap.uses ref.node = 1) (member : other ∈ rest) : other.node ≠ ref.node := by
  intro same
  have count := owned.counted ref.node
  rw [unique, split, Multiset.countP_cons_of_pos _ (by simp)] at count
  have positive : 0 < rest.countP fun ref' => ref'.node = ref.node :=
    Multiset.countP_pos.2 ⟨other, member, by simpa using same⟩
  omega

theorem parked_alone {d : Nat} {other : Ref} (found : .parked d ∈ ledger) (member : other ∈ ledger)
    (different : other ≠ .parked d) : other.node ≠ .data d := by
  obtain ⟨rest, split⟩ := Multiset.exists_cons_of_mem found
  rw [split, Multiset.mem_cons] at member
  exact owned.alone split (owned.parked d found).1 (member.resolve_left different)

end Owned

namespace Heap.Alias

variable {heap : Heap} {old new : Ref} (alias_ : heap.Alias old new)
include alias_

theorem node_eq : new.node = old.node := by
  cases alias_ with
  | range item _ => rw [Ref.node, Ref.node, item]
  | _ => rfl

theorem blobOf_eq : new.blobOf = old.blobOf := by
  cases alias_ with
  | range item _ => rw [Ref.blobOf, Ref.blobOf, item]
  | _ => rfl

theorem not_parked (d : Nat) : old ≠ .parked d ∧ new ≠ .parked d := by cases alias_ <;> simp

theorem of_buffer {d : Nat} (buffer : .buffer d = new) : .buffer d = old := by
  cases alias_ with
  | buffer => exact buffer
  | queue => cases buffer
  | blob => cases buffer
  | whole => cases buffer
  | range => cases buffer

end Heap.Alias

namespace Owned

variable {heap : Heap} {ledger : Ledger} {ref new : Ref} {d q : Nat}

theorem acquire (owned : Owned heap ledger) {old new : Ref} (found : old ∈ ledger) (alias_ : heap.Alias old new) :
    Owned (heap.acquire new.node) (new ::ₘ ledger) := by
  have live : heap.uses new.node ≠ 0 := by
    rw [alias_.node_eq]
    exact owned.uses_ne_zero found
  have uses := fun n => Heap.uses_setUses (m := n) live (· + 1)
  have buffer_mem : ∀ {d}, .buffer d ∈ new ::ₘ ledger → .buffer d ∈ ledger := by
    intro d member
    rcases Multiset.mem_cons.1 member with same | before
    · rw [alias_.of_buffer same]
      exact found
    · exact before
  refine ⟨fun n => ?_, fun d member => ?_, fun ref member d blob => ?_, fun d gone => ?_, fun q gone => ?_⟩
  · rw [Heap.acquire, uses, owned.counted n, Multiset.countP_cons]
    split <;> rfl
  · have before := (Multiset.mem_cons.1 member).resolve_left (alias_.not_parked d).2.symm
    have apart := owned.parked_alone before found (alias_.not_parked d).1
    rw [Heap.acquire, uses, if_neg (by rwa [alias_.node_eq]), Heap.blobAt_setUses, Heap.bufferAt_setUses]
    exact owned.parked d before
  · rw [Heap.acquire, Heap.bufferAt_setUses]
    rcases Multiset.mem_cons.1 member with same | before
    · obtain ⟨empty, apart⟩ := owned.blobs old found d (by rwa [same, alias_.blobOf_eq] at blob)
      exact ⟨empty, fun other => apart (buffer_mem other)⟩
    · obtain ⟨empty, apart⟩ := owned.blobs ref before d blob
      exact ⟨empty, fun other => apart (buffer_mem other)⟩
  · rw [Heap.acquire, uses] at gone
    rw [Heap.acquire, Heap.bufferAt_setUses]
    refine owned.data_gone d ?_
    split at gone
    · cases gone
    · exact gone
  · rw [Heap.acquire, uses] at gone
    rw [Heap.acquire, Heap.itemsAt_setUses]
    refine owned.queue_gone q ?_
    split at gone
    · cases gone
    · exact gone

theorem newData (owned : Owned heap ledger) : Owned heap.newData (.parked heap.data.length ::ₘ ledger) := by
  have absent : heap.uses (.data heap.data.length) = 0 := by
    rw [Heap.uses, lookup, List.getElem?_eq_none (Nat.le_refl _)]
    rfl
  have unused : ∀ ref ∈ ledger, ref.node ≠ .data heap.data.length :=
    fun ref member same => owned.uses_ne_zero member (by rw [same, absent])
  refine ⟨fun n => ?_, fun d member => ?_, fun ref member d blob => ?_, fun d gone => ?_, fun q gone => ?_⟩
  · rw [Heap.uses_newData, Multiset.countP_cons]
    split
    · next last => simp [last, ← owned.counted, absent]
    · next other => simp [← owned.counted, Ne.symm other]
  · rw [Heap.uses_newData, Heap.blobAt_newData, Heap.bufferAt_newData]
    rcases Multiset.mem_cons.1 member with same | before
    · cases same
      rw [if_pos rfl, Heap.blobAt_past (Nat.le_refl _), Heap.bufferAt_past (Nat.le_refl _)]
      exact ⟨rfl, rfl, rfl⟩
    · rw [if_neg (show Node.data d ≠ _ from unused _ before)]
      exact owned.parked d before
  · rcases Multiset.mem_cons.1 member with same | before
    · cases same
      cases blob
    · rw [Heap.bufferAt_newData, Multiset.mem_cons]
      exact ⟨(owned.blobs ref before d blob).1, fun other => (owned.blobs ref before d blob).2 (by simpa using other)⟩
  · rw [Heap.uses_newData] at gone
    rw [Heap.bufferAt_newData]
    split at gone
    · cases gone
    · exact owned.data_gone d gone
  · rw [Heap.uses_newData] at gone
    split at gone
    · cases gone
    · exact owned.queue_gone q gone

theorem newQueue (owned : Owned heap ledger) : Owned heap.newQueue (.queue heap.queues.length ::ₘ ledger) := by
  have absent : heap.uses (.queue heap.queues.length) = 0 := by
    rw [Heap.uses, lookup, List.getElem?_eq_none (Nat.le_refl _)]
    rfl
  have data : ∀ d, heap.newQueue.uses (.data d) = heap.uses (.data d) := fun d => by
    rw [Heap.uses_newQueue, if_neg (by simp)]
  refine ⟨fun n => ?_, fun d member => ?_, fun ref member d blob => ?_, fun d gone => ?_, fun q gone => ?_⟩
  · rw [Heap.uses_newQueue, Multiset.countP_cons]
    split
    · next last => simp [last, ← owned.counted, absent]
    · next other => simp [← owned.counted, Ne.symm other]
  · rw [data]
    exact owned.parked d (by simpa using member)
  · rcases Multiset.mem_cons.1 member with same | before
    · cases same
      cases blob
    · exact ⟨(owned.blobs ref before d blob).1, fun other => (owned.blobs ref before d blob).2 (by simpa using other)⟩
  · rw [data] at gone
    exact owned.data_gone d gone
  · rw [Heap.uses_newQueue] at gone
    rw [Heap.itemsAt_newQueue]
    split at gone
    · cases gone
    · exact owned.queue_gone q gone

theorem relabel (owned : Owned heap (ref ::ₘ ledger)) (node : new.node = ref.node)
    (parked : ∀ d, new ≠ .parked d) (blob : new.blobOf = none) (buffer : ∀ d, .buffer d = new → ref = .buffer d) :
    Owned heap (new ::ₘ ledger) := by
  refine ⟨fun n => ?_, fun d member => ?_, fun other member d used => ?_, owned.data_gone, owned.queue_gone⟩
  · rw [owned.counted, Multiset.countP_cons, Multiset.countP_cons, node]
  · exact owned.parked d (Multiset.mem_cons_of_mem ((Multiset.mem_cons.1 member).resolve_left (parked d).symm))
  · rcases Multiset.mem_cons.1 member with same | before
    · rw [same, blob] at used
      cases used
    · obtain ⟨empty, apart⟩ := owned.blobs other (Multiset.mem_cons_of_mem before) d used
      refine ⟨empty, fun found => apart ?_⟩
      rcases Multiset.mem_cons.1 found with same | elsewhere
      · rw [buffer d same]
        exact Multiset.mem_cons_self _ _
      · exact Multiset.mem_cons_of_mem elsewhere

theorem loosen (owned : Owned heap (ref ::ₘ ledger)) (node : ref.node = .data d) : Owned heap (.loose d ::ₘ ledger) :=
  owned.relabel node.symm (by simp) rfl (by simp)

/-- A parked item is handed out, as a blob or as a buffer. -/
theorem hand (owned : Owned heap (.parked d ::ₘ ledger)) (kind : new = .blob d ∨ new = .buffer d) :
    Owned heap (new ::ₘ ledger) := by
  obtain ⟨unique, _, empty⟩ := owned.parked d (Multiset.mem_cons_self _ _)
  have node : new.node = .data d := by rcases kind with same | same <;> rw [same] <;> rfl
  have apart : ∀ other ∈ ledger, other.node ≠ .data d := fun other member => owned.alone rfl unique member
  refine ⟨fun n => ?_, fun e member => ?_, fun other member e used => ?_, owned.data_gone, owned.queue_gone⟩
  · rw [owned.counted, Multiset.countP_cons, Multiset.countP_cons, node, Ref.node_parked]
  · refine owned.parked e (Multiset.mem_cons_of_mem ((Multiset.mem_cons.1 member).resolve_left ?_))
    rcases kind with same | same <;> simp [same]
  · rcases Multiset.mem_cons.1 member with same | before
    · have same_item : e = d := by
        have := Ref.node_of_blobOf used
        rw [same, node] at this
        simpa using this.symm
      rw [same_item]
      refine ⟨empty, fun found => ?_⟩
      rcases Multiset.mem_cons.1 found with buffer | elsewhere
      · rw [same, ← buffer] at used
        cases used
      · exact apart _ elsewhere rfl
    · obtain ⟨clean, unbuffered⟩ := owned.blobs other (Multiset.mem_cons_of_mem before) e used
      refine ⟨clean, fun found => ?_⟩
      rcases Multiset.mem_cons.1 found with buffer | elsewhere
      · have same_item : e = d := by
          have := congrArg Ref.node buffer
          rw [node] at this
          simpa using this
        exact apart _ before (by rw [Ref.node_of_blobOf used, same_item])
      · exact unbuffered (Multiset.mem_cons_of_mem elsewhere)

/-- The only reference to an item clears it and parks it. -/
theorem recycle (owned : Owned heap (ref ::ₘ ledger)) (node : ref.node = .data d) (unique : heap.uses (.data d) = 1) :
    Owned (heap.clear d) (.parked d ::ₘ ledger) := by
  have apart : ∀ other ∈ ledger, other.node ≠ .data d := by
    intro other member
    rw [← node]
    exact owned.alone rfl (by rwa [node]) member
  have other_item : ∀ {other : Ref} {e : Nat}, other ∈ ledger → other.node = .data e → d ≠ e :=
    fun member same equal => apart _ member (by rw [same, equal])
  refine ⟨fun n => ?_, fun e member => ?_, fun other member e used => ?_, fun e gone => ?_, fun q gone => ?_⟩
  · rw [Heap.uses_clear, owned.counted, Multiset.countP_cons, Multiset.countP_cons, node, Ref.node_parked]
  · rw [Heap.uses_clear, Heap.bufferAt_clear]
    rcases Multiset.mem_cons.1 member with same | before
    · cases same
      rw [if_pos rfl]
      exact ⟨unique, Heap.size_clear, rfl⟩
    · have different := other_item before (Ref.node_parked e)
      rw [if_neg different, Heap.blobAt_clear different]
      exact owned.parked e (Multiset.mem_cons_of_mem before)
  · rcases Multiset.mem_cons.1 member with same | before
    · rw [same] at used
      cases used
    · obtain ⟨clean, unbuffered⟩ := owned.blobs other (Multiset.mem_cons_of_mem before) e used
      rw [Heap.bufferAt_clear, if_neg (other_item before (Ref.node_of_blobOf used))]
      exact ⟨clean, fun found => unbuffered (Multiset.mem_cons_of_mem (by simpa using found))⟩
  · rw [Heap.uses_clear] at gone
    rw [Heap.bufferAt_clear]
    split
    · rfl
    · exact owned.data_gone e gone
  · rw [Heap.uses_clear] at gone
    exact owned.queue_gone q gone

theorem release_spec (owned : Owned heap (ref ::ₘ ledger)) :
    (∀ n, (heap.release ref.node).uses n = ledger.countP fun other => other.node = n) ∧
      (∀ n, (heap.release ref.node).uses n = 0 → heap.uses n = 0 ∨ heap.uses n = 1 ∧ n = ref.node) ∧
      ∀ d, .parked d ∈ ledger → ref.node ≠ .data d := by
  have live := owned.uses_ne_zero (Multiset.mem_cons_self ref ledger)
  have uses := fun n => Heap.uses_setUses (m := n) live (· - 1)
  refine ⟨fun n => ?_, fun n gone => ?_, fun d member same => ?_⟩
  · rw [Heap.release, uses, owned.counted, Multiset.countP_cons]
    split
    · exact Nat.add_sub_cancel _ _
    · rfl
  · rw [Heap.release, uses] at gone
    split at gone
    · next same =>
      subst same
      exact Or.inr ⟨by omega, rfl⟩
    · exact Or.inl gone
  · have unique := (owned.parked d (Multiset.mem_cons_of_mem member)).1
    exact owned.alone rfl (by rwa [same]) member same.symm

theorem release (owned : Owned heap (ref ::ₘ ledger)) (shared : heap.uses ref.node ≠ 1) :
    Owned (heap.release ref.node) ledger := by
  obtain ⟨counted, gone_cases, parked⟩ := owned.release_spec
  have gone_before : ∀ n, (heap.release ref.node).uses n = 0 → heap.uses n = 0 := by
    intro n gone
    rcases gone_cases n gone with before | ⟨last, same⟩
    · exact before
    · exact absurd (same ▸ last) shared
  have uses := fun n => Heap.uses_setUses (m := n) (owned.uses_ne_zero (Multiset.mem_cons_self ref ledger)) (· - 1)
  refine ⟨counted, fun d member => ?_, fun other member d used => ?_, fun d gone => ?_, fun q gone => ?_⟩
  · rw [Heap.release, uses, if_neg (parked d member), Heap.blobAt_setUses, Heap.bufferAt_setUses]
    exact owned.parked d (Multiset.mem_cons_of_mem member)
  · obtain ⟨clean, unbuffered⟩ := owned.blobs other (Multiset.mem_cons_of_mem member) d used
    rw [Heap.release, Heap.bufferAt_setUses]
    exact ⟨clean, fun found => unbuffered (Multiset.mem_cons_of_mem found)⟩
  · rw [Heap.release, Heap.bufferAt_setUses]
    exact owned.data_gone d (gone_before _ gone)
  · rw [Heap.release, Heap.itemsAt_setUses]
    exact owned.queue_gone q (gone_before _ gone)

theorem freeData (owned : Owned heap (.loose d ::ₘ ledger)) (last : heap.uses (.data d) = 1) :
    Owned ((heap.release (.data d)).clear d) ledger := by
  obtain ⟨counted, gone_cases, parked⟩ := owned.release_spec
  rw [Ref.node_loose] at counted gone_cases parked
  have apart : ∀ other ∈ ledger, other.node ≠ .data d := fun other member => owned.alone rfl last member
  have uses := fun n => Heap.uses_setUses (m := n) (owned.uses_ne_zero (Multiset.mem_cons_self (.loose d) ledger)) (· - 1)
  refine ⟨fun n => ?_, fun e member => ?_, fun other member e used => ?_, fun e gone => ?_, fun q gone => ?_⟩
  · rw [Heap.uses_clear]
    exact counted n
  · have different : d ≠ e := by
      rintro rfl
      exact parked d member rfl
    rw [Heap.uses_clear, Heap.blobAt_clear different, Heap.bufferAt_clear, if_neg different, Heap.release]
    rw [Ref.node_loose] at uses
    rw [uses, if_neg (by simpa using different), Heap.blobAt_setUses, Heap.bufferAt_setUses]
    exact owned.parked e (Multiset.mem_cons_of_mem member)
  · obtain ⟨clean, unbuffered⟩ := owned.blobs other (Multiset.mem_cons_of_mem member) e used
    have different : d ≠ e := by
      rintro rfl
      exact apart other member (Ref.node_of_blobOf used)
    rw [Heap.bufferAt_clear, if_neg different, Heap.release, Heap.bufferAt_setUses]
    exact ⟨clean, fun found => unbuffered (Multiset.mem_cons_of_mem found)⟩
  · rw [Heap.bufferAt_clear]
    split
    · rfl
    · next different =>
      rw [Heap.uses_clear] at gone
      rw [Heap.release, Heap.bufferAt_setUses]
      rcases gone_cases _ gone with before | ⟨_, same⟩
      · exact owned.data_gone e before
      · cases same
        exact absurd rfl different
  · rw [Heap.uses_clear] at gone
    rw [Heap.itemsAt_clear, Heap.release, Heap.itemsAt_setUses]
    rcases gone_cases _ gone with before | ⟨_, same⟩
    · exact owned.queue_gone q before
    · cases same

theorem freeQueue (owned : Owned heap (.queue q ::ₘ ledger)) :
    Owned ((heap.release (.queue q)).setItems q fun _ => []) ledger := by
  obtain ⟨counted, gone_cases, parked⟩ := owned.release_spec
  rw [Ref.node_queue] at counted gone_cases
  have uses := fun n => Heap.uses_setUses (m := n) (owned.uses_ne_zero (Multiset.mem_cons_self (.queue q) ledger)) (· - 1)
  rw [Ref.node_queue] at uses
  refine ⟨fun n => ?_, fun d member => ?_, fun other member d used => ?_, fun d gone => ?_, fun p gone => ?_⟩
  · rw [Heap.uses_setItems]
    exact counted n
  · rw [Heap.uses_setItems, Heap.blobAt_setItems, Heap.bufferAt_setItems, Heap.release, uses, if_neg (by simp),
      Heap.blobAt_setUses, Heap.bufferAt_setUses]
    exact owned.parked d (Multiset.mem_cons_of_mem member)
  · obtain ⟨clean, unbuffered⟩ := owned.blobs other (Multiset.mem_cons_of_mem member) d used
    rw [Heap.bufferAt_setItems, Heap.release, Heap.bufferAt_setUses]
    exact ⟨clean, fun found => unbuffered (Multiset.mem_cons_of_mem found)⟩
  · rw [Heap.uses_setItems] at gone
    rw [Heap.bufferAt_setItems, Heap.release, Heap.bufferAt_setUses]
    rcases gone_cases _ gone with before | ⟨_, same⟩
    · exact owned.data_gone d before
    · cases same
  · rw [Heap.uses_setItems] at gone
    by_cases same : q = p
    · rw [same]
      exact Heap.itemsAt_clearItems
    · rw [Heap.itemsAt_setItems_ne same, Heap.release, Heap.itemsAt_setUses]
      rcases gone_cases _ gone with before | ⟨_, equal⟩
      · exact owned.queue_gone p before
      · cases equal
        exact absurd rfl same

theorem setItems (owned : Owned heap ledger) (live : heap.uses (.queue q) ≠ 0) (f : List Nat → List Nat) :
    Owned (heap.setItems q f) ledger := by
  refine ⟨fun n => by rw [Heap.uses_setItems, owned.counted], fun d member => ?_, owned.blobs, fun d gone => ?_,
    fun p gone => ?_⟩
  · rw [Heap.uses_setItems]
    exact owned.parked d member
  · rw [Heap.uses_setItems] at gone
    exact owned.data_gone d gone
  · rw [Heap.uses_setItems] at gone
    rw [Heap.itemsAt_setItems_ne]
    · exact owned.queue_gone p gone
    · rintro rfl
      exact live gone

theorem pushBack (owned : Owned heap ledger) (found : .buffer d ∈ ledger) (part : Option Part) :
    Owned (heap.pushBack d part) ledger := by
  have live : heap.uses (.data d) ≠ 0 := owned.uses_ne_zero found
  refine ⟨fun n => by rw [Heap.uses_pushBack, owned.counted], fun e member => ?_, fun other member e used => ?_,
    fun e gone => ?_, fun q gone => ?_⟩
  · have different : d ≠ e := by
      rintro rfl
      exact owned.parked_alone member found (by simp) rfl
    rw [Heap.uses_pushBack, Heap.blobAt_pushBack, Heap.bufferAt_pushBack live, if_neg different]
    exact owned.parked e member
  · obtain ⟨clean, unbuffered⟩ := owned.blobs other member e used
    have different : d ≠ e := by
      rintro rfl
      exact unbuffered found
    rw [Heap.bufferAt_pushBack live, if_neg different]
    exact ⟨clean, unbuffered⟩
  · rw [Heap.uses_pushBack] at gone
    have different : d ≠ e := by
      rintro rfl
      exact live gone
    rw [Heap.bufferAt_pushBack live, if_neg different]
    exact owned.data_gone e gone
  · rw [Heap.uses_pushBack] at gone
    exact owned.queue_gone q gone

theorem setBlob (owned : Owned heap ledger) (found : .blob d ∈ ledger) (vector : ByteVector) :
    Owned (heap.setBlob d vector) ledger := by
  have live : heap.uses (.data d) ≠ 0 := owned.uses_ne_zero found
  refine ⟨fun n => by rw [Heap.uses_setBlob, owned.counted], fun e member => ?_, fun other member e used => ?_,
    fun e gone => ?_, fun q gone => ?_⟩
  · have different : d ≠ e := by
      rintro rfl
      exact owned.parked_alone member found (by simp) rfl
    rw [Heap.uses_setBlob, Heap.bufferAt_setBlob, Heap.blobAt_setBlob live, if_neg different]
    exact owned.parked e member
  · rw [Heap.bufferAt_setBlob]
    exact owned.blobs other member e used
  · rw [Heap.uses_setBlob] at gone
    rw [Heap.bufferAt_setBlob]
    exact owned.data_gone e gone
  · rw [Heap.uses_setBlob] at gone
    exact owned.queue_gone q gone

theorem quiet (owned : Owned heap ledger) {after : Books} (quiet : Quiet (heap, ledger) after) :
    Owned after.1 after.2 := by
  cases quiet with
  | acquire found alias_ => exact owned.acquire found alias_
  | newData => exact owned.newData
  | newQueue => exact owned.newQueue
  | recycle node unique => exact owned.recycle node unique
  | loosen node => exact owned.loosen node
  | release shared => exact owned.release shared
  | freeData last => exact owned.freeData last
  | freeQueue last => exact owned.freeQueue
  | setItems live f => exact owned.setItems live f
  | pushBack found part => exact owned.pushBack found part

/-- Every move keeps the ownership rules. -/
theorem move (owned : Owned heap ledger) {after : Books} (move : Move (heap, ledger) after) :
    Owned after.1 after.2 := by
  cases move with
  | quiet quiet => exact owned.quiet quiet
  | hand kind => exact owned.hand kind
  | setBlob found vector => exact owned.setBlob found vector
  | whole found => exact owned.acquire found (.whole _)

end Owned

end IpcBond.Pool
