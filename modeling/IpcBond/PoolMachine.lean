import IpcBond.OutputBuffer
import IpcBond.Library.RefCount

/-! `BufferPool` as a machine. Any number of parties share the items and their queues; a step is
one operation of a party on its handles, or one action of a destructor that is running. -/

namespace IpcBond.Pool
open Library.RefCount

/-- `ItemBase`: `m_data` and `m_queue`, which are set together. -/
structure Item where
  data : Nat
  queue : Nat
  deriving DecidableEq, Repr

/-- A `ConstBlob` that is not null: two iterators into the `m_blob` of its item, with the elements
that this held when the blob was made. -/
structure Part where
  item : Item
  elements : List Byte
  beginAt : Nat
  endAt : Nat
  valid : ConstBlob.Valid ⟨some ⟨item.data, elements⟩, beginAt, endAt⟩
  deriving DecidableEq, Repr

namespace Part

def view (part : Part) : ConstBlob := ⟨some ⟨part.item.data, part.elements⟩, part.beginAt, part.endAt⟩

def whole (item : Item) (vector : ByteVector) : Part :=
  ⟨item, vector.elements, 0, vector.size, Blob.toConst_valid item.data vector⟩

def slice (part : Part) (beginAt endAt : Nat) : Option Part :=
  if valid : ConstBlob.Valid ⟨some ⟨part.item.data, part.elements⟩, beginAt, endAt⟩ then
    some { part with beginAt := beginAt, endAt := endAt, valid := valid }
  else none

end Part

def view (part : Option Part) : ConstBlob := (part.map Part.view).getD ConstBlob.null

structure DataCell where
  uses : Nat
  blob : ByteVector
  buffer : List (Option Part)
  deriving DecidableEq, Repr

structure QueueCell where
  uses : Nat
  items : List Nat
  deriving DecidableEq, Repr

inductive Handle where
  | blob (item : Option Item)
  | buffer (item : Option Item)
  | constBlob (part : Option Part)
  | constBuffer (item : Option Item)
  deriving DecidableEq, Repr

namespace Handle

def item : Handle → Option Item
  | blob item => item
  | buffer item => item
  | constBlob part => part.map Part.item
  | constBuffer item => item

inductive Kind where
  | blob
  | buffer
  | constBlob
  | constBuffer
  deriving DecidableEq, Repr

def kind : Handle → Kind
  | .blob _ => .blob
  | .buffer _ => .buffer
  | .constBlob _ => .constBlob
  | .constBuffer _ => .constBuffer

def isConst (handle : Handle) : Bool := handle.kind = .constBlob ∨ handle.kind = .constBuffer

def null : Kind → Handle
  | .blob => blob none
  | .buffer => buffer none
  | .constBlob => constBlob none
  | .constBuffer => constBuffer none

end Handle

/-- What a destructor that is running has yet to do. -/
inductive Task where
  | destroy (handle : Handle)
  | handOver (item : Item)
  | releaseQueue (queue : Nat)
  | releaseData (data : Nat)
  deriving DecidableEq, Repr

inductive Node where
  | data (data : Nat)
  | queue (queue : Nat)
  deriving DecidableEq, Repr

structure Heap where
  data : List DataCell
  queues : List QueueCell
  deriving DecidableEq, Repr

namespace Heap

variable (heap : Heap)

def uses : Node → Nat
  | .data d => lookup DataCell.uses 0 heap.data d
  | .queue q => lookup QueueCell.uses 0 heap.queues q

def blobAt (d : Nat) : ByteVector := lookup DataCell.blob .empty heap.data d

def bufferAt (d : Nat) : List (Option Part) := lookup DataCell.buffer [] heap.data d

def itemsAt (q : Nat) : List Nat := lookup QueueCell.items [] heap.queues q

def setUses (f : Nat → Nat) : Node → Heap
  | .data d => { heap with data := heap.data.modify d fun cell => { cell with uses := f cell.uses } }
  | .queue q => { heap with queues := heap.queues.modify q fun cell => { cell with uses := f cell.uses } }

def acquire (node : Node) : Heap := heap.setUses (· + 1) node

def release (node : Node) : Heap := heap.setUses (· - 1) node

def setBlob (d : Nat) (vector : ByteVector) : Heap :=
  { heap with data := heap.data.modify d fun cell => { cell with blob := vector } }

def pushBack (d : Nat) (part : Option Part) : Heap :=
  { heap with data := heap.data.modify d fun cell => { cell with buffer := cell.buffer ++ [part] } }

def clear (d : Nat) : Heap :=
  { heap with data := heap.data.modify d fun cell => { cell with
      blob := { cell.blob with size := 0, size_le := Nat.zero_le _ }
      buffer := [] } }

def setItems (q : Nat) (f : List Nat → List Nat) : Heap :=
  { heap with queues := heap.queues.modify q fun cell => { cell with items := f cell.items } }

def newData : Heap := { heap with data := heap.data ++ [⟨1, .empty, []⟩] }

def newQueue : Heap := { heap with queues := heap.queues ++ [⟨1, []⟩] }

def acquireItem : Option Item → Heap
  | some item => (heap.acquire (.data item.data)).acquire (.queue item.queue)
  | none => heap

def run : Task → Heap × List Task
  | .destroy handle =>
    match handle.item with
    | none => (heap, [])
    | some item =>
      if heap.uses (.data item.data) = 1 then
        (heap.clear item.data,
          (heap.bufferAt item.data).map (fun part => .destroy (.constBlob part)) ++ [.handOver item])
      else (heap, [.releaseQueue item.queue, .releaseData item.data])
  | .handOver item => (heap.setItems item.queue (· ++ [item.data]), [.releaseQueue item.queue])
  | .releaseQueue q =>
    let heap' := heap.release (.queue q)
    if heap'.uses (.queue q) = 0 then
      (heap'.setItems q fun _ => [], (heap.itemsAt q).map .releaseData)
    else (heap', [])
  | .releaseData d =>
    let heap' := heap.release (.data d)
    if heap'.uses (.data d) = 0 then
      (heap'.clear d, (heap.bufferAt d).map fun part => .destroy (.constBlob part))
    else (heap', [])

end Heap

/-- Everything that refers to the heap: the handles outside it, the implementations of the
pools with their queues, and the destructors that are running. -/
structure State where
  heap : Heap
  handles : List (Option Handle)
  pools : List (Option Nat)
  threads : List (List Task)
  deriving DecidableEq, Repr

namespace State

def initial : State := ⟨⟨[], []⟩, [], [], []⟩

variable (s : State)

def handleAt (i : Nat) : Option Handle := s.handles[i]?.join

def poolAt (p : Nat) : Option Nat := s.pools[p]?.join

def addHandle (handle : Handle) : State := { s with handles := s.handles ++ [some handle] }

def spawn (tasks : List Task) : State := { s with threads := s.threads ++ [tasks] }

def share (handle : Handle) : State :=
  { s with heap := s.heap.acquireItem handle.item }.addHandle handle

def createPool : State :=
  { s with heap := s.heap.newQueue, pools := s.pools ++ [some s.heap.queues.length] }

def destroyPool (p : Nat) : Option State := do
  let q ← s.poolAt p
  some ({ s with pools := s.pools.set p none }.spawn [.releaseQueue q])

/-- `Impl::Take`, and the copy of the queue pointer: `popped` is the element that `Pop` returns,
if there is one. -/
def take (p popped : Nat) : Option (Item × State) := do
  let q ← s.poolAt p
  match (s.heap.itemsAt q)[popped]? with
  | some d =>
    let heap := s.heap.setItems q fun items => items.eraseIdx popped
    some (⟨d, q⟩, { s with heap := heap.acquire (.queue q) })
  | none => some (⟨s.heap.data.length, q⟩, { s with heap := s.heap.newData.acquire (.queue q) })

def takeBlob (p popped : Nat) : Option State := do
  let (item, s) ← s.take p popped
  some (s.addHandle (.blob (some item)))

def takeBuffer (p popped : Nat) : Option State := do
  let (item, s) ← s.take p popped
  some (s.addHandle (.buffer (some item)))

def constBlob (i : Nat) : Option (Option Part) :=
  match s.handleAt i with
  | some (.constBlob part) => some part
  | some (.blob (some item)) => some (some (.whole item (s.heap.blobAt item.data)))
  | _ => none

def toConstBlob (i : Nat) : Option State := do
  let part ← s.constBlob i
  some (s.share (.constBlob part))

def toConstBuffer (i : Nat) : Option State :=
  match s.handleAt i with
  | some (.buffer item) => some (s.share (.constBuffer item))
  | _ => none

/-- `GetRange`. It throws, or where the sum of its arguments wraps its iterators may leave the
vector, which is undefined. -/
def getRange (i offset count : Nat) : Option State :=
  match s.handleAt i with
  | some (.constBlob part) =>
    match (view part).getRange offset count, part with
    | .error _, _ => none
    | .ok _, none => some (s.share (.constBlob none))
    | .ok range, some part => do
      let slice ← part.slice range.beginAt range.endAt
      some (s.share (.constBlob (some slice)))
  | _ => none

def bufferItem (i : Nat) : Option Item :=
  match s.handleAt i with
  | some (.buffer item) => item
  | some (.constBuffer item) => item
  | _ => none

def element (i index : Nat) : Option State := do
  let item ← s.bufferItem i
  let part ← (s.heap.bufferAt item.data)[index]?
  some (s.share (.constBlob part))

/-- Copy construction, and what is written as a move: the destructor that `ItemBase` declares
suppresses its move operations. -/
def copy (i : Nat) : Option State := do
  let handle ← s.handleAt i
  some (s.share handle)

/-- The pointers that an assignment replaces, which no destructor of `ItemBase` sees. -/
def replaced (handle : Handle) : List Task :=
  match handle.item with
  | some item => [.releaseData item.data, .releaseQueue item.queue]
  | none => []

def assign (target source : Nat) : Option State := do
  let old ← s.handleAt target
  let handle ← s.handleAt source
  if old.kind = handle.kind then
    some ({ s with
      heap := s.heap.acquireItem handle.item
      handles := s.handles.set target (some handle) }.spawn (replaced old))
  else none

def pushPart (buffer : Nat) (part : Option Part) : Option State :=
  match s.handleAt buffer with
  | some (.buffer (some item)) =>
    some { s with heap := (s.heap.acquireItem (part.map Part.item)).pushBack item.data part }
  | _ => none

def push (buffer blob : Nat) : Option State := do
  s.pushPart buffer (← s.constBlob blob)

def write (i : Nat) (vector : ByteVector) : Option State :=
  match s.handleAt i with
  | some (.blob (some item)) => some { s with heap := s.heap.setBlob item.data vector }
  | _ => none

def destroy (i : Nat) : Option State := do
  let handle ← s.handleAt i
  some ({ s with handles := s.handles.set i none }.spawn [.destroy handle])

def runThread (i : Nat) : Option State :=
  match s.threads[i]? with
  | some (task :: rest) =>
    let (heap, tasks) := s.heap.run task
    some { s with heap := heap, threads := s.threads.set i (tasks ++ rest) }
  | _ => none

end State

inductive Op where
  | createPool
  | destroyPool (pool : Nat)
  | takeBlob (pool popped : Nat)
  | takeBuffer (pool popped : Nat)
  | construct (kind : Handle.Kind)
  | toConstBlob (blob : Nat)
  | toConstBuffer (buffer : Nat)
  | getRange (blob offset count : Nat)
  | element (buffer index : Nat)
  | copy (handle : Nat)
  | assign (target source : Nat)
  | push (buffer blob : Nat)
  | write (blob : Nat) (vector : ByteVector)
  | destroy (handle : Nat)
  | runThread (thread : Nat)
  deriving DecidableEq, Repr

/-- One step, none where a handle is not of the kind that the operation is for. -/
def step (s : State) : Op → Option State
  | .createPool => some s.createPool
  | .destroyPool p => s.destroyPool p
  | .takeBlob p popped => s.takeBlob p popped
  | .takeBuffer p popped => s.takeBuffer p popped
  | .construct kind => some (s.addHandle (.null kind))
  | .toConstBlob i => s.toConstBlob i
  | .toConstBuffer i => s.toConstBuffer i
  | .getRange i offset count => s.getRange i offset count
  | .element i index => s.element i index
  | .copy i => s.copy i
  | .assign target source => s.assign target source
  | .push buffer blob => s.push buffer blob
  | .write i vector => s.write i vector
  | .destroy i => s.destroy i
  | .runThread i => s.runThread i

def steps (s : State) (ops : List Op) : Option State := ops.foldlM step s

def Reachable (s : State) : Prop := ∃ ops, steps .initial ops = some s

def Runs (s t : State) : Prop := ∃ i, s.runThread i = some t

end IpcBond.Pool
