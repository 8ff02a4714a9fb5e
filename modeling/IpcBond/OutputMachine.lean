import IpcBond.PoolOwnership
import IpcBond.OutputEffects

/-! Any number of `OutputBuffer`s over one `BufferPool`, as a machine. A call is answered by its
pool as a whole, and what it does to the items of the pool is then done one effect at a time,
interleaved with the other parties. -/

namespace IpcBond.Pool
open OutputBuffer

abbrev PoolOver (memory : SharedMemory) := { pool : BufferPool // pool.memory = memory }

abbrev FormedOp := { op : WriteOp // op.WellFormed }

def Part.read (part : Part) (heap : Heap) : List Byte :=
  ConstBlob.bytes ⟨some ⟨part.item.data, (heap.blobAt part.item.data).elements⟩, part.beginAt, part.endAt⟩

def Part.range (part : Part) (blob : ConstBlob) : Option Part := do
  let range ← part.slice blob.beginAt blob.endAt
  if range.view = blob then some range else none

namespace State

/-- A handle is this `ConstBlob`, or a buffer holds it. -/
def Lives (s : State) (part : Part) : Prop :=
  some (.constBlob (some part)) ∈ s.handles ∨ ∃ cell ∈ s.heap.data, some part ∈ cell.buffer

instance (s : State) (part : Part) : Decidable (s.Lives part) :=
  inferInstanceAs (Decidable (_ ∨ _))

def copyTo (s : State) (ptr : Ptr) (bytes : List Byte) : Option State := do
  let d ← ptr.base
  let vector := s.heap.blobAt d
  if s.heap.uses (.data d) ≠ 0 ∧ ptr.offset + bytes.length ≤ vector.size then
    some { s with heap := s.heap.setBlob d (vector.store ptr.offset bytes) }
  else none

end State

/-- An `OutputBuffer`: its state after the last call, the handle that is its `m_blob`, the next
one being its `m_buffer`; the effects of the call that are still to come, and the blobs that it
was given; and whether `GetBuffer() &&` has been called. -/
structure Output where
  state : OutputBuffer
  slot : Nat
  todo : List Effect
  arguments : List Part
  moved : Bool
  deriving DecidableEq, Repr

namespace Output

/-- The pool answers as the call was told, and the arguments of the call are still there. -/
def Possible (o : Output) (s : State) (popped : Nat) : Effect → Prop
  | .take blob => (s.take 0 popped).map (fun (item, t) => ⟨some item.data, t.heap.blobAt item.data⟩) = some blob
  | .push .pushShared _ => ∀ part ∈ o.arguments, s.Lives part
  | _ => True

instance (o : Output) (s : State) (popped : Nat) (effect : Effect) : Decidable (o.Possible s popped effect) := by
  unfold Possible
  split <;> infer_instance

/-- An effect on the items of the pool, none where it is undefined. A blob that has been taken is
moved into `m_blob`, which copies it, and the temporary is destroyed. -/
def act (o : Output) (s : State) (popped : Nat) : Effect → Option State
  | .resize vector => s.write o.slot vector
  | .store ptr bytes => s.copyTo ptr bytes
  | .push .pushMerged _ => s.push (o.slot + 1) o.slot
  | .push _ blob => do
    let range ← o.arguments.findSome? (·.range blob)
    s.pushPart (o.slot + 1) (some range)
  | .take _ => do
    let (item, t) ← s.take 0 popped
    let u ← (t.addHandle (.blob (some item))).assign o.slot t.handles.length
    u.destroy t.handles.length

end Output

/-- What a client does with the `ConstBlob`s and `ConstBuffer`s that it holds, the `bond::blob`s
among them. It has no access to the `Blob` of an `OutputBuffer`, and of its `Buffer` it may read
the elements. -/
def State.Client (s : State) : Op → Prop
  | .construct kind => kind = .constBlob ∨ kind = .constBuffer
  | .toConstBuffer _ => True
  | .getRange _ _ _ => True
  | .element _ _ => True
  | .copy i => (s.handleAt i).any Handle.isConst
  | .assign target _ => (s.handleAt target).any Handle.isConst
  | .destroy i => (s.handleAt i).any Handle.isConst
  | .runThread _ => True
  | _ => False

instance (s : State) (op : Op) : Decidable (s.Client op) := by
  unfold State.Client
  split <;> infer_instance

/-- The pool, the outputs over it, and whether anything undefined has happened. -/
structure System where
  pool : State
  outputs : List (Option Output)
  undefined : Bool
  deriving DecidableEq, Repr

inductive Action (memory : SharedMemory) where
  | make (pool : PoolOver memory) (minBlobSize popped : Nat)
  | call (output : Nat) (pool : PoolOver memory) (op : FormedOp) (arguments : List Part)
  | finish (output : Nat) (pool : PoolOver memory)
  | act (output popped : Nat)
  | destroyOutput (output : Nat)
  | destroyPool
  | client (op : Op)

namespace System

def initial : System := ⟨State.initial.createPool, [], false⟩

variable (s : System)

def outputAt (i : Nat) : Option Output := s.outputs[i]?.join

def setOutput (i : Nat) (o : Option Output) : System := { s with outputs := s.outputs.set i o }

def make (pool : BufferPool) (minBlobSize popped : Nat) : Option System :=
  match OutputBuffer.make pool (members minBlobSize) with
  | .error _ _ => none
  | .ok _ state => do
    let t ← (s.pool.addHandle (.null .blob)).takeBuffer 0 popped
    some { s with
      pool := t
      outputs := s.outputs ++ [some ⟨state, s.pool.handles.length, state.effects, [], false⟩] }

def call (bond : BondCodec) (i : Nat) (pool : BufferPool) (op : WriteOp) (arguments : List Part) : Option System := do
  let o ← s.outputAt i
  if o.todo = [] ∧ o.moved = false ∧ (∀ part ∈ arguments, s.pool.Lives part) ∧
      ∀ blob ∈ op.sources, blob.item.isSome → ∃ part ∈ arguments, part.view = blob then
    match op.run pool bond o.state with
    | .error _ _ => none
    | .ok _ state => some (s.setOutput i (some { o with
        state := state
        todo := state.effects.drop o.state.effects.length
        arguments := arguments }))
  else none

/-- `GetBuffer() &&`. The `ConstBuffer` that it returns is made by `toConstBuffer`. -/
def finish (i : Nat) (pool : BufferPool) : Option System := do
  let o ← s.outputAt i
  if o.todo = [] ∧ o.moved = false then
    match getBufferMoved pool o.state with
    | .error _ _ => none
    | .ok _ state => some (s.setOutput i (some { o with
        state := state
        todo := state.effects.drop o.state.effects.length
        arguments := []
        moved := true }))
  else none

/-- The next effect of a call. -/
def act (i popped : Nat) : Option System := do
  let o ← s.outputAt i
  match o.todo with
  | [] => none
  | effect :: rest =>
    if o.Possible s.pool popped effect then
      match o.act s.pool popped effect with
      | some t => some { s.setOutput i (some { o with todo := rest }) with pool := t }
      | none => some { s with undefined := true }
    else none

def destroyOutput (i : Nat) : Option System := do
  let o ← s.outputAt i
  if o.todo = [] then
    let t ← s.pool.destroy (o.slot + 1)
    let u ← t.destroy o.slot
    some { s.setOutput i none with pool := u }
  else none

def destroyPool : Option System := do
  if ∀ o ∈ s.outputs, o.isNone then
    let t ← s.pool.destroyPool 0
    some { s with pool := t }
  else none

def client (op : Op) : Option System := do
  if s.pool.Client op then
    let t ← Pool.step s.pool op
    some { s with pool := t }
  else none

def step {memory : SharedMemory} (bond : BondCodec) : Action memory → Option System
  | .make pool minBlobSize popped => s.make pool.val minBlobSize popped
  | .call i pool op arguments => s.call bond i pool.val op.val arguments
  | .finish i pool => s.finish i pool.val
  | .act i popped => s.act i popped
  | .destroyOutput i => s.destroyOutput i
  | .destroyPool => s.destroyPool
  | .client op => s.client op

def steps {memory : SharedMemory} (bond : BondCodec) (actions : List (Action memory)) : Option System :=
  actions.foldlM (fun s action => s.step bond action) s

end System

end IpcBond.Pool
