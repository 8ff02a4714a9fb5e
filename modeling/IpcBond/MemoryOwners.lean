import Mathlib.Data.List.Basic

/-! Who keeps a shared memory alive while handles into it are released. A step is a special
member function of an `OutputBuffer`, an `InputBuffer` or a `bond::blob`, or what their clients do
with pools, pointers and handles of their own. -/

namespace IpcBond.MemoryOwners

/-- `OutputBuffer`: the memories in which the items of `m_blob` and `m_buffer` live, none for a
null handle, and `m_pool`. -/
structure OutputMembers where
  blob : Option Nat
  buffer : Option Nat
  pool : Option Nat
  deriving DecidableEq, Repr

structure InputMembers where
  memory : Option Nat
  buffer : Option Nat
  deriving DecidableEq, Repr

structure Holder where
  memory : Nat
  blob : Nat
  deriving DecidableEq, Repr

/-- The objects of a process. An implementation of a pool, and a holder, exists while something
points to it. -/
structure World where
  memories : Nat
  externals : List (Option Nat)
  impls : List Nat
  pools : List (Option Nat)
  handles : List (Option Nat)
  outputs : List (Option OutputMembers)
  inputs : List (Option InputMembers)
  holders : List Holder
  blobs : List (Option (Option Nat))

inductive Pointer where
  | external (i : Nat)
  | pool (i : Nat)
  | output (i : Nat)
  | input (i : Nat)
  | blob (i : Nat)
  deriving DecidableEq, Repr

inductive Owner where
  | external (i : Nat)
  | implementation (impl : Nat)
  | input (i : Nat)
  | holder (holder : Nat)
  deriving DecidableEq, Repr

namespace World

def initial : World := ⟨0, [], [], [], [], [], [], [], []⟩

variable (w : World)

def outputAt (i : Nat) : Option OutputMembers := w.outputs[i]?.join

def inputAt (i : Nat) : Option InputMembers := w.inputs[i]?.join

def blobAt (i : Nat) : Option (Option Nat) := w.blobs[i]?.join

def setOutput (i : Nat) (o : Option OutputMembers) : World := { w with outputs := w.outputs.set i o }

def setInput (i : Nat) (s : Option InputMembers) : World := { w with inputs := w.inputs.set i s }

def implOf : Pointer → Option Nat
  | .pool i => w.pools[i]?.join
  | .output i => (w.outputAt i).bind OutputMembers.pool
  | _ => none

def holderOf (i : Nat) : Option Holder := ((w.blobAt i).join).bind fun holder => w.holders[holder]?

def leads : Pointer → Option Nat
  | .external i => w.externals[i]?.join
  | .pool i => (w.implOf (.pool i)).bind fun impl => w.impls[impl]?
  | .output i => (w.implOf (.output i)).bind fun impl => w.impls[impl]?
  | .input i => (w.inputAt i).bind InputMembers.memory
  | .blob i => (w.holderOf i).map Holder.memory

def Owns (m : Nat) : Owner → Prop
  | .external i => w.externals[i]?.join = some m
  | .implementation impl => w.impls[impl]? = some m ∧ ∃ pointer, w.implOf pointer = some impl
  | .input i => ∃ s, w.inputAt i = some s ∧ s.memory = some m
  | .holder h => (w.holders[h]?).map Holder.memory = some m ∧ ∃ i, w.blobAt i = some (some h)

def Owned (m : Nat) : Prop := ∃ owner, w.Owns m owner

def OwnedBesides (pointer : Pointer) (m : Nat) : Prop := ∃ other, other ≠ pointer ∧ w.leads other = some m

def getMemory : Pointer → Option Nat
  | .blob _ => none
  | pointer => w.leads pointer

/-- The memory of a handle that a client is given: a new item of a pool, the buffer of an
`OutputBuffer`, a range of an `InputBuffer`, or what is cast back from a `bond::blob`. -/
def getHandle : Pointer → Option Nat
  | .external _ => none
  | .pool i => w.leads (.pool i)
  | .output i => (w.outputAt i).bind OutputMembers.buffer
  | .input i => (w.inputAt i).bind InputMembers.buffer
  | .blob i => (w.holderOf i).map Holder.blob

end World

structure Release where
  memory : Nat
  world : World

def release (handle : Option Nat) (w : World) : List Release := handle.toList.map fun m => ⟨m, w⟩

/-- What a move leaves behind: the shared pointers go, and the handles are copied. -/
def OutputMembers.movedFrom (o : OutputMembers) : OutputMembers := { o with pool := none }

def InputMembers.movedFrom (s : InputMembers) : InputMembers := { s with memory := none }

inductive Action where
  | createMemory
  | copyMemory (source : Pointer)
  | dropMemory (external : Nat)
  | createPool (memory : Pointer)
  | copyPool (source : Pointer)
  | dropPool (pool : Nat)
  | takeHandle (source : Pointer)
  | copyHandle (handle : Nat)
  | dropHandle (handle : Nat)
  | makeOutput (pool : Pointer)
  | replaceBlob (output : Nat)
  | moveOutput (source : Nat)
  | assignOutput (target source : Nat)
  | destroyOutput (output : Nat)
  | emptyInput
  | makeInput (handle : Nat) (memory : Pointer)
  | copyInput (source : Nat)
  | moveInput (source : Nat)
  | assignInput (target source : Nat) (move : Bool)
  | destroyInput (input : Nat)
  | emptyBlob
  | castBlob (handle : Nat) (memory : Pointer)
  | readBlob (input : Nat)
  | copyBlob (source : Nat)
  | assignBlob (target source : Nat)
  | destroyBlob (blob : Nat)

namespace World

variable (w : World)

def replaceBlob (i : Nat) : Option (World × List Release) := do
  let o ← w.outputAt i
  let m ← w.leads (.output i)
  some (w.setOutput i (some { o with blob := some m }), release o.blob w)

/-- The members are replaced in the order `m_blob`, `m_buffer`, `m_pool`. -/
def assignOutput (target source : Nat) : Option (World × List Release) := do
  let old ← w.outputAt target
  let new ← w.outputAt source
  if target = source then some (w, [])
  else
    some ((w.setOutput source (some new.movedFrom)).setOutput target (some new),
      release old.blob w ++ release old.buffer (w.setOutput target (some { old with blob := new.blob })))

/-- The members are destroyed in the order `m_pool`, `m_buffer`, `m_blob`. -/
def destroyOutput (i : Nat) : Option (World × List Release) := do
  let o ← w.outputAt i
  some (w.setOutput i none, release o.buffer (w.setOutput i (some { o with pool := none })) ++
    release o.blob (w.setOutput i (some { o with pool := none, buffer := none })))

def assignInput (target source : Nat) (move : Bool) : Option (World × List Release) := do
  let old ← w.inputAt target
  let new ← w.inputAt source
  if target = source then some (w, [])
  else
    let w := w.setInput source (some (if move then new.movedFrom else new))
    some (w.setInput target (some new), release old.buffer (w.setInput target (some { old with memory := new.memory })))

def destroyInput (i : Nat) : Option (World × List Release) := do
  let s ← w.inputAt i
  some (w.setInput i none, release s.buffer w)

/-- A `bond::blob` is replaced. The last one to a holder runs its deleter, `m_blob = {}`, and the
holder is destroyed after that. -/
def setBlob (i : Nat) (blob : Option (Option Nat)) : World × List Release :=
  let blobs := w.blobs.set i blob
  ({ w with blobs := blobs },
    if (w.blobAt i).join.any fun holder => some (some holder) ∈ blobs then []
    else release ((w.holderOf i).map Holder.blob) w)

def castBlob (handle memory : Option Nat) : Option World := do
  let blob ← handle
  if memory = some blob then
    some { w with
      holders := w.holders ++ [⟨blob, blob⟩]
      blobs := w.blobs ++ [some (some w.holders.length)] }
  else none

/-- One step, none where it is not enabled. The caller gives up no memory while it holds a handle
of its own to it. -/
def step : Action → Option (World × List Release)
  | .createMemory => some ({ w with memories := w.memories + 1, externals := w.externals ++ [some w.memories] }, [])
  | .copyMemory source => do
    let m ← w.getMemory source
    some ({ w with externals := w.externals ++ [some m] }, [])
  | .dropMemory i => do
    let m ← w.leads (.external i)
    if some m ∈ w.handles then none else some ({ w with externals := w.externals.set i none }, [])
  | .createPool memory => do
    let m ← w.getMemory memory
    some ({ w with impls := w.impls ++ [m], pools := w.pools ++ [some w.impls.length] }, [])
  | .copyPool source => do
    let impl ← w.implOf source
    some ({ w with pools := w.pools ++ [some impl] }, [])
  | .dropPool i => do
    let m ← w.leads (.pool i)
    if some m ∈ w.handles then none else some ({ w with pools := w.pools.set i none }, [])
  | .takeHandle source => do
    let m ← w.getHandle source
    some ({ w with handles := w.handles ++ [some m] }, [])
  | .copyHandle i => do
    let m ← w.handles[i]?.join
    some ({ w with handles := w.handles ++ [some m] }, [])
  | .dropHandle i => some ({ w with handles := w.handles.set i none }, [])
  | .makeOutput pool => do
    let impl ← w.implOf pool
    let m ← w.impls[impl]?
    some ({ w with outputs := w.outputs ++ [some ⟨some m, some m, some impl⟩] }, [])
  | .replaceBlob i => w.replaceBlob i
  | .moveOutput i => do
    let o ← w.outputAt i
    some ({ w with outputs := w.outputs.set i (some o.movedFrom) ++ [some o] }, [])
  | .assignOutput target source => w.assignOutput target source
  | .destroyOutput i => w.destroyOutput i
  | .emptyInput => some ({ w with inputs := w.inputs ++ [some ⟨none, none⟩] }, [])
  | .makeInput handle memory => do
    let m ← w.handles[handle]?.join
    some ({ w with inputs := w.inputs ++ [some ⟨w.getMemory memory, some m⟩] }, [])
  | .copyInput i => do
    let s ← w.inputAt i
    some ({ w with inputs := w.inputs ++ [some s] }, [])
  | .moveInput i => do
    let s ← w.inputAt i
    some ({ w with inputs := w.inputs.set i (some s.movedFrom) ++ [some s] }, [])
  | .assignInput target source move => w.assignInput target source move
  | .destroyInput i => w.destroyInput i
  | .emptyBlob => some ({ w with blobs := w.blobs ++ [some none] }, [])
  | .castBlob handle memory => do
    let w ← w.castBlob (w.handles[handle]?.join) (w.getMemory memory)
    some (w, [])
  | .readBlob i => do
    let s ← w.inputAt i
    let w ← w.castBlob s.buffer s.memory
    some (w, [])
  | .copyBlob i => do
    let blob ← w.blobAt i
    some ({ w with blobs := w.blobs ++ [some blob] }, [])
  | .assignBlob target source => do
    let _ ← w.blobAt target
    let blob ← w.blobAt source
    some (w.setBlob target (some blob))
  | .destroyBlob i => do
    let _ ← w.blobAt i
    some (w.setBlob i none)

def run (w : World) : List Action → Option (World × List Release)
  | [] => some (w, [])
  | action :: rest => do
    let (t, now) ← w.step action
    let (u, later) ← t.run rest
    some (u, now ++ later)

end World

end IpcBond.MemoryOwners
