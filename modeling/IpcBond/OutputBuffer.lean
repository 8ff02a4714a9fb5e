import IpcBond.BlobCast
import IpcBond.VariableUnsigned
import IpcBond.Library.Memory

/-! `OutputBuffer`: bytes are written through a raw cursor into a `Blob` of the pool and
published as `ConstBlob`s. A member function runs in `Writer`, where the exception of a failed
allocation carries the state it leaves. -/

namespace IpcBond
open Library.Memory

abbrev Allocated (n : Nat) := { storage : List Byte // n ≤ storage.length ∧ storage.length < 2 ^ 63 }

/-- A vector of bytes: its allocation, of which the first `size` bytes are its elements. -/
@[ext] structure ByteVector where
  storage : List Byte
  size : Nat
  size_le : size ≤ storage.length
  small : storage.length < 2 ^ 63
  deriving DecidableEq, Repr

namespace ByteVector

def empty : ByteVector := ⟨[], 0, Nat.le_refl 0, by decide⟩

def elements (v : ByteVector) : List Byte := v.storage.take v.size

theorem elements_length (v : ByteVector) : v.elements.length = v.size := by
  rw [elements, List.length_take, Nat.min_eq_left v.size_le]

def capacity (v : ByteVector) : Nat := v.storage.length

def store (v : ByteVector) (offset : Nat) (bytes : List Byte) : ByteVector where
  storage := Library.Memory.store v.storage offset bytes
  size := v.size
  size_le := by simpa using v.size_le
  small := by simpa using v.small

def resizeDefault (v : ByteVector) (n : Nat) (memory : Option (Allocated n)) : Option ByteVector :=
  if fits : n ≤ v.storage.length then some { v with size := n, size_le := fits }
  else memory.map fun fresh =>
    { storage := Library.Memory.store fresh.val 0 v.elements
      size := n
      size_le := by simpa using fresh.property.1
      small := by simpa using fresh.property.2 }

def resize (v : ByteVector) (n : Nat) (memory : Option (Allocated n)) : Option ByteVector :=
  (v.resizeDefault n memory).map fun w => w.store v.size (List.replicate (n - v.size) 0)

end ByteVector

/-- `BufferPool::Blob`: the `Data` it owns, none for the null handle, and its `m_blob`. -/
structure Blob where
  data : Option Nat
  vector : ByteVector
  deriving DecidableEq, Repr

namespace Blob

def null : Blob := ⟨none, .empty⟩

def begin_ (blob : Blob) : Ptr := ⟨blob.data, 0⟩

def toConst (blob : Blob) : ConstBlob :=
  ⟨blob.data.map fun id => ⟨id, blob.vector.elements⟩, 0, blob.vector.size⟩

theorem toConst_valid (id : Nat) (vector : ByteVector) : (toConst ⟨some id, vector⟩).Valid := by
  have length : (toConst ⟨some id, vector⟩).memory.length = vector.size := vector.elements_length
  have := vector.size_le
  have := vector.small
  exact ⟨Nat.zero_le _, by rw [length]; exact Nat.le_refl _, by rw [length]; omega⟩

end Blob

/-- `BufferPool` as an `OutputBuffer` uses it: what it answers to each request for shared
memory, in the order of the requests. A blob it hands out is empty, of any capacity, and not
aliased by any handle that is `held`. -/
structure BufferPool where
  memory : SharedMemory
  takeBuffer : (request : Nat) → Bool
  takeBlob : (request : Nat) → (held : List (Option Nat)) → Option Blob
  grow : (request n : Nat) → Option (Allocated n)
  pushBack : (request : Nat) → Bool
  takeBlob_data : ∀ {request held blob}, takeBlob request held = some blob →
    blob.data.isSome ∧ blob.data ∉ held
  takeBlob_empty : ∀ {request held blob}, takeBlob request held = some blob → blob.vector.size = 0
  takeBlob_contained : ∀ {request held blob}, takeBlob request held = some blob →
    memory.contains blob.begin_ = true

def freshId (first : Nat) (held : List (Option Nat)) : Nat :=
  held.foldr (fun data next => max (data.getD 0 + 1) next) first

theorem le_freshId (first : Nat) (held : List (Option Nat)) : first ≤ freshId first held := by
  induction held with
  | nil => exact Nat.le_refl _
  | cons data rest ih => exact Nat.le_trans ih (Nat.le_max_right _ _)

theorem lt_freshId {first d : Nat} {held : List (Option Nat)} (member : some d ∈ held) : d < freshId first held := by
  induction held with
  | nil => cases member
  | cons data rest ih =>
    rcases List.mem_cons.1 member with rfl | later
    · exact Nat.le_max_left _ _
    · exact Nat.lt_of_lt_of_le (ih later) (Nat.le_max_right _ _)

instance capacities : NeZero 1024 := ⟨by decide⟩

def numberedPool (memory : SharedMemory) (capacity : Fin 1024) (first : Nat)
    (inside : ∀ id, first ≤ id → memory.contains ⟨some id, 0⟩ = true) : BufferPool where
  memory := memory
  takeBuffer _ := true
  takeBlob _ held := some ⟨some (freshId first held),
    { storage := List.replicate capacity 0
      size := 0
      size_le := Nat.zero_le _
      small := by rw [List.length_replicate]; omega }⟩
  grow _ n := if fits : n < 2 ^ 16 then some ⟨List.replicate n 0, by rw [List.length_replicate]; omega⟩ else none
  pushBack _ := true
  takeBlob_data := by
    rintro _ held _ ⟨⟩
    exact ⟨rfl, fun member => Nat.lt_irrefl _ (lt_freshId member)⟩
  takeBlob_empty := by
    rintro _ _ _ ⟨⟩
    rfl
  takeBlob_contained := by
    rintro _ held _ ⟨⟩
    exact inside _ (le_freshId first held)

def simplePool (capacity : Fin 1024) (first : Nat) : BufferPool :=
  numberedPool
    { contains := fun p => p.base.any (100 ≤ ·)
      not_contains_null := rfl
      contains_data := fun _ _ _ => rfl }
    capacity (100 + first) fun _ bound => decide_eq_true (Nat.le_trans (Nat.le_add_right 100 first) bound)

/-- What a member function does to the items behind its handles: it resizes `m_blob`, copies
bytes to a raw pointer, appends to `m_buffer` in one of two places, or replaces `m_blob`. -/
inductive Effect where
  | resize (vector : ByteVector)
  | store (ptr : Ptr) (bytes : List Byte)
  | push (allocation : Allocation) (blob : ConstBlob)
  | take (blob : Blob)
  deriving DecidableEq, Repr

/-- The data members of `OutputBuffer`; and, for the record, how many requests it has made to its
pool and what it has done to its items. -/
structure OutputBuffer where
  ptr : Ptr
  ptrEnd : Ptr
  blob : Blob
  buffer : List ConstBlob
  minBlobSize : Nat
  requests : Nat
  effects : List Effect
  deriving DecidableEq, Repr

abbrev Writer := EStateM Error OutputBuffer

namespace OutputBuffer

def held (s : OutputBuffer) : List (Option Nat) :=
  s.blob.data :: s.buffer.map fun blob => blob.item.map Data.id

def request : Writer Nat := do
  let s ← get
  set { s with requests := s.requests + 1 }
  return s.requests

def orThrow {α : Type} (allocation : Allocation) : Option α → Writer α
  | some value => return value
  | none => throw (.badAlloc allocation)

section Members

variable (pool : BufferPool)

def pushBack (allocation : Allocation) (blob : ConstBlob) : Writer Unit := do
  if pool.pushBack (← request) then
    modify fun s => { s with
      buffer := s.buffer ++ [blob]
      effects := s.effects ++ [.push allocation blob] }
  else
    throw (.badAlloc allocation)

def resizeDefault (allocation : Allocation) (n : Nat) : Writer Unit := do
  let vector := (← get).blob.vector.resizeDefault n (pool.grow (← request) n)
  let vector ← orThrow allocation vector
  modify fun s => { s with
    blob := { s.blob with vector := vector }
    effects := s.effects ++ [.resize vector] }

def resize (allocation : Allocation) (n : Nat) : Writer Unit := do
  let vector := (← get).blob.vector.resize n (pool.grow (← request) n)
  let vector ← orThrow allocation vector
  modify fun s => { s with
    blob := { s.blob with vector := vector }
    effects := s.effects ++ [.resize vector] }

def store (ptr : Ptr) (bytes : List Byte) : Writer Unit :=
  modify fun s =>
    if ptr.base = s.blob.data then
      { s with
        blob := { s.blob with vector := s.blob.vector.store ptr.offset bytes }
        effects := s.effects ++ [.store ptr bytes] }
    else { s with effects := s.effects ++ [.store ptr bytes] }

def takeBlob : Writer Unit := do
  let blob := pool.takeBlob (← request) (← get).held
  let blob ← orThrow .takeBlob blob
  modify fun s => { s with
    blob := blob
    effects := s.effects ++ [.take blob] }
  resizeDefault pool .sizeBlob (max blob.vector.capacity (← get).minBlobSize)
  modify fun s => { s with ptr := s.blob.begin_, ptrEnd := s.blob.begin_.add s.blob.vector.size }

def members (minBlobSize : Nat) : OutputBuffer :=
  ⟨Ptr.null, Ptr.null, .null, [], if minBlobSize ≠ 0 then minBlobSize else 4096, 0, []⟩

def make : Writer Unit := do
  if pool.takeBuffer (← request) then
    takeBlob pool
  else
    throw (.badAlloc .takeBuffer)

def merge : Writer Bool := do
  let s ← get
  let offset := s.ptr.sub s.blob.begin_
  if offset ≠ 0 then
    resize pool .trimBlob (sizeT offset)
    pushBack pool .pushMerged (← get).blob.toConst
    return true
  else
    return false

def flush : Writer Unit := do
  if ← merge pool then
    takeBlob pool

def allocate (size : Nat) : Writer Ptr := do
  let s ← get
  if s.ptrEnd.offset ≤ s.ptr.offset + size then
    let offset := sizeT (s.ptr.sub s.blob.begin_)
    resizeDefault pool .growBlob (wrap (offset + max size s.minBlobSize))
    modify fun s => { s with
      ptr := s.blob.begin_.add offset
      ptrEnd := s.blob.begin_.add s.blob.vector.size }
  let ptr := (← get).ptr
  modify fun s => { s with ptr := s.ptr.add size }
  return ptr

/-- `Write(const void*, size)`. -/
def writeBytes (bytes : List Byte) : Writer Unit := do
  let ptr ← allocate pool bytes.length
  store ptr bytes

/-- `Write(const T&)`, with the object representation of the value. -/
def writeValue (value : List Byte) : Writer Unit := do
  let s ← get
  if s.ptr.offset + value.length < s.ptrEnd.offset then
    store s.ptr value
    modify fun s => { s with ptr := s.ptr.add value.length }
  else
    writeBytes pool value

/-- The private `Write(const ConstBlob&, const OtherBlob&)`, with the bytes of the other blob,
whose size is narrowed to 32 bits. -/
def writeShared (blob : ConstBlob) (other : List Byte) : Writer Unit :=
  if blob.item.isSome ∧ pool.memory.contains blob.data then do
    flush pool
    pushBack pool .pushShared blob
  else
    writeBytes pool (other.take (other.length % 2 ^ 32))

def writeConstBlob (blob : ConstBlob) : Writer Unit := writeShared pool blob blob.bytes

/-- An expression of the caller that may throw before the call. -/
def evaluate {α : Type} : Except Error α → Writer α
  | .ok value => return value
  | .error e => throw e

def writeBlob (blob : BondBlob) : Writer Unit := do
  writeShared pool (← evaluate blob.toConstBlob) blob.bytes

def writeBlobs : List ConstBlob → Writer Unit
  | [] => return
  | blob :: rest => do
    writeConstBlob pool blob
    writeBlobs rest

def writeBuffer (buffer : ConstBuffer) : Writer Unit :=
  if buffer.item.isSome then writeBlobs pool buffer.blobs else return

def writeRange (range : Range) : Writer Unit := do
  if !range.isEmpty then
    let blobAt := range.buffer.blobAt
    let first := blobAt range.firstBlob
    let length := (if range.lastOffset ≠ 0 then range.lastBlob + 1 else range.lastBlob) - range.firstBlob
    if length = 1 then
      let stop := if range.lastOffset ≠ 0 then range.lastOffset else first.size
      writeConstBlob pool (← evaluate (first.getRange range.firstOffset (sizeT (stop - range.firstOffset))))
    else
      let last := range.firstBlob + (length - 1)
      writeConstBlob pool (← evaluate (if range.firstOffset ≠ 0
        then first.getRange range.firstOffset (sizeT (first.size - range.firstOffset))
        else .ok first))
      writeBlobs pool ((List.range' (range.firstBlob + 1) (last - (range.firstBlob + 1))).map blobAt)
      writeConstBlob pool (← evaluate (if range.lastOffset ≠ 0
        then (blobAt last).getRange 0 range.lastOffset
        else .ok (blobAt last)))

def writeBytewise : List Byte → Writer Unit
  | [] => return
  | byte :: rest => do
    writeValue pool [byte]
    writeBytewise rest

def writeVariableUnsigned (bond : BondCodec) (width : Width) (value : Nat) : Writer Unit := do
  let s ← get
  if s.ptr.offset + width.bits / 7 < s.ptrEnd.offset then
    let bytes := bond.writeUnchecked width value
    store s.ptr bytes
    modify fun s => { s with ptr := s.ptr.add bytes.length }
  else
    writeBytewise pool (bond.writeGeneric width value)

/-- `GetBuffer() const &`. -/
def getBufferConst : Writer ConstBuffer := do
  let s ← get
  if s.ptr ≠ s.blob.begin_ then
    throw .notFlushed
  return ⟨some s.buffer⟩

/-- `GetBuffer() &`. -/
def getBuffer : Writer ConstBuffer := do
  flush pool
  return ⟨some (← get).buffer⟩

/-- `GetBuffer() &&`. -/
def getBufferMoved : Writer ConstBuffer := do
  let _ ← merge pool
  return ⟨some (← get).buffer⟩

end Members

end OutputBuffer

end IpcBond
