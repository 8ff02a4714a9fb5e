import IpcBond.BlobCast
import IpcBond.VariableUnsigned
import IpcBond.Library.StateExcept

/-! `InputBuffer`: a cursor over the blobs of a `ConstBuffer`, or of a range of one. A member
function that may throw runs in `Reader`, where the exception carries the state it leaves. -/

namespace IpcBond
open Library.StateExcept

/-- The data members of `InputBuffer`; the shared memory that it keeps mapped is left out. -/
structure InputBuffer where
  ptr : Ptr
  ptrEnd : Ptr
  blob : Nat
  blobEnd : Nat
  isEof : Bool
  lastOffset : Nat
  buffer : ConstBuffer
  deriving DecidableEq, Repr

abbrev Reader := EStateM Error InputBuffer

namespace InputBuffer

def empty : InputBuffer := ⟨Ptr.null, Ptr.null, 0, 0, true, 0, ConstBuffer.null⟩

def current (s : InputBuffer) : ConstBlob := s.buffer.blobAt s.blob

def load (s : InputBuffer) (p : Ptr) (n : Nat) : List Byte := (s.current.memory.drop p.offset).take n

def skipLoop : Nat → InputBuffer → Bool × InputBuffer
  | 0, s => (true, { s with isEof := true })
  | left + 1, s =>
    if s.current.item.isSome ∧ s.current.size ≠ 0 then (false, s)
    else skipLoop left { s with blob := s.blob + 1 }

def skipEmptyBlobs (s : InputBuffer) : Bool × InputBuffer := skipLoop (s.blobEnd - s.blob) s

def updateData (s : InputBuffer) : Bool × InputBuffer :=
  match s.skipEmptyBlobs with
  | (false, s) =>
    let length := if s.lastOffset ≠ 0 ∧ s.blob + 1 = s.blobEnd then s.lastOffset else s.current.size
    (true, { s with ptr := s.current.data, ptrEnd := s.current.data.add length })
  | (true, s) => (false, { s with ptr := Ptr.null, ptrEnd := Ptr.null })

def members (buffer : ConstBuffer) (first last lastOffset : Nat) : InputBuffer :=
  let blobEnd := if lastOffset ≠ 0 then last + 1 else last
  ⟨Ptr.null, Ptr.null, first, blobEnd, first = blobEnd, lastOffset, buffer⟩

def make (buffer : ConstBuffer) (first last firstOffset lastOffset : Nat) : InputBuffer :=
  let (found, s) := (members buffer first last lastOffset).updateData
  if found then { s with ptr := s.ptr.add firstOffset } else s

def ofBuffer (buffer : ConstBuffer) : InputBuffer :=
  if buffer.item.isSome then make buffer 0 buffer.blobs.length 0 0 else empty

def ofRange (range : Range) : InputBuffer :=
  make range.buffer range.firstBlob range.lastBlob range.firstOffset range.lastOffset

def beginRead (ptr : Ptr) : Reader Unit := do
  let s ← get
  if s.ptrEnd.offset < ptr.offset ∨ s.isEof then
    throw .outOfRange

def moveNext (s : InputBuffer) : InputBuffer :=
  (updateData { s with blob := s.blob + 1, isEof := s.blob + 1 = s.blobEnd }).2

def endRead (ptr : Ptr) (s : InputBuffer) : InputBuffer :=
  if ptr ≠ s.ptrEnd then { s with ptr := ptr } else s.moveNext

def readSingle {α : Type} (size : Nat) (func : InputBuffer → α) : Reader α := do
  let ptr := (← get).ptr.add size
  beginRead ptr
  let value := func (← get)
  modify (endRead ptr)
  return value

/-- The loop of `ReadMultiple`, with the results of `func` in order. `fuel` bounds the number
of iterations. -/
def readLoop (func : Nat → InputBuffer → List Byte) : Nat → Nat → Reader (List Byte)
  | _, 0 => return []
  | 0, _ => throw .diverged
  | fuel + 1, size => do
    let s ← get
    let n := min (sizeT (s.ptrEnd.sub s.ptr)) size
    let part ← readSingle n (func n)
    return part ++ (← readLoop func fuel (size - n))

/-- An iteration of no bytes moves to the next blob or throws, the others shorten `size`. -/
def readMultiple (size : Nat) (func : Nat → InputBuffer → List Byte) : Reader (List Byte) := do
  let saved ← get
  try
    readLoop func (size + (saved.blobEnd - saved.blob) + 1) size
  catch e =>
    modify fun s => { s with
      ptr := saved.ptr, ptrEnd := saved.ptrEnd, blob := saved.blob, isEof := saved.blob = s.blobEnd }
    throw e

/-- `Read(T&)`, with the object representation of the value. -/
def readValue (size : Nat) : Reader (List Byte) := readSingle size fun s => s.load s.ptr size

/-- `Read(void*, size)`, with the bytes copied to the destination. -/
def readBytes (size : Nat) : Reader (List Byte) := readMultiple size fun n s => s.load s.ptr n

/-- `Read(bond::blob&, size)`. -/
def readBlob (size : Nat) : Reader BondBlob :=
  readSingle size fun s =>
    (BondBlob.ofConstBlob s.current).assign (sizeT (s.ptr.sub s.current.data) % 2 ^ 32) size

def allocate (size : Nat) : Reader (Ptr × List Byte) :=
  readSingle size fun s => (s.ptr, s.load s.ptr size)

def skip (size : Nat) : Reader Unit := do
  let _ ← readMultiple size fun _ _ => []
  return

def readVariableLoop {Acc : Type} (feed : Acc → Byte → Acc ⊕ Nat) : Nat → Acc → Reader Nat
  | 0, _ => throw .diverged
  | fuel + 1, acc => do
    match feed acc ((← readValue 1).headD 0) with
    | .inl next => readVariableLoop feed fuel next
    | .inr value => return value

def readVariableUnsigned (bond : BondCodec) (width : Width) : Reader Nat := do
  let s ← get
  if s.ptr.offset + width.bits / 7 < s.ptrEnd.offset then
    let (value, moved) := bond.readUnchecked width (s.current.memory.drop s.ptr.offset)
    modify (endRead (s.ptr.add moved))
    return value
  else
    readVariableLoop (bond.readByte width) (s.buffer.bytes.length + 1) (bond.readStart width)

def equal (s t : InputBuffer) : Bool :=
  s.ptr = t.ptr ∧ s.blob = t.blob ∧ s.blobEnd = t.blobEnd ∧ s.lastOffset = t.lastOffset

def blobOffset (s : InputBuffer) : Nat := if s.isEof then 0 else sizeT (s.ptr.sub s.current.data)

def getBufferRange (first last : InputBuffer) : Range :=
  ⟨first.buffer, first.blob, first.blobOffset, last.blob, last.blobOffset⟩

/-- `CreateInputBuffer(other, range)` differs from the constructor in the memory alone. -/
def createInputBuffer (_other : InputBuffer) (range : Range) : InputBuffer := ofRange range

theorem readSingle_run {α : Type} (size : Nat) (func : InputBuffer → α) (s : InputBuffer) :
    readSingle size func s =
      if s.ptrEnd.offset < s.ptr.offset + size ∨ s.isEof then .error .outOfRange s
      else .ok (func s) (s.endRead (s.ptr.add size)) := by
  by_cases out : s.ptrEnd.offset < s.ptr.offset + size ∨ s.isEof = true
  · simp [readSingle, beginRead, run_bind, out]
  · simp [readSingle, beginRead, run_bind, out]

end InputBuffer

end IpcBond
