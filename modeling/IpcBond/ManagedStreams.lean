import IpcBond.TypedStream

/-! The managed streams, which pass arrays of .NET on to the native buffers. -/

namespace IpcBond
open Library.StateExcept

inductive ManagedError where
  | argumentNull
  | argument
  | overflow
  | indexOutOfRange
  | native (error : Error)
  deriving DecidableEq, Repr

/-- `System::ArraySegment<System::Byte>`, whose array is null by default. -/
structure ArraySegment where
  array : Option (List Byte)
  offset : Nat
  count : Nat
  inside : offset + count ≤ (array.getD []).length

namespace ArraySegment

def bytes (segment : ArraySegment) : List Byte := ((segment.array.getD []).drop segment.offset).take segment.count

end ArraySegment

def uint32 (n : Int) : Nat := (n % 2 ^ 32).toNat

def elementAt (array : List Byte) (index : Int) : Except ManagedError Byte :=
  if index < 0 then .error .indexOutOfRange
  else match array[index.toNat]? with
    | some byte => .ok byte
    | none => .error .indexOutOfRange

namespace InputStream

abbrev Reader := EStateM ManagedError InputBuffer

def native {α : Type} (read : IpcBond.Reader α) : Reader α := fun s =>
  match read s with
  | .ok value t => .ok value t
  | .error e t => .error (.native e) t

def orThrow {α : Type} : Except ManagedError α → Reader α
  | .ok value => return value
  | .error e => throw e

def readString (count : Int) : Reader (List Byte) := do
  let (_, bytes) ← native (InputBuffer.allocate (uint32 count))
  if count < 0 then
    throw .argument
  return bytes

/-- `ReadBytes`: the new array is pinned by the address of its first element. -/
def readBytes (count : Int) : Reader (List Byte) := do
  if count < 0 then
    throw .overflow
  let array := List.replicate count.toNat (0 : Byte)
  let _ ← orThrow (elementAt array 0)
  native (InputBuffer.readBytes (uint32 count))

def skipBytes (count : Int) : Reader Unit := native (InputBuffer.skip (uint32 count))

theorem readBytes_positive {count : Int} (positive : 0 < count) (small : count < 2 ^ 31) :
    readBytes count = native (InputBuffer.readBytes count.toNat) := by
  have same : uint32 count = count.toNat := by
    rw [uint32, Int.emod_eq_of_lt (by omega) (by omega)]
  have first : elementAt (List.replicate count.toNat 0) 0 = .ok 0 := by
    have inside : 0 < count.toNat := by omega
    simp [elementAt, inside]
  simp only [readBytes, if_neg (by omega : ¬ count < 0), first, orThrow, same, pure_bind]

/-- An array without elements has no first one. -/
theorem readBytes_zero (s : InputBuffer) : readBytes 0 s = .error .indexOutOfRange s := rfl

/-- `SkipBytes` passes over whatever `ReadBytes` would read, and over nothing as well, which that throws for. -/
theorem skipBytes_passes {s : InputBuffer} (inv : s.Invariant) {count : Int} (small : count < 2 ^ 31) :
    (∀ bytes t, readBytes count s = .ok bytes t → ∃ u, skipBytes count s = .ok () u ∧ u.remaining = t.remaining) ∧
      skipBytes 0 s = .ok () s := by
  refine ⟨fun bytes t read => ?_, ?_⟩
  · have positive : 0 < count := by
      rcases Int.lt_trichotomy count 0 with negative | zero | positive
      · simp only [readBytes, if_pos negative] at read
        cases read
      · rw [zero, readBytes_zero] at read
        cases read
      · exact positive
    have same : uint32 count = count.toNat := by
      rw [uint32, Int.emod_eq_of_lt (by omega) (by omega)]
    rw [readBytes_positive positive small, native] at read
    rcases InputBuffer.readBytes_takes inv count.toNat with ⟨enough, value, u, run, _, left⟩ | ⟨_, run⟩
    · rw [run] at read
      cases read
      rcases InputBuffer.skip_takes inv count.toNat with ⟨_, _, v, skipped, _, left'⟩ | ⟨short, _⟩
      · exact ⟨v, by rw [skipBytes, native, same, skipped], left'.trans left.symm⟩
      · exact absurd enough short
    · rw [run] at read
      cases read
  · have nothing : InputBuffer.skip 0 s = .ok () s := by
      rw [InputBuffer.skip_run, InputBuffer.readMultiple_run, InputBuffer.readLoop]
      rfl
    exact show native (InputBuffer.skip 0) s = _ by rw [native, nothing]

end InputStream

namespace OutputStream

def writeBytes (pool : BufferPool) (segment : ArraySegment) : Writer Unit :=
  if segment.array.isSome ∧ 0 < segment.count then OutputBuffer.writeBytes pool segment.bytes else return

theorem writeBytes_empty (pool : BufferPool) {segment : ArraySegment} (empty : segment.count = 0)
    (s : OutputBuffer) : writeBytes pool segment s = .ok () s := by
  rw [writeBytes, if_neg (by omega)]
  rfl

end OutputStream

end IpcBond
