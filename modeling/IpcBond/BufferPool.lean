import IpcBond.Library.Segments
import Mathlib.Algebra.Group.Int.Defs
import Mathlib.Algebra.Group.Nat.Defs

/-! The values a client of `BufferPool` reads: raw pointers, `ConstBlob`, `ConstBuffer` and
`ConstBuffer::Range`. A `ConstBlob` carries the elements of the `m_blob` it points into,
which stay fixed while it lives; the pool that owns and recycles them is a machine of its own. -/

namespace IpcBond
open Library.Segments

abbrev Byte := UInt8

inductive Allocation where
  | takeBuffer
  | takeBlob
  | sizeBlob
  | growBlob
  | trimBlob
  | pushMerged
  | pushShared
  deriving DecidableEq, Repr

/-- The exceptions of the buffers; `bad_alloc` says which allocation threw it. `diverged` is a
loop of the model that ran out of steps, never an exception of the source. -/
inductive Error where
  | outOfRange
  | notFlushed
  | badAlloc (allocation : Allocation)
  | diverged
  deriving DecidableEq, Repr

def wrap (n : Nat) : Nat := n % 2 ^ 64

def sizeT (difference : Int) : Nat := (difference % 2 ^ 64).toNat

theorem wrap_of_lt {n : Nat} (small : n < 2 ^ 64) : wrap n = n := Nat.mod_eq_of_lt small

theorem sizeT_sub {a b : Nat} (order : b ≤ a) (small : a < 2 ^ 64) : sizeT (a - b) = a - b := by
  unfold sizeT
  rw [Int.emod_eq_of_lt (by omega) (by omega)]
  omega

/-- A raw pointer: the `Data` whose `m_blob` it points into, none for `nullptr`, and the
distance from the start of that vector. -/
structure Ptr where
  base : Option Nat
  offset : Nat
  deriving DecidableEq, Repr

namespace Ptr

def null : Ptr := ⟨none, 0⟩

def add (p : Ptr) (n : Nat) : Ptr := ⟨p.base, p.offset + n⟩

def sub (p q : Ptr) : Int := p.offset - q.offset

@[simp] theorem add_offset (p : Ptr) (n : Nat) : (p.add n).offset = p.offset + n := rfl

@[simp] theorem add_zero (p : Ptr) : p.add 0 = p := rfl

theorem add_add (p : Ptr) (m n : Nat) : (p.add m).add n = p.add (m + n) := by
  simp only [add, Nat.add_assoc]

end Ptr

/-- What the buffers rely on from `SharedMemory::Contains`: the null pointer lies outside, and
the storage of one `Data` lies wholly inside or wholly outside. -/
structure SharedMemory where
  contains : Ptr → Bool
  not_contains_null : contains Ptr.null = false
  contains_data : ∀ data i j, contains ⟨some data, i⟩ = contains ⟨some data, j⟩

structure Data where
  id : Nat
  blob : List Byte
  deriving DecidableEq, Repr

/-- `BufferPool::ConstBlob`: the item it keeps alive and the two iterators into its `m_blob`. -/
structure ConstBlob where
  item : Option Data
  beginAt : Nat
  endAt : Nat
  deriving DecidableEq, Repr

namespace ConstBlob

def null : ConstBlob := ⟨none, 0, 0⟩

def memory (blob : ConstBlob) : List Byte := (blob.item.map Data.blob).getD []

def size (blob : ConstBlob) : Nat := sizeT (blob.endAt - blob.beginAt)

def data (blob : ConstBlob) : Ptr :=
  if blob.size ≠ 0 then ⟨blob.item.map Data.id, blob.beginAt⟩ else Ptr.null

def bytes (blob : ConstBlob) : List Byte := (blob.memory.drop blob.beginAt).take blob.size

/-- `ConstBlob::GetRange`: the bound is checked after the addition has wrapped. -/
def getRange (blob : ConstBlob) (offset count : Nat) : Except Error ConstBlob :=
  if blob.size < wrap (offset + count) then .error .outOfRange
  else
    let first := wrap (blob.beginAt + offset)
    .ok ⟨blob.item, first, wrap (first + count)⟩

structure Valid (blob : ConstBlob) : Prop where
  ordered : blob.beginAt ≤ blob.endAt
  inside : blob.endAt ≤ blob.memory.length
  small : blob.memory.length < 2 ^ 64

instance (blob : ConstBlob) : Decidable blob.Valid :=
  decidable_of_iff (blob.beginAt ≤ blob.endAt ∧ blob.endAt ≤ blob.memory.length ∧ blob.memory.length < 2 ^ 64)
    ⟨fun ⟨ordered, inside, small⟩ => ⟨ordered, inside, small⟩,
      fun ⟨ordered, inside, small⟩ => ⟨ordered, inside, small⟩⟩

theorem data_of_nonempty {blob : ConstBlob} (nonempty : blob.size ≠ 0) :
    blob.data = ⟨blob.item.map Data.id, blob.beginAt⟩ := if_pos nonempty

theorem null_valid : null.Valid := ⟨by decide, by decide, by decide⟩

@[simp] theorem null_size : null.size = 0 := rfl

namespace Valid

variable {blob : ConstBlob} (valid : blob.Valid)
include valid

theorem size_eq : blob.size = blob.endAt - blob.beginAt :=
  sizeT_sub valid.ordered (Nat.lt_of_le_of_lt valid.inside valid.small)

theorem begin_add_size : blob.beginAt + blob.size = blob.endAt := by
  have := valid.ordered
  rw [valid.size_eq]
  omega

theorem bytes_length : blob.bytes.length = blob.size := by
  have := valid.begin_add_size
  have := valid.inside
  rw [bytes, List.length_take, List.length_drop]
  omega

theorem size_lt : blob.size < 2 ^ 64 := by
  have := valid.begin_add_size
  have := valid.inside
  have := valid.small
  omega

theorem item_isSome (nonempty : blob.size ≠ 0) : blob.item.isSome := by
  have := valid.begin_add_size
  have inside := valid.inside
  cases item : blob.item with
  | some _ => rfl
  | none =>
    simp only [memory, item, Option.map_none, Option.getD_none, List.length_nil] at inside
    omega

theorem getRange_eq {offset count : Nat} (fits : offset + count ≤ blob.size) :
    blob.getRange offset count =
      .ok ⟨blob.item, blob.beginAt + offset, blob.beginAt + offset + count⟩ := by
  have := valid.begin_add_size
  have := valid.inside
  have := valid.small
  simp only [getRange]
  rw [wrap_of_lt (by omega), if_neg (by omega), wrap_of_lt (by omega), wrap_of_lt (by omega)]

theorem sub_valid {offset count : Nat} (fits : offset + count ≤ blob.size) :
    Valid ⟨blob.item, blob.beginAt + offset, blob.beginAt + offset + count⟩ := by
  have := valid.begin_add_size
  exact ⟨by simp, Nat.le_trans (by simp only; omega) valid.inside, valid.small⟩

theorem sub_bytes {offset count : Nat} (fits : offset + count ≤ blob.size) :
    bytes ⟨blob.item, blob.beginAt + offset, blob.beginAt + offset + count⟩ =
      (blob.bytes.drop offset).take count := by
  rw [bytes, (valid.sub_valid fits).size_eq, bytes, List.drop_take, List.drop_drop,
    List.take_take, Nat.add_sub_cancel_left, Nat.min_eq_left (by omega)]
  rfl

theorem sub_size {offset count : Nat} (fits : offset + count ≤ blob.size) :
    size ⟨blob.item, blob.beginAt + offset, blob.beginAt + offset + count⟩ = count := by
  rw [(valid.sub_valid fits).size_eq, Nat.add_sub_cancel_left]

end Valid

end ConstBlob

structure ConstBuffer where
  item : Option (List ConstBlob)
  deriving DecidableEq, Repr

namespace ConstBuffer

def null : ConstBuffer := ⟨none⟩

def blobs (buffer : ConstBuffer) : List ConstBlob := buffer.item.getD []

def segments (buffer : ConstBuffer) : List (List Byte) := buffer.blobs.map ConstBlob.bytes

def bytes (buffer : ConstBuffer) : List Byte := buffer.segments.flatten

def Valid (buffer : ConstBuffer) : Prop := ∀ blob ∈ buffer.blobs, blob.Valid

instance (buffer : ConstBuffer) : Decidable buffer.Valid :=
  inferInstanceAs (Decidable (∀ blob ∈ buffer.blobs, blob.Valid))

def blobAt (buffer : ConstBuffer) (i : Nat) : ConstBlob := buffer.blobs[i]?.getD ConstBlob.null

@[simp] theorem segments_length (buffer : ConstBuffer) :
    buffer.segments.length = buffer.blobs.length := List.length_map _

theorem blobAt_eq (buffer : ConstBuffer) {i : Nat} (inside : i < buffer.blobs.length) :
    buffer.blobAt i = buffer.blobs[i] := by
  rw [blobAt, List.getElem?_eq_getElem inside, Option.getD_some]

theorem blobAt_past (buffer : ConstBuffer) {i : Nat} (past : buffer.blobs.length ≤ i) :
    buffer.blobAt i = ConstBlob.null := by
  rw [blobAt, List.getElem?_eq_none past, Option.getD_none]

theorem blobAt_size_lt {buffer : ConstBuffer} {limit : Nat} (positive : 0 < limit)
    (small : ∀ blob ∈ buffer.blobs, blob.size < limit) (i : Nat) : (buffer.blobAt i).size < limit := by
  by_cases inside : i < buffer.blobs.length
  · rw [blobAt_eq _ inside]
    exact small _ (List.getElem_mem inside)
  · rw [blobAt_past _ (by omega)]
    exact positive

theorem blobAt_inside {buffer : ConstBuffer} {i : Nat} (nonempty : (buffer.blobAt i).size ≠ 0) :
    i < buffer.blobs.length := by
  by_contra past
  exact nonempty (by rw [blobAt_past _ (by omega)]; rfl)

namespace Valid

variable {buffer : ConstBuffer} (valid : buffer.Valid)
include valid

theorem blobAt (i : Nat) : (buffer.blobAt i).Valid := by
  by_cases inside : i < buffer.blobs.length
  · rw [blobAt_eq _ inside]
    exact valid _ (List.getElem_mem inside)
  · rw [blobAt_past _ (by omega)]
    exact ConstBlob.null_valid

theorem start_succ (i : Nat) :
    start buffer.segments (i + 1) = start buffer.segments i + (buffer.blobAt i).size := by
  by_cases inside : i < buffer.blobs.length
  · rw [Library.Segments.start_succ (by simpa using inside), blobAt_eq _ inside,
      ← (valid _ (List.getElem_mem inside)).bytes_length]
    simp only [segments, List.getElem_map]
  · rw [start_of_length_le (by simp; omega), start_of_length_le (by simp; omega),
      blobAt_past _ (by omega), ConstBlob.null_size, Nat.add_zero]

theorem start_eq_of_empty {i j : Nat} (order : i ≤ j)
    (empty : ∀ k, i ≤ k → k < j → (buffer.blobAt k).size = 0) :
    start buffer.segments j = start buffer.segments i := by
  induction order with
  | refl => rfl
  | @step j order ih =>
    rw [valid.start_succ, empty j order (Nat.lt_succ_self j), Nat.add_zero]
    exact ih fun k low high => empty k low (Nat.lt_succ_of_lt high)

/-- The bytes of one blob at their flat positions in the buffer. -/
theorem drop_take_blobAt {i o n : Nat} (fits : o + n ≤ (buffer.blobAt i).size) :
    (buffer.bytes.drop (start buffer.segments i + o)).take n = ((buffer.blobAt i).bytes.drop o).take n := by
  by_cases inside : i < buffer.blobs.length
  · rw [blobAt_eq _ inside] at fits ⊢
    have length := (valid _ (List.getElem_mem inside)).bytes_length
    rw [bytes, drop_take_segment (by simpa using inside)
      (by simpa only [segments, List.getElem_map, length] using fits)]
    simp only [segments, List.getElem_map]
  · rw [blobAt_past _ (by omega), ConstBlob.null_size] at fits
    simp [show n = 0 by omega]

end Valid

end ConstBuffer

/-- `ConstBuffer::Range`: from `firstOffset` in `firstBlob` up to `lastOffset` in `lastBlob`,
which is left out when `lastOffset` is zero. -/
structure Range where
  buffer : ConstBuffer
  firstBlob : Nat
  firstOffset : Nat
  lastBlob : Nat
  lastOffset : Nat
  deriving DecidableEq, Repr

namespace Range

def isEmpty (range : Range) : Bool :=
  range.firstBlob = range.lastBlob ∧ range.firstOffset = range.lastOffset

def startPos (range : Range) : Nat := start range.buffer.segments range.firstBlob + range.firstOffset

def stopPos (range : Range) : Nat := start range.buffer.segments range.lastBlob + range.lastOffset

def bytes (range : Range) : List Byte :=
  (range.buffer.bytes.drop range.startPos).take (range.stopPos - range.startPos)

structure InBounds (range : Range) : Prop where
  ordered : range.firstBlob < range.lastBlob ∨
    range.firstBlob = range.lastBlob ∧ range.firstOffset ≤ range.lastOffset
  lastBlob_le : range.lastBlob ≤ range.buffer.blobs.length
  firstOffset_le : range.firstOffset ≤ (range.buffer.blobAt range.firstBlob).size
  lastOffset_le : range.lastOffset ≤ (range.buffer.blobAt range.lastBlob).size

instance (range : Range) : Decidable range.InBounds :=
  decidable_of_iff
    ((range.firstBlob < range.lastBlob ∨
        range.firstBlob = range.lastBlob ∧ range.firstOffset ≤ range.lastOffset) ∧
      range.lastBlob ≤ range.buffer.blobs.length ∧
      range.firstOffset ≤ (range.buffer.blobAt range.firstBlob).size ∧
      range.lastOffset ≤ (range.buffer.blobAt range.lastBlob).size)
    ⟨fun ⟨ordered, last, front, back⟩ => ⟨ordered, last, front, back⟩,
      fun ⟨ordered, last, front, back⟩ => ⟨ordered, last, front, back⟩⟩

/-- A range in bounds that does not begin at the end of a blob. -/
structure WellFormed (range : Range) : Prop extends InBounds range where
  first_inside : range.firstOffset = 0 ∨
    range.firstOffset < (range.buffer.blobAt range.firstBlob).size

instance (range : Range) : Decidable range.WellFormed :=
  decidable_of_iff
    (range.InBounds ∧
      (range.firstOffset = 0 ∨ range.firstOffset < (range.buffer.blobAt range.firstBlob).size))
    ⟨fun ⟨bounds, inside⟩ => ⟨bounds, inside⟩, fun formed => ⟨formed.toInBounds, formed.first_inside⟩⟩

def whole (buffer : ConstBuffer) : Range := ⟨buffer, 0, 0, buffer.blobs.length, 0⟩

theorem whole_bytes (buffer : ConstBuffer) : (whole buffer).bytes = buffer.bytes := by
  have total : start buffer.segments buffer.blobs.length = buffer.bytes.length :=
    start_of_length_le (by simp)
  simp [bytes, startPos, stopPos, whole, total]

theorem whole_wellFormed (buffer : ConstBuffer) : (whole buffer).WellFormed := by
  refine ⟨⟨?_, Nat.le_refl _, Nat.zero_le _, Nat.zero_le _⟩, Or.inl rfl⟩
  rcases Nat.eq_zero_or_pos buffer.blobs.length with none | some
  · exact Or.inr ⟨none.symm, Nat.le_refl _⟩
  · exact Or.inl some

end Range

end IpcBond
