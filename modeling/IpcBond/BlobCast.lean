import IpcBond.BufferPool

/-! `bond::blob` as far as the buffers use it, and the two directions of `BlobCast`. -/

namespace IpcBond

/-- A `bond::blob`: the `ConstBlob` in its `BlobHolder` deleter when `BlobCast` made it, the
allocation its content pointer points into, that pointer, and the length. -/
structure BondBlob where
  holder : Option ConstBlob
  memory : List Byte
  content : Ptr
  size : Nat
  deriving DecidableEq, Repr

namespace BondBlob

def bytes (blob : BondBlob) : List Byte := (blob.memory.drop blob.content.offset).take blob.size

def ofBytes (bytes : List Byte) : BondBlob := ⟨none, bytes, Ptr.null, bytes.length⟩

def assign (source : BondBlob) (offset length : Nat) : BondBlob :=
  { source with content := source.content.add offset, size := length }

/-- `BlobCast(ConstBlob, memory)`, whose size is narrowed to 32 bits. -/
def ofConstBlob (source : ConstBlob) : BondBlob :=
  ⟨some source, source.memory, source.data, source.size % 2 ^ 32⟩

/-- `BlobCast<ConstBlob>(bond::blob)`: null unless the blob came from `BlobCast`. -/
def toConstBlob (source : BondBlob) : Except Error ConstBlob :=
  match source.holder with
  | some blob => blob.getRange (sizeT (source.content.sub blob.data)) source.size
  | none => .ok ConstBlob.null

structure Valid (source : BondBlob) : Prop where
  inside : source.content.offset + source.size ≤ source.memory.length
  small : source.size < 2 ^ 32
  held : ∀ blob, source.holder = some blob → blob.Valid ∧ source.memory = blob.memory ∧
    ∃ offset, source.content = blob.data.add offset ∧ offset + source.size ≤ blob.size

theorem ofBytes_valid {bytes : List Byte} (small : bytes.length < 2 ^ 32) : (ofBytes bytes).Valid :=
  ⟨by simp [ofBytes, Ptr.null], small, by simp [ofBytes]⟩

theorem Valid.bytes_length {source : BondBlob} (valid : source.Valid) :
    source.bytes.length = source.size := by
  have := valid.inside
  rw [bytes, List.length_take, List.length_drop]
  omega

theorem bytes_of_held {source : BondBlob} {blob : ConstBlob} (memory : source.memory = blob.memory)
    {offset : Nat} (content : source.content = blob.data.add offset)
    (fits : offset + source.size ≤ blob.size) :
    source.bytes = (blob.bytes.drop offset).take source.size := by
  by_cases empty : blob.size = 0
  · have : source.size = 0 := by omega
    simp [bytes, this]
  · rw [bytes, memory, content, ConstBlob.data, if_pos empty, ConstBlob.bytes, List.drop_take,
      List.drop_drop, List.take_take, Nat.min_eq_left (by omega)]
    rfl

/-- Casting back gives the part of the held blob that the content pointer designates. -/
theorem toConstBlob_held {source : BondBlob} (valid : source.Valid) {blob : ConstBlob}
    (holder : source.holder = some blob) :
    ∃ back, source.toConstBlob = .ok back ∧ back.Valid ∧ back.item = blob.item ∧
      back.size = source.size ∧ back.bytes = source.bytes := by
  obtain ⟨blobValid, memory, offset, content, fits⟩ := valid.held blob holder
  have distance : sizeT (source.content.sub blob.data) = offset := by
    have := blobValid.size_lt
    rw [content, Ptr.sub, Ptr.add_offset]
    unfold sizeT
    omega
  refine ⟨_, ?_, blobValid.sub_valid fits, rfl, blobValid.sub_size fits, ?_⟩
  · simp only [toConstBlob, holder, distance]
    exact blobValid.getRange_eq fits
  · rw [blobValid.sub_bytes fits, bytes_of_held memory content fits]

theorem toConstBlob_private {source : BondBlob} (holder : source.holder = none) :
    source.toConstBlob = .ok ConstBlob.null := by
  simp only [toConstBlob, holder]

theorem toConstBlob_valid {source : BondBlob} (valid : source.Valid) {part : ConstBlob}
    (cast : source.toConstBlob = .ok part) : part.Valid := by
  cases holder : source.holder with
  | none =>
    rw [toConstBlob_private holder] at cast
    cases cast
    exact ConstBlob.null_valid
  | some held =>
    obtain ⟨back, same, backValid, _⟩ := toConstBlob_held valid holder
    rw [cast] at same
    cases same
    exact backValid

theorem ofConstBlob_valid {source : ConstBlob} (valid : source.Valid) (small : source.size < 2 ^ 32) :
    (ofConstBlob source).Valid := by
  have := valid.begin_add_size
  have := valid.inside
  refine ⟨?_, Nat.mod_lt _ (by decide), ?_⟩
  · simp only [ofConstBlob, ConstBlob.data, Nat.mod_eq_of_lt small]
    split
    · simp only; omega
    · simp only [Ptr.null]; omega
  · rintro blob holder
    cases holder
    refine ⟨valid, rfl, 0, rfl, ?_⟩
    rw [Nat.zero_add]
    exact Nat.mod_le _ _

end BondBlob

end IpcBond
