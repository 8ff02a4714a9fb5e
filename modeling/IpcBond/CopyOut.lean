import IpcBond.ManagedStreams

/-! `ConstBuffer` as managed code sees it: its size, and a copy of its bytes in an array. The native loop stops
where nothing is left to copy, be it of the destination or of one blob. -/

namespace IpcBond
open Library.Segments Library.Memory

namespace Interop

def getSize (buffer : ConstBuffer) : Nat := buffer.blobs.foldl (fun size blob => wrap (size + blob.size)) 0

/-- The loop of `CopyTo`, over the memory that `ptr` points into. -/
def copyLoop : List ConstBlob → List Byte → Nat → Nat → List Byte × Nat
  | [], memory, ptr, _ => (memory, ptr)
  | blob :: rest, memory, ptr, size =>
    let sz := min size blob.size
    if sz ≠ 0 then copyLoop rest (store memory ptr (blob.bytes.take sz)) (ptr + sz) (size - sz)
    else (memory, ptr)

def copyTo (buffer : ConstBuffer) (memory : List Byte) (ptr size : Nat) : List Byte × Nat :=
  let (memory, last) := copyLoop buffer.blobs memory ptr size
  (memory, last - ptr)

end Interop

def int32 (n : Int) : Int := n.bmod (2 ^ 32)

namespace Managed

def calculateLength (buffer : ConstBuffer) : Int := int32 (Interop.getSize buffer)

def copyTo (buffer : ConstBuffer) : Option (List Byte) → Int → Except ManagedError (List Byte)
  | none, _ => .error .argumentNull
  | some array, offset => do
    let length := calculateLength buffer
    if 0 < length then
      if array.length < int32 (offset + length) then
        throw .argument
      let _ ← elementAt array offset
      return (Interop.copyTo buffer array offset.toNat (sizeT length)).1
    else
      return array

end Managed

namespace Interop

/-- The loop copies what comes before the first empty blob, as far as there is room. -/
theorem copyLoop_spec {blobs : List ConstBlob} (valid : ∀ blob ∈ blobs, blob.Valid) {memory : List Byte}
    {ptr size : Nat} (room : ptr + size ≤ memory.length) :
    copyLoop blobs memory ptr size =
      (store memory ptr ((beforeEmpty (blobs.map ConstBlob.bytes)).flatten.take size),
        ptr + min size (beforeEmpty (blobs.map ConstBlob.bytes)).flatten.length) := by
  induction blobs generalizing memory ptr size with
  | nil => simp [copyLoop, beforeEmpty]
  | cons blob rest ih =>
    have length := (valid blob List.mem_cons_self).bytes_length
    rw [copyLoop]
    by_cases empty : blob.bytes = []
    · have none : blob.size = 0 := by rw [← length, empty, List.length_nil]
      simp [none, empty, beforeEmpty]
    · have some : blob.size ≠ 0 := fun none => empty (List.eq_nil_of_length_eq_zero (length.trans none))
      have cut : beforeEmpty ((blob :: rest).map ConstBlob.bytes) =
          blob.bytes :: beforeEmpty (rest.map ConstBlob.bytes) := List.takeWhile_cons_of_pos (by simpa using empty)
      rw [cut, List.flatten_cons, List.take_append, List.length_append, length]
      by_cases full : size = 0
      · simp [full]
      · have taken : (blob.bytes.take (min size blob.size)).length = min size blob.size := by
          rw [List.length_take, length]
          omega
        have whole : blob.bytes.take size = blob.bytes.take (min size blob.size) := by
          rw [← length, ← List.take_take, List.take_length]
        have left : size - blob.size = size - min size blob.size := by omega
        rw [if_pos (by omega), ih (fun other member => valid other (List.mem_cons_of_mem _ member))
          (by rw [store_length]; omega), whole, left]
        refine Prod.ext ?_ ?_
        · let more := (beforeEmpty (rest.map ConstBlob.bytes)).flatten.take (size - min size blob.size)
          have fits : ptr + (blob.bytes.take (min size blob.size)).length + more.length ≤ memory.length := by
            rw [taken, List.length_take]
            omega
          have behind := store_store fits
          rwa [taken] at behind
        · simp only
          omega

variable {buffer : ConstBuffer}

theorem before_empty_iff (valid : buffer.Valid) {n : Nat} (inside : n ≤ buffer.bytes.length) :
    (∀ i < buffer.blobs.length, (buffer.blobAt i).size = 0 → n ≤ start buffer.segments i) ↔
      n ≤ (beforeEmpty buffer.segments).flatten.length := by
  have empty_iff : ∀ i, buffer.segments[i]? = some [] ↔ i < buffer.blobs.length ∧ (buffer.blobAt i).size = 0 := by
    intro i
    by_cases within : i < buffer.blobs.length
    · rw [buffer.blobAt_eq within, ← (valid _ (List.getElem_mem within)).bytes_length, ConstBuffer.segments,
        List.getElem?_map, List.getElem?_eq_getElem within]
      simp [within]
    · rw [List.getElem?_eq_none (by simpa using Nat.le_of_not_lt within)]
      simp [within]
  rw [le_beforeEmpty_iff (show n ≤ buffer.segments.flatten.length from inside)]
  exact forall_congr' fun i => by rw [empty_iff, and_imp]

theorem copyTo_spec (valid : buffer.Valid) {memory : List Byte} {ptr size : Nat} (room : ptr + size ≤ memory.length) :
    copyTo buffer memory ptr size =
      (store memory ptr (buffer.bytes.take (min size (beforeEmpty buffer.segments).flatten.length)),
        min size (beforeEmpty buffer.segments).flatten.length) := by
  have same : (beforeEmpty buffer.segments).flatten.take size =
      buffer.bytes.take (min size (beforeEmpty buffer.segments).flatten.length) := by
    rw [← List.take_take]
    exact congrArg (List.take size) (List.prefix_iff_eq_take.1 (flatten_beforeEmpty buffer.segments))
  rw [copyTo, copyLoop_spec valid room]
  simp only [Nat.add_sub_cancel_left]
  exact congrArg (fun bytes => (store memory ptr bytes, _)) same

/-- `CopyTo` copies as much as it can exactly when no empty blob comes before the end of that. -/
theorem copyTo_full_iff (valid : buffer.Valid) {memory : List Byte} {ptr size : Nat}
    (room : ptr + size ≤ memory.length) :
    copyTo buffer memory ptr size = (store memory ptr (buffer.bytes.take size), min size buffer.bytes.length) ↔
      ∀ i < buffer.blobs.length, (buffer.blobAt i).size = 0 →
        min size buffer.bytes.length ≤ start buffer.segments i := by
  have shorter : (beforeEmpty buffer.segments).flatten.length ≤ buffer.bytes.length :=
    (flatten_beforeEmpty buffer.segments).length_le
  rw [before_empty_iff valid (Nat.min_le_right _ _), copyTo_spec valid room]
  constructor
  · intro same
    have count := (Prod.ext_iff.1 same).2
    simp only at count
    omega
  · intro full
    have count : min size (beforeEmpty buffer.segments).flatten.length = min size buffer.bytes.length := by omega
    rw [count, ← List.take_take, List.take_length]

end Interop

namespace Managed

variable {buffer : ConstBuffer}

theorem getSize_eq (valid : buffer.Valid) : Interop.getSize buffer = wrap buffer.bytes.length := by
  have loop : ∀ blobs : List ConstBlob, (∀ blob ∈ blobs, blob.Valid) → ∀ size, size < 2 ^ 64 →
      blobs.foldl (fun size blob => wrap (size + blob.size)) size =
        wrap (size + (blobs.map ConstBlob.bytes).flatten.length) := by
    intro blobs
    induction blobs with
    | nil => exact fun _ size small => (wrap_of_lt small).symm
    | cons blob rest ih =>
      intro valid size small
      have length := (valid blob List.mem_cons_self).bytes_length
      have wrapped : wrap (size + blob.size) < 2 ^ 64 := Nat.mod_lt _ (by decide)
      rw [List.foldl_cons, ih (fun other member => valid other (List.mem_cons_of_mem _ member)) _ wrapped,
        List.map_cons, List.flatten_cons, List.length_append, length]
      unfold wrap
      omega
  have sum := loop buffer.blobs valid 0 (by decide)
  rwa [Nat.zero_add] at sum

theorem calculateLength_eq (valid : buffer.Valid) (small : buffer.bytes.length < 2 ^ 31) :
    calculateLength buffer = buffer.bytes.length := by
  rw [calculateLength, getSize_eq valid, wrap_of_lt (by omega), int32, Int.bmod_eq_of_le (by omega) (by omega)]

theorem copyTo_room (valid : buffer.Valid) {array : List Byte} {offset : Nat} (limit : array.length < 2 ^ 31)
    (room : offset + buffer.bytes.length ≤ array.length) :
    copyTo buffer (some array) offset = .ok
      (store array offset (buffer.bytes.take (beforeEmpty buffer.segments).flatten.length)) := by
  have length := calculateLength_eq valid (by omega)
  have shorter : (beforeEmpty buffer.segments).flatten.length ≤ buffer.bytes.length :=
    (flatten_beforeEmpty buffer.segments).length_le
  rw [copyTo, length]
  by_cases none : buffer.bytes.length = 0
  · have nothing : (beforeEmpty buffer.segments).flatten.length = 0 := by omega
    rw [if_neg (by omega), nothing, List.take_zero, store_nil]
    rfl
  · have inside : ¬ (array.length : Int) < int32 (offset + buffer.bytes.length) := by
      rw [int32, Int.bmod_eq_of_le (by omega) (by omega)]
      omega
    have element : ∃ byte, elementAt array offset = .ok byte := by
      have within : offset < array.length := by omega
      exact ⟨array[offset], by simp [elementAt, within]⟩
    obtain ⟨byte, element⟩ := element
    have converted : sizeT buffer.bytes.length = buffer.bytes.length := by
      unfold sizeT
      omega
    have copied := Interop.copyTo_spec valid room
    rw [Nat.min_eq_right shorter] at copied
    rw [if_pos (by omega), if_neg inside, element, converted, Int.toNat_natCast, copied]
    rfl

end Managed

theorem le_of_store_all {bytes : List Byte} {n : Nat}
    (same : store (bytes.map (· + 1)) 0 (bytes.take n) = store (bytes.map (· + 1)) 0 bytes) : bytes.length ≤ n := by
  by_contra short
  have kept : (store (bytes.map (· + 1)) 0 (bytes.take n)).drop n = (bytes.map (· + 1)).drop n :=
    drop_store (by simp) (by simp)
  have whole : store (bytes.map (· + 1)) 0 bytes = bytes := by simp [store]
  rw [same, whole, ← List.map_drop, List.drop_eq_getElem_cons (by omega), List.map_cons] at kept
  have next : bytes[n] = bytes[n] + 1 := (List.cons.inj kept).1
  simp at next

open Interop in
/-- Copying out is complete exactly when no empty blob comes before the end of what is to be copied. It never
leaves the destination, and it returns how much it has copied. -/
theorem copy_out_iff {blobs : List ConstBlob} (valid : ConstBuffer.Valid ⟨some blobs⟩) :
    let buffer : ConstBuffer := ⟨some blobs⟩
    (∀ memory ptr size, ptr + size ≤ memory.length →
      (∃ count ≤ min size buffer.bytes.length,
        Interop.copyTo buffer memory ptr size = (store memory ptr (buffer.bytes.take count), count)) ∧
      (Interop.copyTo buffer memory ptr size =
          (store memory ptr (buffer.bytes.take size), min size buffer.bytes.length) ↔
        ∀ i < blobs.length, (buffer.blobAt i).size = 0 →
          min size buffer.bytes.length ≤ start buffer.segments i)) ∧
    (buffer.bytes.length < 2 ^ 31 →
      ((∀ (array : List Byte) (offset : Nat), array.length < 2 ^ 31 → offset + buffer.bytes.length ≤ array.length →
          Managed.copyTo buffer (some array) offset = .ok (store array offset (InputBuffer.ofBuffer buffer).remaining)) ↔
        ∀ i < blobs.length, (buffer.blobAt i).size = 0 → buffer.bytes.length ≤ start buffer.segments i)) := by
  intro buffer
  refine ⟨fun memory ptr size room => ⟨⟨_, ?_, copyTo_spec valid room⟩, copyTo_full_iff valid room⟩, fun small => ?_⟩
  · exact min_le_min_left _ (flatten_beforeEmpty buffer.segments).length_le
  · have read : (InputBuffer.ofBuffer buffer).remaining = buffer.bytes :=
      Input.opened_remaining (show (Input.ofBuffer buffer).WellFormed from valid)
    have shorter : (beforeEmpty buffer.segments).flatten.length ≤ buffer.bytes.length :=
      (flatten_beforeEmpty buffer.segments).length_le
    have early : (∀ i < blobs.length, (buffer.blobAt i).size = 0 → buffer.bytes.length ≤ start buffer.segments i) ↔
        buffer.bytes.length ≤ (beforeEmpty buffer.segments).flatten.length := before_empty_iff valid (Nat.le_refl _)
    rw [early, read]
    constructor
    · intro complete
      have length : (buffer.bytes.map (· + 1)).length = buffer.bytes.length := List.length_map _
      have room : 0 + buffer.bytes.length ≤ (buffer.bytes.map (· + 1)).length := by omega
      have copied := complete (buffer.bytes.map (· + 1)) 0 (by omega) room
      rw [Managed.copyTo_room valid (by omega) room] at copied
      exact le_of_store_all (Except.ok.inj copied)
    · intro full array offset limit room
      rw [Managed.copyTo_room valid limit room, List.take_of_length_le full]

/-- Two blobs and a null one behind them, copied in part and as a whole. -/
theorem copy_out_null_last :
    let blobs : List ConstBlob := [⟨some ⟨1, [1, 2]⟩, 0, 2⟩, ⟨some ⟨3, [3]⟩, 0, 1⟩, .null]
    Interop.copyTo ⟨some blobs⟩ [9, 9] 0 2 = ([1, 2], 2) ∧
      Managed.copyTo ⟨some blobs⟩ (some [9, 9, 9, 9]) (1 : Nat) = .ok [9, 1, 2, 3] := by
  intro blobs
  obtain ⟨native, managed⟩ := copy_out_iff (show ConstBuffer.Valid ⟨some blobs⟩ by decide)
  refine ⟨((native [9, 9] 0 2 (by decide)).2.2 (by decide)).trans (by decide), ?_⟩
  exact ((managed (by decide)).2 (by decide) [9, 9, 9, 9] 1 (by decide) (by decide)).trans (by decide)

/-- An empty blob between two others ends the copy. -/
theorem copy_out_stops_at_empty :
    let buffer : ConstBuffer := ⟨some [⟨some ⟨1, [1, 2]⟩, 0, 2⟩, ⟨some ⟨2, []⟩, 0, 0⟩, ⟨some ⟨3, [3]⟩, 0, 1⟩]⟩
    buffer.Valid ∧ Interop.getSize buffer = 3 ∧ (InputBuffer.ofBuffer buffer).remaining = [1, 2, 3] ∧
      Interop.copyTo buffer [0, 0, 0] 0 3 = ([1, 2, 0], 2) ∧
      Managed.copyTo buffer (some [0, 0, 0]) 0 = .ok [1, 2, 0] := by
  decide

end IpcBond
