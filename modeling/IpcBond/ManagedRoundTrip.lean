import IpcBond.OutputFrames
import IpcBond.ZeroLength

/-! What .NET writes to an `OutputStream` and reads from an `InputStream`: values, strings through an encoding, and
segments of arrays. -/

namespace IpcBond
open Library.Segments Library.StateExcept

structure Encoding (Text : Type) where
  getBytes : Text → List Byte
  getString : List Byte → Text

inductive ManagedItem (Text : Type) where
  | primitive (value : List Byte)
  | variableUnsigned (width : Width) (number : Nat)
  | string (text : Text)
  | bytes (segment : ArraySegment)

inductive ManagedValue (Text : Type) where
  | bytes (bytes : List Byte)
  | number (number : Nat)
  | text (text : Text)
  deriving DecidableEq, Repr

variable {Text : Type}

namespace OutputStream

abbrev Writer := EStateM ManagedError OutputBuffer

def native {α : Type} (write : IpcBond.Writer α) : Writer α := fun s =>
  match write s with
  | .ok value t => .ok value t
  | .error e t => .error (.native e) t

theorem native_ok {α : Type} {write : IpcBond.Writer α} {s t : OutputBuffer} {value : α}
    (run : native write s = .ok value t) : write s = .ok value t := by
  unfold native at run
  split at run
  · next other u same =>
    cases run
    exact same
  · cases run

variable (pool : BufferPool) (bond : BondCodec) (encoding : Encoding Text)

/-- `WriteString`: the encoding stores its bytes in what has been allocated, and throws where they do not fit. -/
def writeString (text : Text) (count : Int) : Writer Unit := do
  let ptr ← native (OutputBuffer.allocate pool (uint32 count))
  if count < (encoding.getBytes text).length then
    throw .argument
  native (OutputBuffer.store ptr (encoding.getBytes text))

def write : ManagedItem Text → Writer Unit
  | .primitive value => native (OutputBuffer.writeValue pool value)
  | .variableUnsigned width number => native (OutputBuffer.writeVariableUnsigned pool bond width number)
  | .string text => writeString pool encoding text (encoding.getBytes text).length
  | .bytes segment => native (writeBytes pool segment)

def writeAll : List (ManagedItem Text) → Writer Unit
  | [] => return
  | item :: rest => do
    write pool bond encoding item
    writeAll rest

def produce (items : List (ManagedItem Text)) : Writer ConstBuffer := do
  native (OutputBuffer.make pool)
  writeAll pool bond encoding items
  native (OutputBuffer.getBufferMoved pool)

end OutputStream

namespace InputStream

variable (bond : BondCodec) (encoding : Encoding Text)

def read : ManagedItem Text → Reader (ManagedValue Text)
  | .primitive value => do return .bytes (← native (InputBuffer.readValue value.length))
  | .variableUnsigned width _ => do return .number (← native (InputBuffer.readVariableUnsigned bond width))
  | .string text => do return .text (encoding.getString (← readString (encoding.getBytes text).length))
  | .bytes segment => do return .bytes (← readBytes segment.count)

def readAll : List (ManagedItem Text) → Reader (List (ManagedValue Text))
  | [] => return []
  | item :: rest => do
    let value ← read bond encoding item
    return value :: (← readAll rest)

theorem native_run {α : Type} {read : IpcBond.Reader α} {s t : InputBuffer} {value : α} (run : read s = .ok value t) :
    native read s = .ok value t := by
  rw [native, run]

end InputStream

namespace ManagedItem

variable (encoding : Encoding Text)

def ops : ManagedItem Text → List OutputBuffer.WriteOp
  | primitive value => [.value value]
  | variableUnsigned width number => [.variableUnsigned width number]
  | string text => [.allocated (encoding.getBytes text)]
  | bytes segment => if segment.array.isSome ∧ 0 < segment.count then [.raw segment.bytes] else []

/-- The native item that lies in the buffer in the same way. -/
def layout : ManagedItem Text → Item
  | primitive value => .primitive value
  | variableUnsigned width number => .variableUnsigned width number
  | string text => .primitive (encoding.getBytes text)
  | bytes segment => .raw segment.bytes

def value : ManagedItem Text → ManagedValue Text
  | primitive value => .bytes value
  | variableUnsigned _ number => .number number
  | string text => .text text
  | bytes segment => .bytes segment.bytes

def WellFormed : ManagedItem Text → Prop
  | primitive value => value ≠ [] ∧ value.length < 2 ^ 32
  | variableUnsigned width number => number < 2 ^ width.bits
  | string text => (encoding.getBytes text).length < 2 ^ 31 ∧ encoding.getString (encoding.getBytes text) = text
  | bytes segment => segment.count < 2 ^ 31

/-- The matching read does not fail where `rest` follows. -/
def ReadableBefore (rest : List Byte) : ManagedItem Text → Prop
  | string text => encoding.getBytes text = [] → rest ≠ []
  | bytes segment => segment.count ≠ 0
  | _ => True

end ManagedItem

def ManagedItem.Readable (encoding : Encoding Text) : List (ManagedItem Text) → Prop
  | [] => True
  | item :: rest =>
    item.ReadableBefore encoding (itemBytes (rest.map (ManagedItem.layout encoding))) ∧ Readable encoding rest

section Writing

variable {pool : BufferPool} {bond : BondCodec} {encoding : Encoding Text}

theorem OutputStream.write_ok {item : ManagedItem Text} (formed : item.WellFormed encoding) {s t : OutputBuffer}
    (run : OutputStream.write pool bond encoding item s = .ok () t) :
    OutputBuffer.runOps pool bond (item.ops encoding) s = .ok () t := by
  have one : ∀ {op : OutputBuffer.WriteOp}, op.run pool bond s = .ok () t →
      OutputBuffer.runOps pool bond [op] s = .ok () t := fun run => bind_ok.2 ⟨(), t, run, rfl⟩
  cases item with
  | primitive value => exact one (OutputStream.native_ok run)
  | variableUnsigned width number => exact one (OutputStream.native_ok run)
  | string text =>
    have small := formed.1
    have same : uint32 (encoding.getBytes text).length = (encoding.getBytes text).length := by
      rw [uint32, Int.emod_eq_of_lt (by omega) (by omega)]
      rfl
    obtain ⟨ptr, u, allocated, rest⟩ := bind_ok.1 run
    rw [if_neg (Int.lt_irrefl _)] at rest
    have allocated := OutputStream.native_ok allocated
    rw [same] at allocated
    exact one (bind_ok.2 ⟨ptr, u, allocated, OutputStream.native_ok rest⟩)
  | bytes segment =>
    have written := OutputStream.native_ok run
    rw [OutputStream.writeBytes] at written
    rw [ManagedItem.ops]
    split at written
    · next some =>
      rw [if_pos some]
      exact one written
    · next none =>
      rw [if_neg none]
      exact written

theorem OutputStream.writeAll_ok {items : List (ManagedItem Text)} (formed : ∀ item ∈ items, item.WellFormed encoding)
    {s t : OutputBuffer} (run : OutputStream.writeAll pool bond encoding items s = .ok () t) :
    OutputBuffer.runOps pool bond (items.flatMap (ManagedItem.ops encoding)) s = .ok () t := by
  induction items generalizing s with
  | nil =>
    cases run
    rfl
  | cons item rest ih =>
    obtain ⟨_, u, first, others⟩ := bind_ok.1 run
    rw [List.flatMap_cons, OutputBuffer.runOps_append]
    exact bind_ok.2 ⟨(), u, write_ok (formed item List.mem_cons_self) first,
      ih (fun other member => formed other (List.mem_cons_of_mem _ member)) others⟩

theorem OutputStream.produce_ok {items : List (ManagedItem Text)} (formed : ∀ item ∈ items, item.WellFormed encoding)
    {s t : OutputBuffer} {buffer : ConstBuffer} (run : OutputStream.produce pool bond encoding items s = .ok buffer t) :
    OutputBuffer.produce pool bond (items.flatMap (ManagedItem.ops encoding)) .moved s = .ok buffer t := by
  obtain ⟨_, m, made, rest⟩ := bind_ok.1 run
  obtain ⟨_, u, wrote, taken⟩ := bind_ok.1 rest
  have ready : OutputBuffer.setUp pool bond (items.flatMap (ManagedItem.ops encoding)) s = .ok () u :=
    bind_ok.2 ⟨(), m, native_ok made, writeAll_ok formed wrote⟩
  exact bind_ok.2 ⟨(), u, ready, native_ok taken⟩

theorem Carries.cons {front rest : List (List Byte)} {item : Item} {items : List Item}
    (first : front.flatten = item.bytes ∧ item.At front 0)
    (later : rest.flatten = itemBytes items ∧ Carries rest 0 items) :
    (front ++ rest).flatten = itemBytes (item :: items) ∧ Carries (front ++ rest) 0 (item :: items) := by
  obtain ⟨bytes, at_⟩ := first
  have here : Carries front 0 [item] := ⟨at_, trivial⟩
  refine ⟨by rw [List.flatten_append, bytes, later.1, itemBytes_cons], (here.append_right _).1, ?_⟩
  have shifted := later.2.shift front
  rwa [bytes, Nat.add_comm] at shifted

namespace ManagedItem

theorem bytes_of_empty {segment : ArraySegment} (none : ¬ (segment.array.isSome ∧ 0 < segment.count)) :
    segment.bytes = [] ∧ segment.count = 0 := by
  have inside := segment.inside
  have zero : segment.count = 0 := by
    by_contra some
    refine none ⟨?_, Nat.pos_of_ne_zero some⟩
    cases array : segment.array with
    | none =>
      rw [array] at inside
      simp at inside
      omega
    | some bytes => rfl
  exact ⟨by rw [ArraySegment.bytes, zero, List.take_zero], zero⟩

theorem ops_wellFormed {item : ManagedItem Text} (formed : item.WellFormed encoding) :
    ∀ op ∈ item.ops encoding, op.WellFormed := by
  cases item with
  | primitive value => exact List.forall_mem_singleton.2 formed.2
  | variableUnsigned width number => exact List.forall_mem_singleton.2 formed
  | string text => exact List.forall_mem_singleton.2 (Nat.lt_trans formed.1 (by decide))
  | bytes segment =>
    rw [ops]
    split
    · refine List.forall_mem_singleton.2 (Nat.lt_of_le_of_lt (List.length_take_le _ _) ?_)
      exact Nat.lt_trans formed (by decide)
    · simp

theorem ops_layout (encoding : Encoding Text) (memory : SharedMemory) (item : ManagedItem Text) :
    ((item.ops encoding).flatMap (OutputBuffer.WriteOp.pieces memory)).flatten = (item.layout encoding).bytes ∧
      (item.layout encoding).At ((item.ops encoding).flatMap (OutputBuffer.WriteOp.pieces memory)) 0 := by
  have one : ∀ (op : OutputBuffer.WriteOp) (layout : Item), op.pieces memory = layout.write.pieces memory →
      ([op].flatMap (OutputBuffer.WriteOp.pieces memory)).flatten = layout.bytes ∧
        layout.At ([op].flatMap (OutputBuffer.WriteOp.pieces memory)) 0 := by
    intro op layout same
    rw [List.flatMap_singleton, same]
    exact ⟨layout.pieces_flatten memory, layout.pieces_at memory⟩
  cases item with
  | primitive value => exact one _ _ rfl
  | variableUnsigned width number => exact one _ _ rfl
  | string text => exact one _ _ rfl
  | bytes segment =>
    rw [ops]
    split
    · exact one _ _ rfl
    · next none =>
      have empty : (layout encoding (bytes segment)).bytes = [] := (bytes_of_empty none).1
      exact ⟨empty.symm, by rw [empty]; rfl, fun single => by cases single⟩

theorem ops_carry (encoding : Encoding Text) (memory : SharedMemory) (items : List (ManagedItem Text)) :
    ((items.flatMap (ops encoding)).flatMap (OutputBuffer.WriteOp.pieces memory)).flatten =
        itemBytes (items.map (layout encoding)) ∧
      Carries ((items.flatMap (ops encoding)).flatMap (OutputBuffer.WriteOp.pieces memory)) 0
        (items.map (layout encoding)) := by
  induction items with
  | nil => exact ⟨rfl, trivial⟩
  | cons item rest ih =>
    rw [List.flatMap_cons, List.flatMap_append, List.map_cons]
    exact Carries.cons (ops_layout encoding memory item) ih

end ManagedItem

theorem OutputStream.produced {minBlobSize : Nat} {items : List (ManagedItem Text)}
    (formed : ∀ item ∈ items, item.WellFormed encoding) {buffer : ConstBuffer} {t : OutputBuffer}
    (run : OutputStream.produce pool bond encoding items (OutputBuffer.members minBlobSize) = .ok buffer t) :
    buffer.Valid ∧ buffer.bytes = itemBytes (items.map (ManagedItem.layout encoding)) ∧
      Carries buffer.segments 0 (items.map (ManagedItem.layout encoding)) := by
  have opsFormed : ∀ op ∈ items.flatMap (ManagedItem.ops encoding), op.WellFormed := by
    intro op member
    obtain ⟨item, inside, among⟩ := List.mem_flatMap.1 member
    exact ManagedItem.ops_wellFormed (formed item inside) op among
  obtain ⟨joined, published⟩ := OutputBuffer.produce_spec opsFormed (OutputStream.produce_ok formed run)
  obtain ⟨bytes, carries⟩ := ManagedItem.ops_carry encoding pool.memory items
  exact ⟨fun blob member => (published blob member).valid, joined.1.trans bytes, carries.coarser joined⟩

end Writing

section Reading

variable {encoding : Encoding Text} {s t : InputBuffer}

theorem InputBuffer.allocate_of_readValue {n : Nat} {bytes : List Byte} (run : readValue n s = .ok bytes t) :
    allocate n s = .ok (s.ptr, bytes) t := by
  rw [readValue, readSingle_run] at run
  rw [allocate, readSingle_run]
  split at run
  · cases run
  · next open_ =>
    cases run
    rw [if_neg open_]

theorem uint32_length {n : Nat} (small : n < 2 ^ 32) : uint32 n = n := by
  rw [uint32, Int.emod_eq_of_lt (by omega) (by omega)]
  rfl

theorem InputStream.readString_run {n : Nat} (small : n < 2 ^ 32) {ptr : Ptr} {bytes : List Byte}
    (run : InputBuffer.allocate n s = .ok (ptr, bytes) t) : InputStream.readString n s = .ok bytes t := by
  rw [InputStream.readString, uint32_length small, run_bind_of_ok (InputStream.native_run run)]
  dsimp only
  rw [if_neg (Int.not_lt.2 (Int.natCast_nonneg n))]
  rfl

theorem InputStream.read_string_run (bond : BondCodec) {text : Text}
    (formed : (ManagedItem.string text).WellFormed encoding) {ptr : Ptr}
    (run : InputBuffer.allocate (encoding.getBytes text).length s = .ok (ptr, encoding.getBytes text) t) :
    InputStream.read bond encoding (.string text) s = .ok (.text text) t := by
  obtain ⟨short, lossless⟩ := formed
  have size : (encoding.getBytes text).length < 2 ^ 32 := Nat.lt_trans short (by decide)
  rw [InputStream.read, run_bind_of_ok (InputStream.readString_run size run), lossless]
  rfl

theorem InputBuffer.Settled.read_empty_string (bond : BondCodec) (settled : s.Settled) {text : Text}
    (formed : (ManagedItem.string text).WellFormed encoding) (empty : encoding.getBytes text = []) :
    (s.remaining ≠ [] ∧ InputStream.read bond encoding (.string text) s = .ok (.text text) s) ∨
      (s.remaining = [] ∧ InputStream.read bond encoding (.string text) s = .error (.native .outOfRange) s) := by
  have none : (encoding.getBytes text).length = 0 := List.length_eq_zero_iff.2 empty
  rcases settled.invariant.readSingle_zero (fun s => (s.ptr, s.load s.ptr 0)) with ⟨more, run⟩ | ⟨ended, _, fails⟩
  · have nothing :
        InputBuffer.allocate (encoding.getBytes text).length s = .ok (s.ptr, encoding.getBytes text) s := by
      rw [none, empty]
      exact run
    exact Or.inl ⟨more, InputStream.read_string_run bond formed nothing⟩
  · have fails : InputBuffer.allocate 0 s = .error .outOfRange s := fails settled
    have error : InputStream.readString (0 : Nat) s = .error (.native .outOfRange) s := by
      rw [InputStream.readString, uint32_length (by decide)]
      exact run_bind_of_error (by rw [InputStream.native, fails])
    refine Or.inr ⟨ended, ?_⟩
    rw [InputStream.read, none, run_bind_of_error error]

theorem InputBuffer.Settled.read_layout (bond : BondCodec) (settled : s.Settled)
    (small : ∀ blob ∈ s.buffer.blobs, blob.size < 2 ^ 32) {layout : Item} (formed : layout.WellFormed)
    (at_ : layout.At s.buffer.segments s.pos) (inside : s.pos + layout.bytes.length ≤ s.stop) :
    ∃ t, layout.read bond s = .ok layout.value t ∧ s.SameInput t ∧ t.pos = s.pos + layout.bytes.length ∧
      t.Settled := by
  obtain ⟨t, run, same, moved, _, next⟩ := settled.invariant.read_item bond small formed at_ inside
  exact ⟨t, run, same, moved, next settled⟩

/-- The read of an item that lies at the cursor, which `rest` follows up to the end of the input. -/
theorem InputBuffer.Settled.read_managed (bond : BondCodec) (settled : s.Settled)
    (small : ∀ blob ∈ s.buffer.blobs, blob.size < 2 ^ 32)
    {item : ManagedItem Text} (formed : item.WellFormed encoding)
    (at_ : (item.layout encoding).At s.buffer.segments s.pos) (rest : List Byte)
    (whole : s.pos + (item.layout encoding).bytes.length + rest.length = s.stop) :
    (∃ t, InputStream.read bond encoding item s = .ok item.value t ∧ s.SameInput t ∧
        t.pos = s.pos + (item.layout encoding).bytes.length ∧ t.Settled ∧ item.ReadableBefore encoding rest) ∨
      (¬ item.ReadableBefore encoding rest ∧ ∃ e t, InputStream.read bond encoding item s = .error e t) := by
  have inside : s.pos + (item.layout encoding).bytes.length ≤ s.stop := by omega
  cases item with
  | primitive value =>
    have fits : (Item.primitive value).WellFormed := ⟨formed.2, fun _ => formed.1⟩
    obtain ⟨t, run, same, moved, next⟩ := settled.read_layout bond small fits at_ inside
    obtain ⟨bytes, u, read, result⟩ := bind_ok.1 run
    cases result
    exact Or.inl ⟨t, run_bind_of_ok (InputStream.native_run read), same, moved, next, trivial⟩
  | variableUnsigned width number =>
    have fits : (Item.variableUnsigned width number).WellFormed := ⟨formed, nofun⟩
    obtain ⟨t, run, same, moved, next⟩ := settled.read_layout bond small fits at_ inside
    obtain ⟨value, u, read, result⟩ := bind_ok.1 run
    cases result
    exact Or.inl ⟨t, run_bind_of_ok (InputStream.native_run read), same, moved, next, trivial⟩
  | string text =>
    by_cases empty : encoding.getBytes text = []
    · have none : (ManagedItem.layout encoding (.string text)).bytes.length = 0 := List.length_eq_zero_iff.2 empty
      have after : s.remaining = [] ↔ rest = [] := by
        rw [← List.length_eq_zero_iff, ← List.length_eq_zero_iff, settled.invariant.remaining_length]
        omega
      rcases settled.read_empty_string bond formed empty with ⟨more, run⟩ | ⟨ended, fails⟩
      · exact Or.inl ⟨s, run, .refl s, (congrArg (s.pos + ·) none).symm, settled, fun _ same => more (after.2 same)⟩
      · exact Or.inr ⟨fun allowed => allowed empty (after.1 ended), .native .outOfRange, s, fails⟩
    · have size : (encoding.getBytes text).length < 2 ^ 32 := Nat.lt_trans formed.1 (by decide)
      have fits : (Item.primitive (encoding.getBytes text)).WellFormed := ⟨size, fun _ => empty⟩
      obtain ⟨t, run, same, moved, next⟩ := settled.read_layout bond small fits at_ inside
      obtain ⟨bytes, u, read, result⟩ := bind_ok.1 run
      cases result
      have reads := InputStream.read_string_run bond formed (InputBuffer.allocate_of_readValue read)
      exact Or.inl ⟨t, reads, same, moved, next, fun none => absurd none empty⟩
  | bytes segment =>
    by_cases none : segment.count = 0
    · refine Or.inr ⟨fun some => some none, .indexOutOfRange, s, ?_⟩
      rw [InputStream.read, none]
      exact run_bind_of_error (InputStream.readBytes_zero s)
    · have length : segment.bytes.length = segment.count := by
        have extent := segment.inside
        rw [ArraySegment.bytes, List.length_take, List.length_drop]
        omega
      have count : segment.count < 2 ^ 31 := formed
      have size : segment.bytes.length < 2 ^ 32 := by
        rw [length]
        exact Nat.lt_trans count (by decide)
      have fits : (Item.raw segment.bytes).WellFormed := ⟨size, nofun⟩
      obtain ⟨t, run, same, moved, next⟩ := settled.read_layout bond small fits at_ inside
      obtain ⟨bytes, u, read, result⟩ := bind_ok.1 run
      cases result
      refine Or.inl ⟨t, ?_, same, moved, next, none⟩
      rw [length] at read
      rw [InputStream.read, InputStream.readBytes_positive (by omega) (by omega)]
      exact run_bind_of_ok (InputStream.native_run read)

theorem InputBuffer.Settled.read_all_managed (bond : BondCodec) (settled : s.Settled)
    (small : ∀ blob ∈ s.buffer.blobs, blob.size < 2 ^ 32) {items : List (ManagedItem Text)}
    (formed : ∀ item ∈ items, item.WellFormed encoding)
    (carries : Carries s.buffer.segments s.pos (items.map (ManagedItem.layout encoding)))
    (whole : s.pos + (itemBytes (items.map (ManagedItem.layout encoding))).length = s.stop) :
    (ManagedItem.Readable encoding items ∧
        ∃ t, InputStream.readAll bond encoding items s = .ok (items.map ManagedItem.value) t ∧ t.isEof = true) ∨
      (¬ ManagedItem.Readable encoding items ∧ ∃ e t, InputStream.readAll bond encoding items s = .error e t) := by
  induction items generalizing s with
  | nil => exact Or.inl ⟨trivial, s, rfl, settled.isEof_iff.2 whole⟩
  | cons item rest ih =>
    rw [List.map_cons, itemBytes_cons, List.length_append] at whole
    rw [List.map_cons] at carries
    have first := settled.read_managed bond small (formed item List.mem_cons_self) carries.1
      (itemBytes (rest.map (ManagedItem.layout encoding))) (by omega)
    rcases first with ⟨t, run, same, moved, next, allowed⟩ | ⟨denied, e, t, run⟩
    · have later := ih next (same.buffer ▸ small) (fun other member => formed other (List.mem_cons_of_mem _ member))
        (by rw [same.buffer, moved]; exact carries.2) (by rw [moved, same.stop]; omega)
      rcases later with ⟨readable, u, reads, ended⟩ | ⟨denied, e, u, reads⟩
      · refine Or.inl ⟨⟨allowed, readable⟩, u, ?_, ended⟩
        rw [InputStream.readAll, run_bind_of_ok run, run_bind_of_ok reads]
        rfl
      · refine Or.inr ⟨fun both => denied both.2, e, u, ?_⟩
        rw [InputStream.readAll, run_bind_of_ok run, run_bind_of_error reads]
    · refine Or.inr ⟨fun both => denied both.1, e, t, ?_⟩
      rw [InputStream.readAll, run_bind_of_error run]

theorem InputStream.readAll_ofBuffer (bond : BondCodec) {buffer : ConstBuffer} (valid : buffer.Valid)
    (small : ∀ blob ∈ buffer.blobs, blob.size < 2 ^ 32) {items : List (ManagedItem Text)}
    (formed : ∀ item ∈ items, item.WellFormed encoding)
    (bytes : buffer.bytes = itemBytes (items.map (ManagedItem.layout encoding)))
    (carries : Carries buffer.segments 0 (items.map (ManagedItem.layout encoding))) :
    (ManagedItem.Readable encoding items ∧ ∃ s, InputStream.readAll bond encoding items (.ofBuffer buffer) =
        .ok (items.map ManagedItem.value) s ∧ s.isEof = true) ∨
      (¬ ManagedItem.Readable encoding items ∧
        ∃ e s, InputStream.readAll bond encoding items (.ofBuffer buffer) = .error e s) := by
  obtain ⟨settled, same, start, stop⟩ := InputBuffer.ofBuffer_spec valid
  refine settled.read_all_managed bond (same.symm ▸ small) formed (by rwa [same, start]) ?_
  rw [start, stop, Nat.zero_add, bytes]

end Reading

/-- What managed code writes it reads back, up to the end of the input, exactly when it reads no empty segment, and no
empty string where no byte follows; otherwise a read throws. -/
theorem managed_round_trip (pool : BufferPool) (bond : BondCodec) (encoding : Encoding Text) (minBlobSize : Nat)
    (items : List (ManagedItem Text)) (formed : ∀ item ∈ items, item.WellFormed encoding) {buffer : ConstBuffer}
    {t : OutputBuffer}
    (run : OutputStream.produce pool bond encoding items (OutputBuffer.members minBlobSize) = .ok buffer t)
    (small : ∀ blob ∈ buffer.blobs, blob.size < 2 ^ 32) :
    (ManagedItem.Readable encoding items ∧ ∃ s, InputStream.readAll bond encoding items (.ofBuffer buffer) =
        .ok (items.map ManagedItem.value) s ∧ s.isEof = true) ∨
      (¬ ManagedItem.Readable encoding items ∧
        ∃ e s, InputStream.readAll bond encoding items (.ofBuffer buffer) = .error e s) := by
  obtain ⟨valid, bytes, carries⟩ := OutputStream.produced formed run
  exact InputStream.readAll_ofBuffer bond valid small formed bytes carries

def latin1 : Encoding (List Byte) := ⟨id, id⟩

theorem lastTwo_inside : 1 + 2 ≤ ((some [9, 8, 7] : Option (List Byte)).getD []).length := by decide

def lastTwo : ArraySegment := ⟨some [9, 8, 7], 1, 2, lastTwo_inside⟩

/-- Two strings, of which one is empty, and a segment of an array. -/
theorem managed_round_trip_strings :
    let items : List (ManagedItem (List Byte)) := [.primitive [1, 2], .string [], .string [104, 105],
      .variableUnsigned .bits16 300, .bytes lastTwo]
    ∃ buffer t, OutputStream.produce (simplePool 3 0) sevenBitCodec latin1 items (OutputBuffer.members 1) =
        .ok buffer t ∧
      ∃ s, InputStream.readAll sevenBitCodec latin1 items (.ofBuffer buffer) =
        .ok [.bytes [1, 2], .text [], .text [104, 105], .number 300, .bytes [8, 7]] s ∧ s.isEof = true := by
  intro items
  obtain ⟨buffer, t, run, small⟩ := exists_of_returns
    (fun buffer : ConstBuffer => decide (∀ blob ∈ buffer.blobs, blob.size < 2 ^ 32))
    (by decide +kernel : returns _ (OutputStream.produce (simplePool 3 0) sevenBitCodec latin1 items
      (OutputBuffer.members 1)) = true)
  have formed : ∀ item ∈ items, item.WellFormed latin1 := by
    simp only [items, List.forall_mem_cons, ManagedItem.WellFormed]
    exact ⟨by decide, by decide, by decide, by decide, by decide, by simp⟩
  have readable : ManagedItem.Readable latin1 items :=
    ⟨trivial, fun _ => List.cons_ne_nil _ _, nofun, trivial, (by decide : 2 ≠ 0), trivial⟩
  rcases managed_round_trip (simplePool 3 0) sevenBitCodec latin1 1 items formed run (of_decide_eq_true small) with
    ⟨_, s, reads, ended⟩ | ⟨denied, _⟩
  · exact ⟨buffer, t, run, s, reads, ended⟩
  · exact absurd readable denied

end IpcBond
