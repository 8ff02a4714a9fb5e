import IpcBond.AdaptiveReader
import IpcBond.ManagedRoundTrip

/-! Peers in C++ and in .NET read each other's buffers. -/

namespace IpcBond
open Library.Segments Library.StateExcept

variable {Text : Type} {encoding : Encoding Text}

namespace ManagedItem

/-- A native write of what managed code reads as an item: a string and an array are written from memory, an array also
as a blob. -/
inductive WrittenBy (encoding : Encoding Text) : ManagedItem Text → OutputBuffer.WriteOp → Prop where
  | primitive (value : List Byte) : WrittenBy encoding (.primitive value) (.value value)
  | variableUnsigned (width : Width) (number : Nat) :
    WrittenBy encoding (.variableUnsigned width number) (.variableUnsigned width number)
  | string (text : Text) : WrittenBy encoding (.string text) (.raw (encoding.getBytes text))
  | raw (segment : ArraySegment) : WrittenBy encoding (.bytes segment) (.raw segment.bytes)
  | blob (segment : ArraySegment) (source : BondBlob) (same : source.bytes = segment.bytes) :
    WrittenBy encoding (.bytes segment) (.blob source)

inductive Written (encoding : Encoding Text) : List (ManagedItem Text) → List OutputBuffer.WriteOp → Prop where
  | nil : Written encoding [] []
  | flush {items : List (ManagedItem Text)} {ops : List OutputBuffer.WriteOp} (rest : Written encoding items ops) :
    Written encoding items (.flush :: ops)
  | write {item : ManagedItem Text} {items : List (ManagedItem Text)} {op : OutputBuffer.WriteOp}
    {ops : List OutputBuffer.WriteOp} (first : WrittenBy encoding item op) (rest : Written encoding items ops) :
    Written encoding (item :: items) (op :: ops)

def native (encoding : Encoding Text) : ManagedItem Text → Item
  | primitive value => .primitive value
  | variableUnsigned width number => .variableUnsigned width number
  | string text => .raw (encoding.getBytes text)
  | bytes segment => .raw segment.bytes

theorem WrittenBy.pieces {item : ManagedItem Text} {op : OutputBuffer.WriteOp} (written : WrittenBy encoding item op)
    (memory : SharedMemory) : op.pieces memory = (item.layout encoding).write.pieces memory := by
  cases written with
  | primitive value => rfl
  | variableUnsigned width number => rfl
  | string text => rfl
  | raw segment => rfl
  | blob segment source same => exact congrArg (fun bytes => [bytes]) same

theorem Written.carry {items : List (ManagedItem Text)} {ops : List OutputBuffer.WriteOp}
    (written : Written encoding items ops) (memory : SharedMemory) :
    (ops.flatMap (OutputBuffer.WriteOp.pieces memory)).flatten = itemBytes (items.map (layout encoding)) ∧
      Carries (ops.flatMap (OutputBuffer.WriteOp.pieces memory)) 0 (items.map (layout encoding)) := by
  induction written with
  | nil => exact ⟨rfl, trivial⟩
  | flush rest ih => exact ih
  | @write item items op ops first rest ih =>
    rw [List.flatMap_cons, List.map_cons, first.pieces memory]
    exact Carries.cons ⟨(item.layout encoding).pieces_flatten memory, (item.layout encoding).pieces_at memory⟩ ih

theorem native_bytes (item : ManagedItem Text) : (item.native encoding).bytes = (item.layout encoding).bytes := by
  cases item with
  | primitive value => rfl
  | variableUnsigned width number => rfl
  | string text => rfl
  | bytes segment => rfl

theorem native_itemBytes (items : List (ManagedItem Text)) :
    itemBytes (items.map (native encoding)) = itemBytes (items.map (layout encoding)) := by
  rw [itemBytes, itemBytes, List.flatMap_map, List.flatMap_map]
  exact List.flatMap_congr fun item _ => native_bytes item

/-- Where an item lies as managed code reads it, it lies as native code does. -/
theorem native_at {item : ManagedItem Text} {segments : List (List Byte)} {a : Nat}
    (at_ : (item.layout encoding).At segments a) : (item.native encoding).At segments a := by
  cases item with
  | primitive value => exact at_
  | variableUnsigned width number => exact at_
  | string text => exact ⟨at_.bytes, nofun⟩
  | bytes segment => exact at_

theorem native_carries {segments : List (List Byte)} {items : List (ManagedItem Text)} {a : Nat}
    (carries : Carries segments a (items.map (layout encoding))) :
    Carries segments a (items.map (native encoding)) := by
  induction items generalizing a with
  | nil => trivial
  | cons item rest ih =>
    refine ⟨native_at carries.1, ?_⟩
    rw [native_bytes]
    exact ih carries.2

theorem native_wellFormed {item : ManagedItem Text} (formed : item.WellFormed encoding) :
    (item.native encoding).WellFormed := by
  cases item with
  | primitive value => exact ⟨formed.2, fun _ => formed.1⟩
  | variableUnsigned width number => exact ⟨formed, nofun⟩
  | string text => exact ⟨Nat.lt_trans formed.1 (by decide), nofun⟩
  | bytes segment =>
    refine ⟨Nat.lt_of_le_of_lt (List.length_take_le _ _) (Nat.lt_trans (show segment.count < 2 ^ 31 from formed) ?_),
      nofun⟩
    decide

end ManagedItem

/-- What native code writes managed code reads as its own: all values, up to the end of the input, exactly when it reads
no empty segment, and no empty string where no byte follows; otherwise a read throws. -/
theorem managed_reads_native (pool : BufferPool) (bond : BondCodec) (encoding : Encoding Text) (minBlobSize : Nat)
    (finish : OutputBuffer.Finish) {items : List (ManagedItem Text)} {ops : List OutputBuffer.WriteOp}
    (written : ManagedItem.Written encoding items ops) (formed : ∀ item ∈ items, item.WellFormed encoding)
    (opsFormed : ∀ op ∈ ops, op.WellFormed) {buffer : ConstBuffer} {t : OutputBuffer}
    (run : OutputBuffer.produce pool bond ops finish (OutputBuffer.members minBlobSize) = .ok buffer t)
    (small : ∀ blob ∈ buffer.blobs, blob.size < 2 ^ 32) :
    (ManagedItem.Readable encoding items ∧ ∃ s, InputStream.readAll bond encoding items (.ofBuffer buffer) =
        .ok (items.map ManagedItem.value) s ∧ s.isEof = true) ∨
      (¬ ManagedItem.Readable encoding items ∧
        ∃ e s, InputStream.readAll bond encoding items (.ofBuffer buffer) = .error e s) := by
  obtain ⟨joined, published⟩ := OutputBuffer.produce_spec opsFormed run
  obtain ⟨bytes, carries⟩ := written.carry pool.memory
  exact InputStream.readAll_ofBuffer bond (fun blob member => (published blob member).valid) small formed
    (joined.1.trans bytes) (carries.coarser joined)

/-- A string from memory, and a blob that is read as an array. -/
theorem managed_reads_native_mixed :
    let items : List (ManagedItem (List Byte)) := [.string [104, 105], .variableUnsigned .bits16 300, .bytes lastTwo]
    let ops : List OutputBuffer.WriteOp :=
      [.raw [104, 105], .variableUnsigned .bits16 300, .flush, .blob (.ofBytes [8, 7])]
    ∃ buffer t, OutputBuffer.produce (simplePool 3 0) sevenBitCodec ops .flushed (OutputBuffer.members 1) =
        .ok buffer t ∧
      ∃ s, InputStream.readAll sevenBitCodec latin1 items (.ofBuffer buffer) =
        .ok [.text [104, 105], .number 300, .bytes [8, 7]] s ∧ s.isEof = true := by
  intro items ops
  obtain ⟨buffer, t, run, small⟩ := exists_of_returns
    (fun buffer : ConstBuffer => decide (∀ blob ∈ buffer.blobs, blob.size < 2 ^ 32))
    (by decide +kernel : returns _ (OutputBuffer.produce (simplePool 3 0) sevenBitCodec ops .flushed
      (OutputBuffer.members 1)) = true)
  have written : ManagedItem.Written latin1 items ops :=
    .write (.string _) (.write (.variableUnsigned _ _) (.flush (.write (.blob _ _ (by decide)) .nil)))
  have formed : ∀ item ∈ items, item.WellFormed latin1 := by
    simp only [items, List.forall_mem_cons, ManagedItem.WellFormed]
    exact ⟨by decide, by decide, by decide, by simp⟩
  have opsFormed : ∀ op ∈ ops, op.WellFormed := by
    simp only [ops, List.forall_mem_cons, OutputBuffer.WriteOp.WellFormed]
    exact ⟨by decide, by decide, trivial, BondBlob.ofBytes_valid (by decide), by simp⟩
  have readable : ManagedItem.Readable latin1 items :=
    ⟨fun none => absurd none (List.cons_ne_nil _ _), trivial, (by decide : 2 ≠ 0), trivial⟩
  rcases managed_reads_native (simplePool 3 0) sevenBitCodec latin1 1 .flushed written formed opsFormed run
    (of_decide_eq_true small) with ⟨_, s, reads, ended⟩ | ⟨denied, _⟩
  · exact ⟨buffer, t, run, s, reads, ended⟩
  · exact absurd readable denied

/-- What managed code writes a native reader makes the same of as of the items, whatever it decides to read next. -/
theorem native_reads_managed {α : Type} (pool : BufferPool) (bond : BondCodec) (encoding : Encoding Text)
    (minBlobSize : Nat) {items : List (ManagedItem Text)} (formed : ∀ item ∈ items, item.WellFormed encoding)
    {buffer : ConstBuffer} {t : OutputBuffer}
    (run : OutputStream.produce pool bond encoding items (OutputBuffer.members minBlobSize) = .ok buffer t)
    (small : ∀ blob ∈ buffer.blobs, blob.size < 2 ^ 32) (program : ReaderProgram α) {value : α} {left : List Item}
    (meaning : program.run ReadRequest.answer (items.map (ManagedItem.native encoding)) = some (value, left)) :
    ∃ s, program.run (ReadRequest.read bond) (InputBuffer.ofBuffer buffer) = .ok value s ∧
      s.remaining = itemBytes left ∧ (s.isEof = true ↔ itemBytes left = []) := by
  obtain ⟨valid, bytes, carries⟩ := OutputStream.produced formed run
  have nativeFormed : ∀ item ∈ items.map (ManagedItem.native encoding), item.WellFormed := by
    intro item member
    obtain ⟨source, inside, same⟩ := List.mem_map.1 member
    exact same ▸ ManagedItem.native_wellFormed (formed source inside)
  obtain ⟨before, _⟩ := Before.ofBuffer valid small nativeFormed
    (bytes.trans (ManagedItem.native_itemBytes items).symm) (ManagedItem.native_carries carries)
  exact ReaderProgram.reads bond program before meaning

/-- A count, and then a string of so many bytes. -/
theorem native_reads_managed_counted :
    let items : List (ManagedItem (List Byte)) := [.primitive [2], .string [104, 105], .bytes lastTwo]
    ∃ buffer t, OutputStream.produce (simplePool 3 0) sevenBitCodec latin1 items (OutputBuffer.members 1) =
        .ok buffer t ∧
      ∃ s, counted.run (ReadRequest.read sevenBitCodec) (InputBuffer.ofBuffer buffer) = .ok ([104, 105], false) s ∧
        s.remaining = [8, 7] := by
  intro items
  obtain ⟨buffer, t, run, small⟩ := exists_of_returns
    (fun buffer : ConstBuffer => decide (∀ blob ∈ buffer.blobs, blob.size < 2 ^ 32))
    (by decide +kernel : returns _ (OutputStream.produce (simplePool 3 0) sevenBitCodec latin1 items
      (OutputBuffer.members 1)) = true)
  have formed : ∀ item ∈ items, item.WellFormed latin1 := by
    simp only [items, List.forall_mem_cons, ManagedItem.WellFormed]
    exact ⟨by decide, by decide, by decide, by simp⟩
  obtain ⟨s, reads, remaining, _⟩ := native_reads_managed (simplePool 3 0) sevenBitCodec latin1 1 formed run
    (of_decide_eq_true small) counted rfl
  exact ⟨buffer, t, run, s, reads, remaining⟩

end IpcBond
