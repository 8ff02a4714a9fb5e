import IpcBond.TypedStream

/-! What is written through an `OutputBuffer` is read back through an `InputBuffer`: however
the bytes end up cut into blobs, no primitive and no blob is cut. -/

namespace IpcBond
open Library.Segments Library.StateExcept

/-- Typed writes with calls of `Flush` in between, which are `none`. -/
abbrev Script := List (Option Item)

namespace Script

def ops (script : Script) : List OutputBuffer.WriteOp :=
  script.map fun
    | some item => item.write
    | none => .flush

def items (script : Script) : List Item := script.filterMap id

end Script

theorem Item.pieces_flatten (memory : SharedMemory) (item : Item) :
    (item.write.pieces memory).flatten = item.bytes := by
  cases item with
  | primitive value => exact List.append_nil _
  | variableUnsigned width number => exact List.flatMap_singleton' _
  | raw bytes => exact List.append_nil _
  | blob source => exact List.append_nil _

theorem Item.pieces_at (memory : SharedMemory) (item : Item) : item.At (item.write.pieces memory) 0 := by
  constructor
  · rw [item.pieces_flatten, List.drop_zero, List.take_length]
  · intro single
    cases item with
    | primitive value => exact whole_singleton.2 (Nat.le_of_eq (Nat.zero_add _))
    | blob source => exact whole_singleton.2 (Nat.le_of_eq (Nat.zero_add _))
    | variableUnsigned width number => cases single
    | raw bytes => cases single

theorem pieces_carry (memory : SharedMemory) (items : List Item) :
    (items.flatMap fun item => item.write.pieces memory).flatten = itemBytes items ∧
      Carries (items.flatMap fun item => item.write.pieces memory) 0 items := by
  induction items with
  | nil => exact ⟨rfl, trivial⟩
  | cons item rest ih =>
    rw [List.flatMap_cons, List.flatten_append, item.pieces_flatten, ih.1, itemBytes_cons]
    have here : Carries (item.write.pieces memory) 0 [item] := ⟨item.pieces_at memory, trivial⟩
    refine ⟨rfl, (here.append_right _).1, ?_⟩
    · have later := ih.2.shift (item.write.pieces memory)
      rwa [item.pieces_flatten, Nat.add_comm] at later

theorem Script.pieces (memory : SharedMemory) (script : Script) :
    script.ops.flatMap (OutputBuffer.WriteOp.pieces memory) =
      script.items.flatMap fun item => item.write.pieces memory := by
  induction script with
  | nil => rfl
  | cons entry rest ih =>
    cases entry with
    | none => simpa [ops, items, OutputBuffer.WriteOp.pieces] using ih
    | some item => simpa [ops, items] using ih

theorem Script.ops_wellFormed {script : Script} (formed : ∀ item ∈ script.items, item.write.WellFormed) :
    ∀ op ∈ script.ops, op.WellFormed := by
  intro op member
  obtain ⟨entry, inside, rfl⟩ := List.mem_map.1 member
  cases entry with
  | none => trivial
  | some item => exact formed item (List.mem_filterMap.2 ⟨some item, inside, rfl⟩)

/-- A buffer written by a script carries its items from the start, and nothing else. -/
theorem Script.produced {pool : BufferPool} {bond : BondCodec} {minBlobSize : Nat} {script : Script}
    {finish : OutputBuffer.Finish} {buffer : ConstBuffer} {t : OutputBuffer}
    (formed : ∀ item ∈ script.items, item.write.WellFormed)
    (run : OutputBuffer.produce pool bond script.ops finish (OutputBuffer.members minBlobSize) = .ok buffer t) :
    buffer.Valid ∧ buffer.bytes = itemBytes script.items ∧ Carries buffer.segments 0 script.items := by
  obtain ⟨joined, published⟩ := OutputBuffer.produce_spec (ops_wellFormed formed) run
  rw [script.pieces] at joined
  obtain ⟨bytes, carries⟩ := pieces_carry pool.memory script.items
  exact ⟨fun blob member => (published blob member).valid, joined.1.trans bytes, carries.coarser joined⟩

/-- Typed round trip: the matching reads of any prefix return the values written, and the
reader is at the end exactly when no byte of the other items remains. -/
theorem typed_round_trip (pool : BufferPool) (bond : BondCodec) (minBlobSize : Nat) (script : Script)
    (finish : OutputBuffer.Finish) (formed : ∀ item ∈ script.items, item.WellFormed)
    {buffer : ConstBuffer} {t : OutputBuffer}
    (run : OutputBuffer.produce pool bond script.ops finish (OutputBuffer.members minBlobSize) = .ok buffer t)
    (small : ∀ blob ∈ buffer.blobs, blob.size < 2 ^ 32) (front back : List Item)
    (split : script.items = front ++ back) :
    ∃ s, readItems bond front (InputBuffer.ofBuffer buffer) = .ok (front.map Item.value) s ∧
      (s.isEof = true ↔ itemBytes back = []) := by
  obtain ⟨valid, bytes, carries⟩ := Script.produced (fun item member => (formed item member).write) run
  obtain ⟨settled, same, start, stop⟩ := InputBuffer.ofBuffer_spec valid
  rw [split] at bytes carries formed
  have total := congrArg List.length bytes
  rw [itemBytes_append, List.length_append] at total
  obtain ⟨s, reads, sameInput, position, _, next⟩ := settled.invariant.read_items bond (same.symm ▸ small)
    (fun item member => formed item (List.mem_append_left _ member))
    (by rw [same, start]; exact (Carries.append.1 carries).1) (by omega)
  refine ⟨s, reads, ?_⟩
  rw [(next settled).isEof_iff, sameInput.stop, ← List.length_eq_zero_iff]
  omega

/-- A shared blob spliced in between a raw block and a primitive. -/
theorem typed_round_trip_spliced :
    let shared : BondBlob := .ofConstBlob ⟨some ⟨200, [7, 8, 9]⟩, 1, 3⟩
    let script : Script := [some (.raw [1, 2]), some (.blob shared), none, some (.primitive [5, 6]),
      some (.variableUnsigned .bits32 70000)]
    ∃ buffer t, OutputBuffer.produce (simplePool 3 0) sevenBitCodec script.ops .moved
        (OutputBuffer.members 1) = .ok buffer t ∧
      ∃ s, readItems sevenBitCodec script.items (InputBuffer.ofBuffer buffer) =
        .ok [.bytes [1, 2], .bytes [8, 9], .bytes [5, 6], .number 70000] s ∧ s.isEof = true := by
  intro shared script
  obtain ⟨buffer, t, run, small⟩ := exists_of_returns
    (fun buffer : ConstBuffer => decide (∀ blob ∈ buffer.blobs, blob.size < 2 ^ 32))
    (by decide +kernel : returns _ (OutputBuffer.produce (simplePool 3 0) sevenBitCodec script.ops .moved
      (OutputBuffer.members 1)) = true)
  have small := of_decide_eq_true small
  have formed : ∀ item ∈ script.items, item.WellFormed := by
    have valid : shared.Valid := BondBlob.ofConstBlob_valid (by decide) (by decide)
    have items : script.items = [.raw [1, 2], .blob shared, .primitive [5, 6], .variableUnsigned .bits32 70000] := rfl
    simp only [items, List.forall_mem_cons]
    exact ⟨⟨(by decide : 2 < 2 ^ 32), nofun⟩, ⟨valid, fun _ => by decide⟩,
      ⟨(by decide : 2 < 2 ^ 32), fun _ => by decide⟩, ⟨(by decide : 70000 < 2 ^ 32), nofun⟩, by simp⟩
  obtain ⟨s, reads, atEnd⟩ := typed_round_trip (simplePool 3 0) sevenBitCodec 1 script .moved formed run small
    script.items [] (List.append_nil _).symm
  exact ⟨buffer, t, run, s, reads, atEnd.2 rfl⟩

end IpcBond
