import IpcBond.EndOfInput
import IpcBond.ManagedStreams
import IpcBond.RoundTrip

/-! Payloads of zero length. Nothing is written for them, so the reader may be at the end of its
input when it is asked for them: a read across blobs does nothing then, and a read from one blob
finds no blob to read from. -/

namespace IpcBond
open Library.Segments Library.StateExcept

inductive ZeroRead where
  | bytes
  | skip
  | blob
  | allocate
  | managedBytes
  deriving DecidableEq, Repr

namespace ZeroRead

def Multiple (read : ZeroRead) : Prop := read = bytes ∨ read = skip

def Single (read : ZeroRead) : Prop := read = blob ∨ read = allocate

/-- Asked for no bytes, the read returns none and leaves the state as it is. -/
def Neutral (s : InputBuffer) : ZeroRead → Prop
  | bytes => InputBuffer.readBytes 0 s = .ok [] s
  | skip => InputBuffer.skip 0 s = .ok () s
  | blob => ∃ source, InputBuffer.readBlob 0 s = .ok source s ∧ source.bytes = []
  | allocate => ∃ ptr, InputBuffer.allocate 0 s = .ok (ptr, []) s
  | managedBytes => InputStream.readBytes 0 s = .ok [] s

end ZeroRead

namespace InputBuffer

theorem readMultiple_zero (func : Nat → InputBuffer → List Byte) (s : InputBuffer) :
    readMultiple 0 func s = .ok [] s := by
  rw [readMultiple_run, readLoop]
  rfl

theorem Invariant.readSingle_zero {α : Type} {s : InputBuffer} (inv : s.Invariant) (func : InputBuffer → α) :
    (s.remaining ≠ [] ∧ readSingle 0 func s = .ok (func s) s) ∨
      (s.remaining = [] ∧ (∀ value, readSingle 0 func s ≠ .ok value s) ∧
        (s.Settled → readSingle 0 func s = .error .outOfRange s)) := by
  have length := inv.remaining_length
  rw [readSingle_run]
  rcases inv.cursor with atEnd | ⟨o, inside, _, unparked⟩
  · rw [if_pos (Or.inr atEnd.isEof)]
    exact Or.inr ⟨inv.remaining_eq_nil.2 atEnd.pos, fun value => nofun, fun _ => rfl⟩
  · have position := inside.pos
    have boundary := inv.bounded.start_add_blobLength s.blob
    have covered := inv.bounded.start_add_blobLength_le_stop inside.blob_lt
    have open_ : ¬ (s.ptrEnd.offset < s.ptr.offset + 0 ∨ s.isEof = true) := by
      have fits := inside.fits
      rw [inside.offset, inside.endOffset, inside.isEof]
      simp
      omega
    rw [if_neg open_]
    by_cases before : o < s.blobLength s.blob
    · refine Or.inl ⟨fun none => ?_, ?_⟩
      · rw [inv.remaining_eq_nil] at none
        omega
      · rw [endRead_outcome inside.ptr inside.ptrEnd, if_neg (by omega), Nat.add_zero, ← inside.ptr]
    · -- a parked cursor moves to the end
      have parked : o + 0 = s.blobLength s.blob := by
        have fits := inside.fits
        omega
      have last : s.blob + 1 = s.blobEnd := unparked.resolve_left before
      rw [if_pos last] at boundary
      have none : s.remaining = [] := inv.remaining_eq_nil.2 (by omega)
      refine Or.inr ⟨none, fun value same => ?_, fun settled => ?_⟩
      rotate_left
      · have flag := settled.isEof_iff.2 (inv.remaining_eq_nil.1 none)
        rw [inside.isEof] at flag
        cases flag
      obtain ⟨_, moved, settled⟩ := endRead_spec inv.bounded inside (Nat.le_of_eq parked)
      have ended : (s.endRead (s.ptr.add 0)).isEof = true := settled.isEof_iff.2 (by
        rw [moved, (endRead_spec inv.bounded inside (Nat.le_of_eq parked)).1.stop]
        omega)
      injection same with _ stays
      rw [stays, inside.isEof] at ended
      cases ended

end InputBuffer

open InputBuffer in
/-- Asked for no bytes, the reads across blobs succeed and change nothing in every state, those
from one blob exactly where a byte remains, and `ReadBytes` of the managed stream nowhere, though
an empty segment is written without an effect. -/
theorem zero_length_iff (bond : BondCodec) (input : Input) (obtained : input.Obtained bond) {s : InputBuffer}
    (reach : Reachable bond input.opened s) :
    (∀ read : ZeroRead, read.Neutral s ↔ read.Multiple ∨ read.Single ∧ s.remaining ≠ []) ∧
      ∀ (pool : BufferPool) (segment : ArraySegment) (output : OutputBuffer), segment.count = 0 →
        OutputStream.writeBytes pool segment output = .ok () output := by
  refine ⟨fun read => ?_, fun pool segment output empty => OutputStream.writeBytes_empty pool empty output⟩
  have inv := (reach.spec (Input.opened_spec obtained.wellFormed).1).invariant
  cases read with
  | bytes => exact iff_of_true (readMultiple_zero _ s) (Or.inl (Or.inl rfl))
  | skip => exact iff_of_true (by rw [ZeroRead.Neutral, skip_run, readMultiple_zero]) (Or.inl (Or.inr rfl))
  | blob =>
    have single : ZeroRead.blob.Multiple ∨ ZeroRead.blob.Single ∧ s.remaining ≠ [] ↔ s.remaining ≠ [] := by
      simp [ZeroRead.Multiple, ZeroRead.Single]
    rw [single, ZeroRead.Neutral, readBlob]
    rcases inv.readSingle_zero (fun s =>
        (BondBlob.ofConstBlob s.current).assign (sizeT (s.ptr.sub s.current.data) % 2 ^ 32) 0) with
      ⟨more, run⟩ | ⟨none, fails, _⟩
    · exact iff_of_true ⟨_, run, List.take_zero⟩ more
    · refine iff_of_false ?_ (not_not.mpr none)
      rintro ⟨blob, run, _⟩
      exact fails blob run
  | allocate =>
    have single : ZeroRead.allocate.Multiple ∨ ZeroRead.allocate.Single ∧ s.remaining ≠ [] ↔ s.remaining ≠ [] := by
      simp [ZeroRead.Multiple, ZeroRead.Single]
    rw [single, ZeroRead.Neutral, InputBuffer.allocate]
    rcases inv.readSingle_zero (fun s => (s.ptr, s.load s.ptr 0)) with ⟨more, run⟩ | ⟨none, fails, _⟩
    · exact iff_of_true ⟨_, run⟩ more
    · refine iff_of_false ?_ (not_not.mpr none)
      rintro ⟨ptr, run⟩
      exact fails _ run
  | managedBytes =>
    refine iff_of_false ?_ (by simp [ZeroRead.Multiple, ZeroRead.Single])
    rw [ZeroRead.Neutral, InputStream.readBytes_zero]
    simp

/-- A round trip that ends in an empty blob: the last byte is read, and then the blob. -/
theorem zero_length_not_neutral :
    let script : Script := [some (.raw [1, 2]), some (.blob (.ofBytes []))]
    ∃ buffer t, OutputBuffer.produce (simplePool 4 0) sevenBitCodec script.ops .moved
        (OutputBuffer.members 1) = .ok buffer t ∧
      ∃ s, InputBuffer.Reachable sevenBitCodec (.ofBuffer buffer) s ∧
        readItems sevenBitCodec script.items (.ofBuffer buffer) = .error .outOfRange s ∧
        ¬ ZeroRead.blob.Neutral s ∧ ¬ ZeroRead.allocate.Neutral s ∧ ¬ ZeroRead.managedBytes.Neutral s := by
  intro script
  obtain ⟨buffer, t, run, same⟩ := exists_of_returns
    (fun buffer : ConstBuffer => decide (buffer = ⟨some [⟨some ⟨100, [1, 2]⟩, 0, 2⟩]⟩))
    (by decide +kernel : returns _ (OutputBuffer.produce (simplePool 4 0) sevenBitCodec script.ops .moved
      (OutputBuffer.members 1)) = true)
  have same := of_decide_eq_true same
  refine ⟨buffer, t, run, _, .step .origin (.bytes 2), ?_⟩
  subst same
  refine ⟨rfl, ?_, ?_, ?_⟩
  · rintro ⟨source, read, _⟩
    cases read
  · rintro ⟨ptr, read⟩
    cases read
  · intro read
    cases read

/-- At the start of two bytes. -/
theorem zero_length_at_start :
    let input : Input := .ofBuffer ⟨some [⟨some ⟨1, [1, 2]⟩, 0, 2⟩]⟩
    ZeroRead.blob.Neutral input.opened ∧ ZeroRead.allocate.Neutral input.opened := by
  intro input
  have obtained : input.Obtained sevenBitCodec := .ofBuffer (by decide)
  have reads := (zero_length_iff sevenBitCodec input obtained .origin).1
  exact ⟨(reads .blob).2 (Or.inr ⟨Or.inl rfl, by decide⟩), (reads .allocate).2 (Or.inr ⟨Or.inr rfl, by decide⟩)⟩

/-- No item that is read from one blob is empty where only empty ones follow. -/
def NoneEmptyAtEnd : List Item → Prop
  | [] => True
  | item :: rest => (item.single = true → item.bytes = [] → itemBytes rest ≠ []) ∧ NoneEmptyAtEnd rest

namespace InputBuffer

theorem Settled.read_item_iff (bond : BondCodec) {s : InputBuffer} (settled : s.Settled)
    (small : ∀ blob ∈ s.buffer.blobs, blob.size < 2 ^ 32) {item : Item} (formed : item.write.WellFormed)
    (primitive : ∀ value, item = .primitive value → value ≠ []) (at_ : item.At s.buffer.segments s.pos)
    (rest : List Byte) (whole : s.pos + item.bytes.length + rest.length = s.stop) :
    (∃ t, item.read bond s = .ok item.value t ∧ s.SameInput t ∧ t.pos = s.pos + item.bytes.length ∧ t.Settled ∧
        (item.single = true → item.bytes = [] → rest ≠ [])) ∨
      (¬ (item.single = true → item.bytes = [] → rest ≠ []) ∧ ∃ t, item.read bond s = .error .outOfRange t) := by
  have inv := settled.invariant
  by_cases empty : item.single = true ∧ item.bytes = []
  · cases item with
    | primitive value => exact absurd empty.2 (primitive value rfl)
    | variableUnsigned width number => cases empty.1
    | raw bytes => cases empty.1
    | blob source =>
      have none : source.size = 0 := by
        have length : source.bytes.length = source.size := BondBlob.Valid.bytes_length formed
        rw [← length, show source.bytes = [] from empty.2, List.length_nil]
      have noBytes : source.bytes = [] := empty.2
      have after : s.remaining = [] ↔ rest = [] := by
        rw [← List.length_eq_zero_iff, ← List.length_eq_zero_iff, inv.remaining_length]
        rw [empty.2, List.length_nil] at whole
        omega
      simp only [Item.read, InputBuffer.readBlob, none, Item.value, noBytes]
      rcases inv.readSingle_zero (fun s =>
          (BondBlob.ofConstBlob s.current).assign (sizeT (s.ptr.sub s.current.data) % 2 ^ 32) 0) with
        ⟨more, run⟩ | ⟨ended, _, fails⟩
      · refine Or.inl ⟨s, ?_, .refl s, by rw [empty.2]; rfl, settled, fun _ _ => fun same => more (after.2 same)⟩
        rw [run_bind_of_ok run]
        simp [BondBlob.bytes, BondBlob.assign]
      · refine Or.inr ⟨fun allowed => allowed empty.1 empty.2 (after.1 ended), s, ?_⟩
        rw [run_bind_of_error (fails settled)]
  · have typed : item.WellFormed := ⟨formed, fun single none => empty ⟨single, none⟩⟩
    obtain ⟨t, run, same, moved, _, next⟩ := inv.read_item bond small typed at_ (by omega)
    exact Or.inl ⟨t, run, same, moved, next settled, fun single none => absurd ⟨single, none⟩ empty⟩

theorem Settled.read_items_iff (bond : BondCodec) {s : InputBuffer} (settled : s.Settled)
    (small : ∀ blob ∈ s.buffer.blobs, blob.size < 2 ^ 32) {items : List Item}
    (formed : ∀ item ∈ items, item.write.WellFormed) (primitives : ∀ value, .primitive value ∈ items → value ≠ [])
    (carries : Carries s.buffer.segments s.pos items) (whole : s.pos + (itemBytes items).length = s.stop) :
    (NoneEmptyAtEnd items ∧ ∃ t, readItems bond items s = .ok (items.map Item.value) t) ∨
      (¬ NoneEmptyAtEnd items ∧ ∃ t, readItems bond items s = .error .outOfRange t) := by
  induction items generalizing s with
  | nil => exact Or.inl ⟨trivial, s, rfl⟩
  | cons item rest ih =>
    have inv := settled.invariant
    rw [itemBytes_cons, List.length_append] at whole
    have first := settled.read_item_iff bond small (formed item List.mem_cons_self)
      (fun value same => primitives value (same ▸ List.mem_cons_self)) carries.1 (itemBytes rest) (by omega)
    rcases first with ⟨t, run, same, moved, next, allowed⟩ | ⟨last, t, run⟩
    · rcases ih next (same.buffer ▸ small) (fun other member => formed other (List.mem_cons_of_mem _ member))
          (fun value member => primitives value (List.mem_cons_of_mem _ member))
          (by rw [same.buffer, moved]; exact carries.2) (by rw [moved, same.stop]; omega) with
        ⟨later, u, reads⟩ | ⟨last, u, reads⟩
      · refine Or.inl ⟨⟨allowed, later⟩, u, ?_⟩
        rw [readItems, run_bind_of_ok run, run_bind_of_ok reads]
        rfl
      · refine Or.inr ⟨fun both => last both.2, u, ?_⟩
        rw [readItems, run_bind_of_ok run, run_bind_of_error reads]
    · refine Or.inr ⟨fun both => last both.1, t, ?_⟩
      rw [readItems, run_bind_of_error run]

end InputBuffer

/-- A sequence with items of zero length is read back as a whole exactly when no empty blob is
written after the last byte. -/
theorem zero_length_round_trip (pool : BufferPool) (bond : BondCodec) (minBlobSize : Nat) (script : Script)
    (finish : OutputBuffer.Finish) (formed : ∀ item ∈ script.items, item.write.WellFormed)
    (primitives : ∀ value, .primitive value ∈ script.items → value ≠ [])
    {buffer : ConstBuffer} {t : OutputBuffer}
    (run : OutputBuffer.produce pool bond script.ops finish (OutputBuffer.members minBlobSize) = .ok buffer t)
    (small : ∀ blob ∈ buffer.blobs, blob.size < 2 ^ 32) :
    (∃ s, readItems bond script.items (.ofBuffer buffer) = .ok (script.items.map Item.value) s) ↔
      NoneEmptyAtEnd script.items := by
  obtain ⟨valid, bytes, carries⟩ := Script.produced formed run
  obtain ⟨settled, same, start, stop⟩ := InputBuffer.ofBuffer_spec valid
  have whole : (InputBuffer.ofBuffer buffer).pos + (itemBytes script.items).length =
      (InputBuffer.ofBuffer buffer).stop := by
    rw [start, stop, bytes, Nat.zero_add]
  rcases settled.read_items_iff bond (same.symm ▸ small) formed primitives
      (by rw [same, start]; exact carries) whole with ⟨allowed, s, reads⟩ | ⟨last, s, reads⟩
  · exact iff_of_true ⟨s, reads⟩ allowed
  · refine iff_of_false (fun ⟨u, other⟩ => ?_) last
    rw [reads] at other
    cases other

end IpcBond
