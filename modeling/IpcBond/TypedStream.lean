import IpcBond.InputRefinement
import IpcBond.OutputRefinement

/-! Typed values in a buffer: the writes that produce them, the matching reads, and a layout
relation that says where they lie. Reading from a position at which values lie gives them back. -/

namespace IpcBond
open Library.Segments Library.StateExcept

/-- A typed write, and with it the matching read. -/
inductive Item where
  | primitive (value : List Byte)
  | variableUnsigned (width : Width) (number : Nat)
  | raw (bytes : List Byte)
  | blob (source : BondBlob)

inductive Value where
  | bytes (bytes : List Byte)
  | number (number : Nat)
  deriving DecidableEq, Repr

namespace Item

def write : Item → OutputBuffer.WriteOp
  | primitive value => .value value
  | variableUnsigned width number => .variableUnsigned width number
  | raw bytes => .raw bytes
  | blob source => .blob source

def read (bond : BondCodec) : Item → Reader Value
  | primitive value => do return .bytes (← InputBuffer.readValue value.length)
  | variableUnsigned width _ => do return .number (← InputBuffer.readVariableUnsigned bond width)
  | raw bytes => do return .bytes (← InputBuffer.readBytes bytes.length)
  | blob source => do return .bytes (← InputBuffer.readBlob source.size).bytes

def value : Item → Value
  | primitive value => .bytes value
  | variableUnsigned _ number => .number number
  | raw bytes => .bytes bytes
  | blob source => .bytes source.bytes

def bytes (item : Item) : List Byte := item.write.bytes

/-- The item is read from one blob. -/
def single : Item → Bool
  | primitive _ => true
  | blob _ => true
  | _ => false

structure WellFormed (item : Item) : Prop where
  write : item.write.WellFormed
  nonempty : item.single → item.bytes ≠ []

structure At (segments : List (List Byte)) (item : Item) (a : Nat) : Prop where
  bytes : (segments.flatten.drop a).take item.bytes.length = item.bytes
  whole : item.single → Whole segments a item.bytes.length

end Item

/-- The items lie one after another from position `a` on. -/
def Carries (segments : List (List Byte)) : Nat → List Item → Prop
  | _, [] => True
  | a, item :: rest => item.At segments a ∧ Carries segments (a + item.bytes.length) rest

def itemBytes (items : List Item) : List Byte := items.flatMap Item.bytes

def readItems (bond : BondCodec) : List Item → Reader (List Value)
  | [] => return []
  | item :: rest => do
    let value ← item.read bond
    return value :: (← readItems bond rest)

@[simp] theorem itemBytes_cons (item : Item) (rest : List Item) :
    itemBytes (item :: rest) = item.bytes ++ itemBytes rest := List.flatMap_cons

theorem itemBytes_append (front back : List Item) :
    itemBytes (front ++ back) = itemBytes front ++ itemBytes back := List.flatMap_append

theorem Carries.append {segments : List (List Byte)} {front back : List Item} {a : Nat} :
    Carries segments a (front ++ back) ↔
      Carries segments a front ∧ Carries segments (a + (itemBytes front).length) back := by
  induction front generalizing a with
  | nil => simp [Carries, itemBytes]
  | cons item rest ih =>
    simp only [List.cons_append, Carries, ih, itemBytes_cons, List.length_append, Nat.add_assoc, and_assoc]

/-- Joining segments keeps every item in place. -/
theorem Carries.coarser {fine coarse : List (List Byte)} (joined : Coarser fine coarse) {items : List Item}
    {a : Nat} (carries : Carries fine a items) : Carries coarse a items := by
  induction items generalizing a with
  | nil => trivial
  | cons item rest ih =>
    obtain ⟨⟨bytes, whole⟩, later⟩ := carries
    exact ⟨⟨by rw [joined.1, bytes], fun single => joined.2 _ _ (whole single)⟩, ih later⟩

theorem Carries.cut {segments part : List (List Byte)} {first last : Nat} (cut : Cut segments part first last)
    {items : List Item} {a : Nat} (carries : Carries segments (first + a) items)
    (inside : first + a + (itemBytes items).length ≤ last) : Carries part a items := by
  induction items generalizing a with
  | nil => trivial
  | cons item rest ih =>
    obtain ⟨⟨bytes, whole⟩, later⟩ := carries
    rw [itemBytes_cons, List.length_append] at inside
    refine ⟨⟨?_, fun single => cut.2 _ _ (whole single) (by omega)⟩, ?_⟩
    · rw [cut.1, List.drop_drop, List.drop_take, List.take_take, Nat.min_eq_left (by omega), bytes]
    · rw [Nat.add_assoc] at later
      exact ih later (by omega)

theorem Carries.shift {segments : List (List Byte)} {items : List Item} {a : Nat}
    (carries : Carries segments a items) (front : List (List Byte)) :
    Carries (front ++ segments) (front.flatten.length + a) items := by
  induction items generalizing a with
  | nil => trivial
  | cons item rest ih =>
    obtain ⟨⟨bytes, whole⟩, later⟩ := carries
    refine ⟨⟨?_, fun single => (whole single).append_right front⟩, ?_⟩
    · rw [List.flatten_append, List.drop_length_add_append, bytes]
    · rw [Nat.add_assoc]
      exact ih later

theorem Carries.append_right {segments : List (List Byte)} {items : List Item} {a : Nat}
    (carries : Carries segments a items) (back : List (List Byte)) : Carries (segments ++ back) a items := by
  induction items generalizing a with
  | nil => trivial
  | cons item rest ih =>
    obtain ⟨⟨bytes, whole⟩, later⟩ := carries
    refine ⟨⟨?_, fun single => (whole single).append_left back⟩, ih later⟩
    have length := congrArg List.length bytes
    rw [List.length_take, List.length_drop] at length
    rw [List.flatten_append]
    by_cases none : item.bytes.length = 0
    · rw [List.length_eq_zero_iff.1 none]
      simp
    · rw [List.drop_append_of_le_length (by omega),
        List.take_append_of_le_length (by rw [List.length_drop]; omega), bytes]

namespace InputBuffer

theorem Inside.blobLength_pos {s : InputBuffer} {o : Nat} (inside : s.Inside o) :
    0 < s.blobLength s.blob := by
  have nonempty := inside.nonempty
  rw [current] at nonempty
  unfold blobLength
  split <;> omega

theorem ofBuffer_spec {buffer : ConstBuffer} (valid : buffer.Valid) :
    (ofBuffer buffer).Settled ∧ (ofBuffer buffer).buffer = buffer ∧ (ofBuffer buffer).pos = 0 ∧
      (ofBuffer buffer).stop = buffer.bytes.length := by
  obtain ⟨inv, sameBuffer, pos, stop⟩ : (ofBuffer buffer).Invariant ∧ (ofBuffer buffer).buffer = buffer ∧
      (ofBuffer buffer).pos = (Range.whole buffer).startPos ∧
      (ofBuffer buffer).stop = (Range.whole buffer).stopPos :=
    Input.opened_spec (show (Input.ofBuffer buffer).WellFormed from valid)
  have atStart : (Range.whole buffer).startPos = 0 := by simp [Range.whole, Range.startPos]
  have total : (Range.whole buffer).stopPos = buffer.bytes.length := start_of_length_le (by simp [Range.whole])
  refine ⟨⟨inv.bounded, ?_⟩, sameBuffer, pos.trans atStart, stop.trans total⟩
  rcases inv.cursor with atEnd | ⟨o, inside, _⟩
  · exact Or.inl atEnd
  · refine Or.inr ⟨o, inside, ?_⟩
    have covered := inside.blobLength_pos
    have position := inside.pos
    omega

section Reading

variable {s : InputBuffer} (inv : s.Invariant)
include inv

theorem Invariant.readVariableLoop_value {Acc : Type} (feed : Acc → Byte → Acc ⊕ Nat) {acc : Acc}
    {bytes : List Byte} {value fuel : Nat} (enough : bytes.length ≤ fuel)
    (decoded : decodeWith feed acc bytes = some value) (next : s.remaining.take bytes.length = bytes) :
    ∃ t, readVariableLoop feed fuel acc s = .ok value t ∧ s.SameInput t ∧ t.pos = s.pos + bytes.length ∧
      t.Settled := by
  induction bytes generalizing s acc fuel with
  | nil => simp [decodeWith] at decoded
  | cons byte rest ih =>
    obtain ⟨fuel, rfl⟩ : ∃ less, fuel = less + 1 := ⟨fuel - 1, by simp at enough; omega⟩
    have covered := inv.pos_le_stop
    have length := inv.remaining_length
    have limit := inv.bounded.stop_le_length
    have available : rest.length + 1 ≤ s.remaining.length := by
      have := congrArg List.length next
      simp only [List.length_take, List.length_cons] at this
      omega
    have single : 1 ≤ s.remaining.length ∧ Whole s.buffer.segments s.pos 1 :=
      ⟨by omega, whole_one (by change s.pos < s.buffer.bytes.length; omega)⟩
    rcases readSingle_whole inv (by decide : 0 < 1) (fun s => s.load s.ptr 1) with
      ⟨_, o, t, inside, fits, run, same, moved, settled⟩ | ⟨broken, _⟩
    · have first : s.remaining.take 1 = [byte] := by
        have := congrArg (List.take 1) next
        rwa [List.take_take, Nat.min_eq_left (by simp)] at this
      have later : t.remaining.take rest.length = rest := by
        rw [remaining_drop same moved]
        have := congrArg (List.drop 1) next
        rwa [List.drop_take, List.length_cons, Nat.add_sub_cancel] at this
      rw [readVariableLoop_succ, readValue, run]
      simp only [load_eq inv.bounded inside fits, first, List.headD_cons]
      rw [decodeWith] at decoded
      cases step : feed acc byte with
      | inl acc =>
        rw [step] at decoded
        obtain ⟨u, runRest, sameRest, movedRest, settledRest⟩ :=
          ih settled.invariant (Nat.le_of_succ_le_succ enough) decoded later
        exact ⟨u, runRest, same.trans sameRest, by rw [movedRest, moved, List.length_cons]; omega, settledRest⟩
      | inr result =>
        rw [step] at decoded
        simp only at decoded
        split at decoded
        · next last =>
          cases decoded
          exact ⟨t, rfl, same, by rw [moved, last]; rfl, settled⟩
        · cases decoded
    · exact absurd single broken

theorem Invariant.readVariableUnsigned_value (bond : BondCodec) {width : Width} {value : Nat}
    (bound : value < 2 ^ width.bits)
    (next : s.remaining.take (encodeVariable value).length = encodeVariable value) :
    ∃ t, readVariableUnsigned bond width s = .ok value t ∧ s.SameInput t ∧
      t.pos = s.pos + (encodeVariable value).length ∧ t.Settled := by
  rw [readVariableUnsigned_run]
  split
  · next fast =>
    obtain ⟨o, inside, room⟩ := fast_path_room inv fast
    have fits := encodeVariable_fits bound
    have memory : (s.current.memory.drop s.ptr.offset).take width.maxBytes = s.remaining.take width.maxBytes :=
      load_eq inv.bounded inside room
    have split : s.remaining = encodeVariable value ++ s.remaining.drop (encodeVariable value).length := by
      conv_lhs => rw [← List.take_append_drop (encodeVariable value).length s.remaining, next]
    have decoded : bond.readUnchecked width (s.current.memory.drop s.ptr.offset) =
        (value, (encodeVariable value).length) := by
      rw [bond.readUnchecked_local, memory, ← bond.readUnchecked_local, split,
        bond.readUnchecked_eq width value _ bound]
    rw [decoded]
    obtain ⟨same, moved, settled⟩ := endRead_spec inv.bounded inside
      (n := (encodeVariable value).length) (by omega)
    exact ⟨_, rfl, same, moved, settled⟩
  · have covered := inv.pos_le_stop
    have limit := inv.bounded.stop_le_length
    have length := inv.remaining_length
    have available := congrArg List.length next
    rw [List.length_take] at available
    exact inv.readVariableLoop_value _ (by omega) (bond.readByte_eq width value bound) next

theorem Invariant.read_item (bond : BondCodec) (small : ∀ blob ∈ s.buffer.blobs, blob.size < 2 ^ 32)
    {item : Item} (formed : item.WellFormed) (at_ : item.At s.buffer.segments s.pos)
    (inside : s.pos + item.bytes.length ≤ s.stop) :
    ∃ t, item.read bond s = .ok item.value t ∧ s.SameInput t ∧ t.pos = s.pos + item.bytes.length ∧
      t.Invariant ∧ (s.Settled → t.Settled) := by
  have next : s.remaining.take item.bytes.length = item.bytes := (remaining_take inside).trans at_.bytes
  have available : item.bytes.length ≤ s.remaining.length := by
    have := inv.remaining_length
    omega
  cases item with
  | primitive value =>
    have positive : 0 < value.length := List.length_pos_of_ne_nil (formed.nonempty rfl)
    rcases readSingle_whole inv positive (fun s => s.load s.ptr value.length) with
      ⟨_, o, t, within, fits, run, same, moved, settled⟩ | ⟨broken, _⟩
    · refine ⟨t, ?_, same, moved, settled.invariant, fun _ => settled⟩
      simp only [Item.read, InputBuffer.readValue]
      rw [run_bind_of_ok run, load_eq inv.bounded within fits]
      exact congrArg (fun bytes => EStateM.Result.ok (Value.bytes bytes) t) next
    · exact absurd ⟨available, at_.whole rfl⟩ broken
  | variableUnsigned width number =>
    obtain ⟨t, run, same, moved, settled⟩ := inv.readVariableUnsigned_value bond formed.write next
    exact ⟨t, by simp only [Item.read]; rw [run_bind_of_ok run]; rfl, same, moved, settled.invariant, fun _ => settled⟩
  | raw bytes =>
    rcases readMultiple_spec inv bytes.length (fun n s => s.load s.ptr n) with
      ⟨_, parts, t, run, same, moved, inv', settled, loaded⟩ | ⟨short, _⟩
    · refine ⟨t, ?_, same, moved, inv', settled⟩
      simp only [Item.read, InputBuffer.readBytes]
      rw [run_bind_of_ok run, loaded rfl]
      exact congrArg (fun bytes => EStateM.Result.ok (Value.bytes bytes) t) next
    · exact absurd available (Nat.not_le_of_lt short)
  | blob source =>
    have length : source.bytes.length = source.size := formed.write.bytes_length
    have positive : 0 < source.size := length ▸ List.length_pos_of_ne_nil (formed.nonempty rfl)
    have extent : (Item.blob source).bytes.length = source.size := length
    rw [extent] at next available inside ⊢
    rcases readSingle_whole inv positive (fun s =>
        (BondBlob.ofConstBlob s.current).assign (sizeT (s.ptr.sub s.current.data) % 2 ^ 32) source.size) with
      ⟨_, o, t, within, fits, run, same, moved, settled⟩ | ⟨broken, _⟩
    · refine ⟨t, ?_, same, moved, settled.invariant, fun _ => settled⟩
      simp only [Item.read, InputBuffer.readBlob]
      rw [run_bind_of_ok run]
      have delivered := (readBlob_value inv.bounded within fits (ConstBuffer.blobAt_size_lt (by decide) small s.blob)).2
      exact congrArg (fun bytes => EStateM.Result.ok (Value.bytes bytes) t) (delivered.trans next)
    · exact absurd ⟨available, extent ▸ at_.whole rfl⟩ broken

/-- The matching reads of items that lie at the cursor. -/
theorem Invariant.read_items (bond : BondCodec) (small : ∀ blob ∈ s.buffer.blobs, blob.size < 2 ^ 32)
    {items : List Item} (formed : ∀ item ∈ items, item.WellFormed)
    (carries : Carries s.buffer.segments s.pos items) (inside : s.pos + (itemBytes items).length ≤ s.stop) :
    ∃ t, readItems bond items s = .ok (items.map Item.value) t ∧ s.SameInput t ∧
      t.pos = s.pos + (itemBytes items).length ∧ t.Invariant ∧ (s.Settled → t.Settled) := by
  induction items generalizing s with
  | nil => exact ⟨s, rfl, .refl s, rfl, inv, id⟩
  | cons item rest ih =>
    rw [itemBytes_cons, List.length_append] at inside
    obtain ⟨t, run, same, moved, next, settled⟩ :=
      inv.read_item bond small (formed item List.mem_cons_self) carries.1 (by omega)
    obtain ⟨u, runRest, sameRest, movedRest, nextRest, settledRest⟩ := ih next (same.buffer ▸ small)
      (fun other member => formed other (List.mem_cons_of_mem _ member))
      (by rw [same.buffer, moved]; exact carries.2) (by rw [moved, same.stop]; omega)
    refine ⟨u, ?_, same.trans sameRest, ?_, nextRest, fun start => settledRest (settled start)⟩
    · rw [readItems, run_bind_of_ok run, run_bind_of_ok runRest]
      rfl
    · rw [movedRest, moved, itemBytes_cons, List.length_append, Nat.add_assoc]

end Reading

end InputBuffer

end IpcBond
