import IpcBond.PassThrough
import IpcBond.Library.Interaction

/-! Readers that decide by what they have read what to read next, as parsers do. Over a list of items such a reader
has a plain meaning; over a buffer that carries these items it comes to the same result. Blocks may be read in other
pieces than they were written in, and a part may be set aside as a range and read later. -/

namespace IpcBond
open Library.Segments Library.StateExcept Library.Interaction

inductive ReadRequest where
  | primitive (size : Nat)
  | variableUnsigned (width : Width)
  | raw (size : Nat)
  | blob (size : Nat)
  | skip (size : Nat)
  | isEof
  deriving DecidableEq, Repr

abbrev ReadRequest.Answer : ReadRequest → Type
  | primitive _ => List Byte
  | variableUnsigned _ => Nat
  | raw _ => List Byte
  | blob _ => List Byte
  | skip _ => Unit
  | isEof => Bool

abbrev ReaderProgram (α : Type) := Program ReadRequest ReadRequest.Answer α

namespace Item

def dropEmpty (items : List Item) : List Item := items.dropWhile fun item => item.bytes.isEmpty

def cut (n : Nat) : Item → Option (List Byte × Item)
  | raw bytes => some (bytes.take n, raw (bytes.drop n))
  | _ => none

/-- The next `n` bytes, where they end with an item or in a raw block, and the items that are left. -/
def takeBytes : Nat → List Item → Option (List Byte × List Item)
  | 0, items => some ([], items)
  | _ + 1, [] => none
  | n + 1, item :: rest =>
    if item.bytes.length ≤ n + 1 then
      (takeBytes (n + 1 - item.bytes.length) rest).map fun (bytes, left) => (item.bytes ++ bytes, left)
    else (item.cut (n + 1)).map fun (bytes, left) => (bytes, left :: rest)

end Item

namespace ReadRequest

def read (bond : BondCodec) : (request : ReadRequest) → Reader request.Answer
  | primitive size => InputBuffer.readValue size
  | variableUnsigned width => InputBuffer.readVariableUnsigned bond width
  | raw size => InputBuffer.readBytes size
  | blob size => do return (← InputBuffer.readBlob size).bytes
  | skip size => InputBuffer.skip size
  | isEof => do return (← get).isEof

def first {β : Type} (fits : Item → Option β) : StateT (List Item) Option β := fun items =>
  match Item.dropEmpty items with
  | item :: rest => (fits item).map fun value => (value, rest)
  | [] => none

def answer : (request : ReadRequest) → StateT (List Item) Option request.Answer
  | primitive size => first fun
    | .primitive value => if value.length = size then some value else none
    | _ => none
  | variableUnsigned width => first fun
    | .variableUnsigned own number => if own = width then some number else none
    | _ => none
  | raw size => Item.takeBytes size
  | blob size => first fun
    | .blob source => if source.size = size then some source.bytes else none
    | _ => none
  | skip size => fun items => (Item.takeBytes size items).map fun (_, rest) => ((), rest)
  | isEof => fun items => some ((itemBytes items).isEmpty, items)

end ReadRequest

/-- The cursor stands before the items, with nothing behind them. -/
structure Before (items : List Item) (s : InputBuffer) : Prop where
  settled : s.Settled
  small : ∀ blob ∈ s.buffer.blobs, blob.size < 2 ^ 32
  formed : ∀ item ∈ items, item.WellFormed
  carries : Carries s.buffer.segments s.pos items
  length : s.pos + (itemBytes items).length = s.stop

namespace Item

theorem dropEmpty_cons (item : Item) (rest : List Item) :
    dropEmpty (item :: rest) = if item.bytes = [] then dropEmpty rest else item :: rest := by
  simp only [dropEmpty, List.dropWhile_cons, List.isEmpty_iff]

theorem itemBytes_dropEmpty (items : List Item) : itemBytes (dropEmpty items) = itemBytes items := by
  induction items with
  | nil => rfl
  | cons item rest ih =>
    rw [dropEmpty_cons]
    split
    · next none => rw [ih, itemBytes_cons, none, List.nil_append]
    · rfl

theorem mem_of_mem_dropEmpty {items : List Item} {item : Item} (member : item ∈ dropEmpty items) : item ∈ items :=
  (List.dropWhile_sublist _).subset member

theorem dropEmpty_carries {segments : List (List Byte)} {items : List Item} {a : Nat}
    (carries : Carries segments a items) : Carries segments a (dropEmpty items) := by
  induction items with
  | nil => trivial
  | cons item rest ih =>
    rw [dropEmpty_cons]
    split
    · next none =>
      have later := carries.2
      rw [none] at later
      exact ih later
    · exact carries

theorem At.drop {segments : List (List Byte)} {bytes : List Byte} {a : Nat} (lies : (raw bytes).At segments a)
    (n : Nat) : (raw (bytes.drop n)).At segments (a + n) := by
  constructor
  · have here : (segments.flatten.drop a).take bytes.length = bytes := lies.bytes
    change (segments.flatten.drop (a + n)).take (bytes.drop n).length = bytes.drop n
    rw [List.length_drop, ← List.drop_drop, ← List.drop_take, here]
  · intro single
    cases single

structure Parts (n : Nat) (item : Item) (bytes : List Byte) (left : Item) : Prop where
  length : bytes.length = n
  joined : bytes ++ left.bytes = item.bytes
  formed : item.WellFormed → left.WellFormed
  at_ : ∀ {segments : List (List Byte)} {a : Nat}, item.At segments a → left.At segments (a + n)

theorem cut_spec {n : Nat} {item left : Item} {bytes : List Byte} (taken : item.cut n = some (bytes, left))
    (longer : n < item.bytes.length) : Parts n item bytes left := by
  cases item with
  | raw block =>
    cases taken
    have inside : n < block.length := longer
    refine ⟨by rw [List.length_take]; omega, List.take_append_drop n block, fun formed => ?_, fun lies => lies.drop n⟩
    have whole : block.length < 2 ^ 32 := formed.write
    refine ⟨?_, fun single => by cases single⟩
    change (block.drop n).length < 2 ^ 32
    rw [List.length_drop]
    omega
  | primitive value => cases taken
  | variableUnsigned width number => cases taken
  | blob source => cases taken

theorem takeBytes_spec {items left : List Item} {n : Nat} {bytes : List Byte}
    (taken : takeBytes n items = some (bytes, left)) :
    bytes.length = n ∧ bytes ++ itemBytes left = itemBytes items ∧
      ((∀ item ∈ items, item.WellFormed) → ∀ item ∈ left, item.WellFormed) ∧
      ∀ segments a, Carries segments a items → Carries segments (a + n) left := by
  induction items generalizing n bytes with
  | nil =>
    cases n with
    | zero =>
      cases taken
      exact ⟨rfl, rfl, id, fun _ _ carries => carries⟩
    | succ n => cases taken
  | cons item rest ih =>
    cases n with
    | zero =>
      cases taken
      exact ⟨rfl, rfl, id, fun _ _ carries => carries⟩
    | succ n =>
      rw [takeBytes] at taken
      split at taken
      · next inside =>
        obtain ⟨⟨part, others⟩, took, same⟩ := Option.map_eq_some_iff.1 taken
        obtain ⟨rfl, rfl⟩ := Prod.mk.inj same
        obtain ⟨length, joined, formed, carried⟩ := ih took
        refine ⟨?_, ?_, fun all => formed fun item member => all item (List.mem_cons_of_mem _ member),
          fun segments a carries => ?_⟩
        · rw [List.length_append]
          omega
        · rw [List.append_assoc, joined, itemBytes_cons]
        · have later := carried segments _ carries.2
          rwa [show a + item.bytes.length + (n + 1 - item.bytes.length) = a + (n + 1) by omega] at later
      · next outside =>
        obtain ⟨⟨part, other⟩, cutOff, same⟩ := Option.map_eq_some_iff.1 taken
        obtain ⟨rfl, rfl⟩ := Prod.mk.inj same
        have split := cut_spec cutOff (Nat.lt_of_not_le outside)
        refine ⟨split.length, ?_, fun all later member => ?_, fun segments a carries => ⟨split.at_ carries.1, ?_⟩⟩
        · rw [itemBytes_cons, itemBytes_cons, ← split.joined, List.append_assoc]
        · rcases List.mem_cons.1 member with rfl | inside
          · exact split.formed (all item List.mem_cons_self)
          · exact all later (List.mem_cons_of_mem _ inside)
        · have whole := congrArg List.length split.joined
          rw [List.length_append, split.length] at whole
          rw [Nat.add_assoc, whole]
          exact carries.2

end Item

theorem Carries.bytes {segments : List (List Byte)} {items : List Item} {a : Nat}
    (carries : Carries segments a items) :
    (segments.flatten.drop a).take (itemBytes items).length = itemBytes items := by
  induction items generalizing a with
  | nil => exact List.take_zero
  | cons item rest ih =>
    have later := ih carries.2
    rw [← List.drop_drop] at later
    rw [itemBytes_cons, List.length_append, List.take_add, carries.1.bytes, later]

namespace Before

variable {items : List Item} {s : InputBuffer}

theorem dropEmpty (before : Before items s) : Before (Item.dropEmpty items) s :=
  ⟨before.settled, before.small, fun item member => before.formed item (Item.mem_of_mem_dropEmpty member),
    Item.dropEmpty_carries before.carries, by rw [Item.itemBytes_dropEmpty, before.length]⟩

theorem moved (before : Before items s) {t : InputBuffer} {left : List Item} {n : Nat} (same : s.SameInput t)
    (settled : t.Settled) (moved : t.pos = s.pos + n) (total : n + (itemBytes left).length = (itemBytes items).length)
    (formed : ∀ item ∈ left, item.WellFormed) (carries : Carries s.buffer.segments (s.pos + n) left) :
    Before left t := by
  refine ⟨settled, ?_, formed, ?_, ?_⟩
  · rw [same.buffer]
    exact before.small
  · rwa [same.buffer, moved]
  · rw [moved, same.stop, ← before.length, ← total, Nat.add_assoc]

theorem read (bond : BondCodec) {item : Item} (before : Before (item :: items) s) :
    ∃ t, item.read bond s = .ok item.value t ∧ s.SameInput t ∧ Before items t := by
  have total : item.bytes.length + (itemBytes items).length = (itemBytes (item :: items)).length := by
    rw [itemBytes_cons, List.length_append]
  have length := before.length
  obtain ⟨t, run, same, moved, _, settled⟩ := before.settled.invariant.read_item bond before.small
    (before.formed item List.mem_cons_self) before.carries.1 (by omega)
  exact ⟨t, run, same, before.moved same (settled before.settled) moved total
    (fun other member => before.formed other (List.mem_cons_of_mem _ member)) before.carries.2⟩

theorem first (bond : BondCodec) {β : Type} {fits : Item → Option β} {reply : β} {left : List Item}
    (before : Before items s) (answered : ReadRequest.first fits items = some (reply, left)) :
    ∃ item t, fits item = some reply ∧ item.read bond s = .ok item.value t ∧ s.SameInput t ∧ Before left t := by
  have start := before.dropEmpty
  rw [ReadRequest.first] at answered
  cases items : Item.dropEmpty items with
  | nil =>
    rw [items] at answered
    cases answered
  | cons item rest =>
    rw [items] at answered start
    obtain ⟨value, fitting, same⟩ := Option.map_eq_some_iff.1 answered
    cases same
    obtain ⟨t, run, later⟩ := start.read bond
    exact ⟨item, t, fitting, run, later⟩

theorem remaining (before : Before items s) : s.remaining = itemBytes items := by
  have length := before.length
  have whole := InputBuffer.remaining_take (Nat.le_of_eq length)
  rw [before.carries.bytes] at whole
  have available := before.settled.invariant.remaining_length
  rwa [List.take_of_length_le (by omega)] at whole

theorem skip {middle back : List Item} (before : Before (middle ++ back) s) :
    ∃ t, InputBuffer.skip (itemBytes middle).length s = .ok () t ∧ s.SameInput t ∧ Before back t := by
  have available := congrArg List.length before.remaining
  have total : (itemBytes middle).length + (itemBytes back).length = (itemBytes (middle ++ back)).length := by
    rw [itemBytes_append, List.length_append]
  rcases InputBuffer.readMultiple_spec before.settled.invariant (itemBytes middle).length (fun _ _ => []) with
    ⟨_, parts, t, run, same, moved, _, settled, _⟩ | ⟨short, _⟩
  · exact ⟨t, by rw [InputBuffer.skip_run, run], same, before.moved same (settled before.settled) moved total
      (fun item member => before.formed item (List.mem_append_right _ member)) (Carries.append.1 before.carries).2⟩
  · omega

theorem take {n : Nat} {bytes : List Byte} {left : List Item} (before : Before items s)
    (taken : Item.takeBytes n items = some (bytes, left)) (func : Nat → InputBuffer → List Byte) :
    ∃ parts t, InputBuffer.readMultiple n func s = .ok parts t ∧ s.SameInput t ∧ Before left t ∧
      (func = (fun n s => s.load s.ptr n) → parts = bytes) := by
  obtain ⟨length, joined, formed, carried⟩ := Item.takeBytes_spec taken
  have inv := before.settled.invariant
  have total := congrArg List.length joined
  rw [List.length_append, length] at total
  have available := congrArg List.length before.remaining
  rcases InputBuffer.readMultiple_spec inv n func with ⟨_, parts, t, run, same, moved, _, settled, loaded⟩ | ⟨short, _⟩
  · refine ⟨parts, t, run, same, before.moved same (settled before.settled) moved total (formed before.formed)
      (carried _ _ before.carries), fun copy => ?_⟩
    rw [loaded copy, before.remaining, ← joined, ← length, List.take_left]
  · omega

theorem isEof (before : Before items s) : s.isEof = (itemBytes items).isEmpty := by
  have length := before.length
  rw [Bool.eq_iff_iff, before.settled.isEof_iff, List.isEmpty_iff, ← List.length_eq_zero_iff]
  omega

end Before

theorem InputBuffer.Invariant.settled_of_lt {s : InputBuffer} (inv : s.Invariant) (more : s.pos < s.stop) :
    s.Settled := by
  rcases inv.cursor with atEnd | ⟨o, inside, _, unparked⟩
  · rw [atEnd.pos] at more
    exact absurd more (Nat.lt_irrefl _)
  · refine ⟨inv.bounded, Or.inr ⟨o, inside, ?_⟩⟩
    rcases unparked with earlier | last
    · exact earlier
    · have boundary := inv.bounded.start_add_blobLength s.blob
      have position := inside.pos
      rw [if_pos last] at boundary
      omega

theorem Before.range {middle back : List Item} {s t : InputBuffer} (before : Before (middle ++ back) s)
    (later : Before back t) (same : s.SameInput t) (whole : s.stop = s.buffer.bytes.length)
    (some_ : itemBytes middle ≠ []) :
    Before middle (InputBuffer.createInputBuffer s (InputBuffer.getBufferRange s t)) := by
  have inv := before.settled.invariant
  have extent := before.length
  have rest := later.length
  rw [itemBytes_append, List.length_append] at extent
  rw [same.stop] at rest
  have positive := List.length_pos_of_ne_nil some_
  have advances : s.Advances t := ⟨same, by omega, later.settled.invariant, fun _ => later.settled⟩
  have formed := InputBuffer.getBufferRange_wellFormed inv advances
  obtain ⟨next, buffer, start, stop⟩ := InputBuffer.ofRange_spec
    (show (InputBuffer.getBufferRange s t).buffer.Valid from inv.bounded.valid) formed
  obtain ⟨startPos, stopPos⟩ := InputBuffer.getBufferRange_positions advances
  rw [inv.encoded_whole whole] at startPos
  rw [later.settled.invariant.encoded_whole (by rw [same.stop, whole, same.buffer])] at stopPos
  rw [startPos] at start
  rw [stopPos] at stop
  change Before middle (InputBuffer.ofRange (InputBuffer.getBufferRange s t))
  refine ⟨next.settled_of_lt (by omega), ?_, fun item member => before.formed item (List.mem_append_left _ member),
    ?_, by omega⟩
  · rw [buffer]
    exact before.small
  · rw [buffer, start]
    exact (Carries.append.1 before.carries).1

/-- Where a request fits the items before the cursor, the buffer gives the same answer. -/
theorem ReadRequest.read_answers (bond : BondCodec) (request : ReadRequest) (items : List Item) (s : InputBuffer)
    (reply : request.Answer) (left : List Item) (before : Before items s)
    (answered : request.answer items = some (reply, left)) :
    ∃ t, request.read bond s = .ok reply t ∧ s.SameInput t ∧ Before left t := by
  cases request with
  | primitive size =>
    obtain ⟨item, t, fits, run, same, later⟩ := before.first bond answered
    cases item with
    | primitive value =>
      obtain ⟨extent, result⟩ := Option.ite_none_right_eq_some.1 fits
      cases result
      obtain ⟨bytes, u, delivered, result⟩ := bind_ok.1 run
      cases result
      exact ⟨t, extent ▸ delivered, same, later⟩
    | variableUnsigned width number => cases fits
    | raw bytes => cases fits
    | blob source => cases fits
  | variableUnsigned width =>
    obtain ⟨item, t, fits, run, same, later⟩ := before.first bond answered
    cases item with
    | variableUnsigned own number =>
      obtain ⟨extent, result⟩ := Option.ite_none_right_eq_some.1 fits
      cases result
      obtain ⟨value, u, delivered, result⟩ := bind_ok.1 run
      cases result
      exact ⟨t, extent ▸ delivered, same, later⟩
    | primitive value => cases fits
    | raw bytes => cases fits
    | blob source => cases fits
  | raw size =>
    obtain ⟨parts, t, run, same, later, copied⟩ := before.take answered fun n s => s.load s.ptr n
    exact ⟨t, copied rfl ▸ run, same, later⟩
  | blob size =>
    obtain ⟨item, t, fits, run, same, later⟩ := before.first bond answered
    cases item with
    | blob source =>
      obtain ⟨extent, result⟩ := Option.ite_none_right_eq_some.1 fits
      cases result
      obtain ⟨blob, u, delivered, result⟩ := bind_ok.1 run
      injection result with value last
      cases last
      refine ⟨t, ?_, same, later⟩
      rw [ReadRequest.read, ← extent, run_bind_of_ok delivered]
      exact congrArg (fun bytes => EStateM.Result.ok bytes t) (Value.bytes.inj value)
    | primitive value => cases fits
    | variableUnsigned width number => cases fits
    | raw bytes => cases fits
  | skip size =>
    obtain ⟨⟨bytes, rest⟩, taken, result⟩ := Option.map_eq_some_iff.1 answered
    cases result
    obtain ⟨parts, t, run, same, later, _⟩ := before.take taken fun _ _ => []
    exact ⟨t, by rw [ReadRequest.read, InputBuffer.skip_run, run], same, later⟩
  | isEof =>
    cases answered
    refine ⟨s, ?_, .refl s, before⟩
    rw [ReadRequest.read, run_bind_of_ok (run_get s), before.isEof]
    rfl

/-- So it does over a whole program. -/
theorem ReaderProgram.read_answers {α : Type} (bond : BondCodec) (program : ReaderProgram α) {items left : List Item}
    {s : InputBuffer} {value : α} (before : Before items s)
    (meaning : program.run ReadRequest.answer items = some (value, left)) :
    ∃ t, program.run (ReadRequest.read bond) s = .ok value t ∧ s.SameInput t ∧ Before left t := by
  refine program.run_simulates (fun items t => s.SameInput t ∧ Before items t) ?_ ⟨.refl s, before⟩ meaning
  intro request items t reply left start answered
  obtain ⟨u, run, same, later⟩ := request.read_answers bond items t reply left start.2 answered
  exact ⟨u, run, start.1.trans same, later⟩

theorem ReaderProgram.reads {α : Type} (bond : BondCodec) (program : ReaderProgram α) {items left : List Item}
    {s : InputBuffer} {value : α} (before : Before items s)
    (meaning : program.run ReadRequest.answer items = some (value, left)) :
    ∃ t, program.run (ReadRequest.read bond) s = .ok value t ∧ t.remaining = itemBytes left ∧
      (t.isEof = true ↔ itemBytes left = []) := by
  obtain ⟨t, reads, _, later⟩ := program.read_answers bond before meaning
  refine ⟨t, reads, later.remaining, ?_⟩
  rw [later.isEof, List.isEmpty_iff]

theorem Before.ofBuffer {buffer : ConstBuffer} {items : List Item} (valid : buffer.Valid)
    (small : ∀ blob ∈ buffer.blobs, blob.size < 2 ^ 32) (formed : ∀ item ∈ items, item.WellFormed)
    (bytes : buffer.bytes = itemBytes items) (carries : Carries buffer.segments 0 items) :
    Before items (InputBuffer.ofBuffer buffer) ∧
      (InputBuffer.ofBuffer buffer).stop = (InputBuffer.ofBuffer buffer).buffer.bytes.length := by
  obtain ⟨settled, same, start, stop⟩ := InputBuffer.ofBuffer_spec valid
  refine ⟨⟨settled, by rwa [same], formed, by rwa [same, start], ?_⟩, by rw [stop, same]⟩
  rw [start, stop, bytes, Nat.zero_add]

theorem Script.before {pool : BufferPool} {bond : BondCodec} {minBlobSize : Nat} {script : Script}
    {finish : OutputBuffer.Finish} (formed : ∀ item ∈ script.items, item.WellFormed) {buffer : ConstBuffer}
    {t : OutputBuffer}
    (written : OutputBuffer.produce pool bond script.ops finish (OutputBuffer.members minBlobSize) = .ok buffer t)
    (small : ∀ blob ∈ buffer.blobs, blob.size < 2 ^ 32) :
    Before script.items (InputBuffer.ofBuffer buffer) ∧
      (InputBuffer.ofBuffer buffer).stop = (InputBuffer.ofBuffer buffer).buffer.bytes.length := by
  obtain ⟨valid, bytes, carries⟩ := Script.produced (fun item member => (formed item member).write) written
  exact Before.ofBuffer valid small formed bytes carries

def counted : ReaderProgram (List Byte × Bool) :=
  .ask (.raw 1) fun count => .ask (.raw (count.headD 0).toNat) fun bytes => .ask .isEof fun atEnd => .done (bytes, atEnd)

end IpcBond
