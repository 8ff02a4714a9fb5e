import IpcBond.Refusals

/-! Chains of casts between `ConstBlob` and `bond::blob` with sub-ranges taken on either side. The
offsets add up, whichever base each of them is relative to. -/

namespace IpcBond
open Library.StateExcept

inductive View where
  | const (blob : ConstBlob)
  | bond (blob : BondBlob)
  deriving DecidableEq, Repr

inductive CastStep where
  | toBond
  | range (offset length : Nat)
  | toConst
  | getRange (offset count : Nat)
  deriving DecidableEq, Repr

namespace View

def size : View → Nat
  | const blob => blob.size
  | bond blob => blob.size

def bytes : View → List Byte
  | const blob => blob.bytes
  | bond blob => blob.bytes

def keeper : View → Option ConstBlob
  | const blob => some blob
  | bond blob => blob.holder

def address : View → Ptr
  | const blob => blob.data
  | bond blob => blob.content

def step : View → CastStep → Option (Except Error View)
  | const blob, .toBond => some (.ok (bond (.ofConstBlob blob)))
  | bond blob, .range offset length =>
    if offset + length ≤ blob.size then some (.ok (bond (blob.assign offset length))) else none
  | bond blob, .toConst => some (blob.toConstBlob.map const)
  | const blob, .getRange offset count =>
    if offset + count ≤ blob.size then some ((blob.getRange offset count).map const) else none
  | _, _ => none

end View

namespace CastStep

def offset : CastStep → Nat
  | range offset _ => offset
  | getRange offset _ => offset
  | _ => 0

def length (n : Nat) : CastStep → Nat
  | range _ length => length
  | getRange _ count => count
  | _ => n

end CastStep

def View.run (view : View) : List CastStep → Option (Except Error View)
  | [] => some (.ok view)
  | step :: rest =>
    match view.step step with
    | some (.ok next) => next.run rest
    | other => other

/-- The view designates the bytes of `origin` from `offset` on, in the same `Data`. -/
structure View.Designates (view : View) (origin : ConstBlob) (offset : Nat) : Prop where
  fits : offset + view.size ≤ origin.size
  bytes : view.bytes = (origin.bytes.drop offset).take view.size
  address : view.size ≠ 0 → view.address = origin.data.add offset
  keeper : ∃ blob, view.keeper = some blob ∧ blob.item = origin.item

structure ConstBlob.PartOf (blob origin : ConstBlob) (offset : Nat) : Prop where
  valid : blob.Valid
  item : blob.item = origin.item
  begin_ : blob.beginAt = origin.beginAt + offset
  fits : offset + blob.size ≤ origin.size

namespace ConstBlob.PartOf

variable {blob origin : ConstBlob} {offset : Nat} (part : blob.PartOf origin offset)
include part

theorem memory_eq : blob.memory = origin.memory := by rw [memory, memory, part.item]

theorem bytes_eq : blob.bytes = (origin.bytes.drop offset).take blob.size := by
  have fits := part.fits
  rw [ConstBlob.bytes, ConstBlob.bytes, part.memory_eq, part.begin_, List.drop_take, List.drop_drop, List.take_take,
    Nat.min_eq_left (by omega)]

theorem data_eq (nonempty : blob.size ≠ 0) : blob.data = origin.data.add offset := by
  have fits := part.fits
  rw [ConstBlob.data_of_nonempty nonempty, ConstBlob.data_of_nonempty (by omega : origin.size ≠ 0), part.item,
    part.begin_]
  rfl

theorem getRange (first count : Nat) (inside : first + count ≤ blob.size) :
    ∃ range, blob.getRange first count = .ok range ∧ range.PartOf origin (offset + first) ∧ range.size = count := by
  have fits := part.fits
  have size := part.valid.sub_size inside
  refine ⟨_, part.valid.getRange_eq inside, ⟨part.valid.sub_valid inside, part.item, ?_, ?_⟩, size⟩
  · rw [part.begin_, Nat.add_assoc]
  · rw [size]
    omega

end ConstBlob.PartOf

def View.PartOf (view : View) (origin : ConstBlob) (offset : Nat) : Prop :=
  match view with
  | .const blob => blob.PartOf origin offset
  | .bond source => ∃ blob base inner, source.holder = some blob ∧ blob.PartOf origin base ∧
      source.memory = blob.memory ∧ source.content = blob.data.add inner ∧ inner + source.size ≤ blob.size ∧
      offset = base + inner

namespace View.PartOf

variable {view : View} {origin : ConstBlob} {offset : Nat}

theorem designates (part : view.PartOf origin offset) : view.Designates origin offset := by
  cases view with
  | const blob => exact ⟨part.fits, part.bytes_eq, part.data_eq, blob, rfl, part.item⟩
  | bond source =>
    obtain ⟨blob, base, inner, holder, held, memory, content, inside, rfl⟩ := part
    have fits := held.fits
    refine ⟨?_, ?_, fun nonempty => ?_, blob, holder, held.item⟩
    · simp only [View.size]
      omega
    · simp only [View.bytes, View.size]
      rw [BondBlob.bytes_of_held memory content inside, held.bytes_eq, List.drop_take, List.drop_drop, List.take_take,
        Nat.min_eq_left (by omega)]
    · simp only [View.size] at nonempty
      rw [View.address, content, held.data_eq (by omega), Ptr.add_add]

theorem toConstBlob {source : BondBlob} (part : (View.bond source).PartOf origin offset) :
    ∃ back, source.toConstBlob = .ok back ∧ back.PartOf origin offset ∧ back.size = source.size := by
  obtain ⟨blob, base, inner, holder, held, memory, content, inside, rfl⟩ := part
  have distance : sizeT (source.content.sub blob.data) = inner := by
    have limit := held.valid.size_lt
    rw [content, Ptr.sub, Ptr.add_offset]
    unfold sizeT
    omega
  obtain ⟨back, cast, part, size⟩ := held.getRange inner source.size inside
  refine ⟨back, ?_, part, size⟩
  simp only [BondBlob.toConstBlob, holder, distance]
  exact cast

theorem step (part : view.PartOf origin offset) (small : origin.size < 2 ^ 32) {step : CastStep}
    {result : Except Error View} (taken : view.step step = some result) :
    ∃ next, result = .ok next ∧ next.PartOf origin (offset + step.offset) ∧ next.size = step.length view.size := by
  cases view with
  | const blob =>
    cases step with
    | toBond =>
      cases taken
      have fits := ConstBlob.PartOf.fits part
      have size : (BondBlob.ofConstBlob blob).size = blob.size := Nat.mod_eq_of_lt (by omega)
      refine ⟨_, rfl, ⟨blob, offset, 0, rfl, part, rfl, rfl, ?_, rfl⟩, size⟩
      rw [size, Nat.zero_add]
    | getRange first count =>
      simp only [View.step] at taken
      split at taken
      · next inside =>
        obtain ⟨range, run, part', size⟩ := ConstBlob.PartOf.getRange part first count inside
        cases taken
        exact ⟨.const range, by rw [run]; rfl, part', size⟩
      · cases taken
    | range first length => cases taken
    | toConst => cases taken
  | bond source =>
    cases step with
    | range first length =>
      simp only [View.step] at taken
      split at taken
      · next inside =>
        cases taken
        obtain ⟨blob, base, inner, holder, held, memory, content, within, rfl⟩ := part
        refine ⟨_, rfl, ⟨blob, base, inner + first, holder, held, memory, ?_, ?_, ?_⟩, rfl⟩
        · simp only [BondBlob.assign, content, Ptr.add_add]
        · simp only [BondBlob.assign]
          omega
        · simp only [CastStep.offset, Nat.add_assoc]
      · cases taken
    | toConst =>
      cases taken
      obtain ⟨back, cast, part', size⟩ := part.toConstBlob
      exact ⟨.const back, by rw [cast]; rfl, part', size⟩
    | toBond => cases taken
    | getRange first count => cases taken

/-- A chain of steps does not throw, and its offsets add up. -/
theorem run (part : view.PartOf origin offset) (small : origin.size < 2 ^ 32) {steps : List CastStep}
    {result : Except Error View} (taken : view.run steps = some result) :
    ∃ last, result = .ok last ∧ last.PartOf origin (offset + (steps.map CastStep.offset).sum) ∧
      last.size = steps.foldl CastStep.length view.size := by
  induction steps generalizing view offset with
  | nil =>
    cases taken
    exact ⟨view, rfl, part, rfl⟩
  | cons first rest ih =>
    rw [View.run] at taken
    cases stepped : view.step first with
    | none =>
      rw [stepped] at taken
      cases taken
    | some outcome =>
      obtain ⟨next, rfl, part', size⟩ := part.step small stepped
      rw [stepped] at taken
      obtain ⟨last, same, lastPart, lastSize⟩ := ih part' taken
      refine ⟨last, same, ?_, ?_⟩
      · rwa [List.map_cons, List.sum_cons, ← Nat.add_assoc]
      · rw [lastSize, size, List.foldl_cons]

end View.PartOf

namespace OutputBuffer

variable {pool : BufferPool} {s : OutputBuffer}

/-- `element` refers to the `Data` of `origin`, with the address and the length of the `bond::blob`. -/
structure SharedAs (origin : ConstBlob) (b : BondBlob) (element : ConstBlob) : Prop where
  item : element.item = origin.item
  data : element.data = b.content
  size : element.size = b.size

/-- The call flushes and adds the one element that `spec` describes, or the pool refuses one of its requests. -/
def AddsElement (pool : BufferPool) (call : Writer Unit) (spec : ConstBlob → Prop) (s : OutputBuffer) : Prop :=
  (∃ u t element, flush pool s = .ok () u ∧ u.pending = [] ∧ u.contents = s.contents ∧ call s = .ok () t ∧
    t.buffer = u.buffer ++ [element] ∧ t.pending = [] ∧ spec element) ∨
  ∃ allocation ∈ [Allocation.pushMerged, .takeBlob, .sizeBlob, .pushShared], ∃ t,
    call s = .error (.badAlloc allocation) t ∧ Refused pool 0 s allocation t

/-- The call adds bytes to the pending ones, or the pool refuses the current blob the memory for them. -/
def AddsBytes (pool : BufferPool) (call : Writer Unit) (bytes : List Byte) (s : OutputBuffer) : Prop :=
  (∃ t, call s = .ok () t ∧ t.buffer = s.buffer ∧ t.pending = s.pending ++ bytes) ∨
  ∃ t, call s = .error (.badAlloc .growBlob) t ∧ Refused pool bytes.length s .growBlob t

theorem Ready.pushShared_adds (ready : s.Ready pool.memory) (blob : ConstBlob) :
    AddsElement pool (do flush pool; pushBack pool .pushShared blob) (· = blob) s := by
  have granted := ready.pushShared_granted 0 blob
  cases wrote : (do flush pool; pushBack pool .pushShared blob : Writer Unit) s with
  | error e t =>
    rw [wrote] at granted
    obtain ⟨allocation, member, rfl, refused⟩ := granted
    exact Or.inr ⟨allocation, member, t, wrote, refused⟩
  | ok _ t =>
    obtain ⟨_, u, run, pushed⟩ := bind_ok.1 wrote
    obtain ⟨outcome, fresh⟩ := ready.flush_outcome
    rw [run] at outcome
    have start := fresh u run
    have flushed : u.contents = s.contents := by
      have same := outcome.segments.1
      rw [List.append_nil] at same
      exact same
    rw [pushBack_run] at pushed
    split at pushed
    · cases pushed
      exact Or.inl ⟨u, _, blob, run, pending_at_start start, flushed, wrote, rfl, pending_at_start start, rfl⟩
    · cases pushed

theorem Ready.writeBytes_adds (ready : s.Ready pool.memory) {bytes : List Byte} (small : bytes.length < 2 ^ 32) :
    AddsBytes pool (writeBytes pool bytes) bytes s := by
  rcases ready.writeBytes_run small with ⟨t, _, buffer, pending, run⟩ | run
  · exact Or.inl ⟨t, run, buffer, pending⟩
  · have granted := ready.writeBytes_granted small
    rw [run] at granted
    obtain ⟨allocation, member, _, refused⟩ := granted
    rw [List.mem_singleton.1 member] at refused
    exact Or.inr ⟨_, run, refused⟩

theorem Ready.writeBlob_adds (ready : s.Ready pool.memory) {b : BondBlob} {origin : ConstBlob} {offset : Nat}
    (part : (View.bond b).PartOf origin offset) (nonempty : b.size ≠ 0)
    (contained : pool.memory.contains b.content = true) :
    AddsElement pool (writeBlob pool b) (SharedAs origin b) s := by
  obtain ⟨back, cast, backPart, size⟩ := part.toConstBlob
  have some : back.size ≠ 0 := by rwa [size]
  have data : back.data = b.content := (backPart.data_eq some).trans (part.designates.address nonempty).symm
  have run : writeBlob pool b = (do flush pool; pushBack pool .pushShared back) := by
    rw [writeBlob, cast]
    exact if_pos ⟨backPart.valid.item_isSome some, by rwa [data]⟩
  rw [run]
  rcases ready.pushShared_adds back with ⟨u, t, element, flushed, start, same, wrote, buffer, empty, rfl⟩ | refused
  · exact Or.inl ⟨u, t, element, flushed, start, same, wrote, buffer, empty, ⟨backPart.item, data, size⟩⟩
  · exact Or.inr refused

theorem Ready.writeBlob_private (ready : s.Ready pool.memory) {b : BondBlob} (valid : b.Valid)
    (notCast : b.holder = none) : AddsBytes pool (writeBlob pool b) b.bytes s := by
  have small : b.bytes.length < 2 ^ 32 := by
    rw [valid.bytes_length]
    exact valid.small
  have run : writeBlob pool b = writeBytes pool b.bytes := by
    have whole : b.bytes.take (b.bytes.length % 2 ^ 32) = b.bytes := by rw [Nat.mod_eq_of_lt small, List.take_length]
    rw [writeBlob, BondBlob.toConstBlob_private notCast]
    change writeShared pool ConstBlob.null b.bytes = _
    rw [writeShared, if_neg fun both => Bool.false_ne_true both.1, whole]
  rw [run]
  exact ready.writeBytes_adds small

end OutputBuffer

open OutputBuffer

/-- Casting to a `bond::blob` and back is exact: a chain of steps never throws, and what it ends in is the part
of `origin` at the sum of the offsets taken. Where this is written, it is shared; and only what comes from
`BlobCast` is. The writes throw only where the pool refuses a request. -/
theorem cast_chain {origin : ConstBlob} (valid : origin.Valid) (small : origin.size < 2 ^ 32) :
    (∀ steps result, (View.const origin).run steps = some result →
      ∃ last, result = .ok last ∧ last.Designates origin (steps.map CastStep.offset).sum ∧
        last.size = steps.foldl CastStep.length origin.size ∧
        ∀ b, last = .bond b → b.size ≠ 0 → ∀ pool s, Reached pool s → pool.memory.contains b.content = true →
          AddsElement pool (writeBlob pool b) (SharedAs origin b) s) ∧
    ∀ b : BondBlob, b.Valid → b.holder = none → b.toConstBlob = .ok ConstBlob.null ∧
      ∀ pool s, Reached pool s → AddsBytes pool (writeBlob pool b) b.bytes s := by
  have whole : (View.const origin).PartOf origin 0 := ⟨valid, rfl, rfl, Nat.le_of_eq (Nat.zero_add _)⟩
  refine ⟨fun steps result taken => ?_, fun b formed notCast => ?_⟩
  · obtain ⟨last, same, part, size⟩ := whole.run small taken
    rw [Nat.zero_add] at part
    refine ⟨last, same, part.designates, size, ?_⟩
    rintro b rfl nonempty pool s reached contained
    exact reached.ready.writeBlob_adds part nonempty contained
  · exact ⟨BondBlob.toConstBlob_private notCast, fun pool s reached =>
      reached.ready.writeBlob_private formed notCast⟩

/-- Three casts with a part taken after each of them, down to the last byte and to nothing. The last byte is written, and
so is a `bond::blob` of private memory. -/
theorem cast_chain_tail :
    let origin : ConstBlob := ⟨some ⟨100, [9, 1, 2, 3, 4, 5]⟩, 1, 6⟩
    let steps : List CastStep := [.toBond, .range 1 4, .toConst, .getRange 2 2, .toBond, .range 1 1]
    let last : BondBlob := ⟨some ⟨some ⟨100, [9, 1, 2, 3, 4, 5]⟩, 4, 6⟩, [9, 1, 2, 3, 4, 5], ⟨some 100, 5⟩, 1⟩
    let pool := simplePool 4 1
    let s := finalState (setUp pool sevenBitCodec [.value [7]] (members 2))
    (View.const origin).run steps = some (.ok (.bond last)) ∧ last.bytes = [5] ∧
      (View.bond last).Designates origin 4 ∧
      (∃ empty, (View.const origin).run (steps ++ [.range 1 0, .toConst]) = some (.ok empty) ∧
        empty.Designates origin 5 ∧ empty.size = 0) ∧
      (∃ u t element, flush pool s = .ok () u ∧ u.contents = [7] ∧ writeBlob pool last s = .ok () t ∧
        t.buffer = u.buffer ++ [element] ∧ SharedAs origin last element) ∧
      ∃ t, writeBlob pool (.ofBytes [1, 2]) s = .ok () t ∧ t.pending = [7, 1, 2] := by
  intro origin steps last pool s
  obtain ⟨chain, copied⟩ := cast_chain (by decide : origin.Valid) (by decide)
  have reached : Reached pool s := ⟨sevenBitCodec, 2, [.value [7]], by simp [WriteOp.WellFormed], rfl⟩
  have run : (View.const origin).run steps = some (.ok (.bond last)) := by decide
  obtain ⟨_, same, designates, _, written⟩ := chain steps _ run
  cases same
  have offset : (steps.map CastStep.offset).sum = 4 := by decide
  rw [offset] at designates
  let beyond : List CastStep := steps ++ [.range 1 0, .toConst]
  obtain ⟨outcome, run'⟩ : ∃ outcome, (View.const origin).run beyond = some outcome :=
    Option.isSome_iff_exists.1 (by decide)
  obtain ⟨empty, rfl, designates', size, _⟩ := chain beyond outcome run'
  have offset' : (beyond.map CastStep.offset).sum = 5 := by decide
  have length : beyond.foldl CastStep.length origin.size = 0 := by decide
  rw [offset'] at designates'
  rw [length] at size
  refine ⟨run, by decide, designates, ⟨empty, run', designates', size⟩, ?_, ?_⟩
  · rcases written last rfl (by decide) pool s reached (by decide) with
      ⟨u, t, element, flushed, _, contents, wrote, buffer, _, shared⟩ | ⟨allocation, _, t, failed, _⟩
    · exact ⟨u, t, element, flushed, contents, wrote, buffer, shared⟩
    · cases failed
  · obtain ⟨_, written'⟩ := copied (.ofBytes [1, 2]) (BondBlob.ofBytes_valid (by decide)) rfl
    rcases written' pool s reached with ⟨t, wrote, _, pending⟩ | ⟨t, failed, _⟩
    · exact ⟨t, wrote, pending⟩
    · cases failed

end IpcBond
