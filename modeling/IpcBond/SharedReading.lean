import IpcBond.AdaptiveReader
import IpcBond.SharedContents

/-! A client reads a finished buffer while the other parties go on. Each of its reads goes to the memory as it stands
then; together they come to what was written to the output. -/

namespace IpcBond.Pool
open Library.Segments Library.StateExcept Library.Machine Library.Interaction OutputBuffer

def Part.now (heap : Heap) (part : Part) : ConstBlob :=
  ⟨some ⟨part.item.data, (heap.blobAt part.item.data).elements⟩, part.beginAt, part.endAt⟩

def Heap.constBuffer (heap : Heap) (d : Nat) : ConstBuffer :=
  ⟨some ((heap.bufferAt d).map fun part => (part.map (Part.now heap)).getD ConstBlob.null)⟩

theorem State.constBuffer_eq {s : State} (faithful : Faithful s.books) (d : Nat) :
    s.heap.constBuffer d = ⟨some ((s.heap.bufferAt d).map view)⟩ := by
  refine congrArg (fun blobs => ConstBuffer.mk (some blobs)) (List.map_congr_left fun part stored => ?_)
  cases part with
  | none => rfl
  | some part =>
    have same := faithful part (mem_ledger_of_bufferAt stored (by simp [partRefs]))
    change part.now s.heap = part.view
    rw [Part.now, ← show part.elements = (s.heap.blobAt part.item.data).elements from same, Part.view]

/-- A client that reads by a program of its own through an `InputBuffer`. -/
structure Session (α : Type) where
  system : System
  cursor : InputBuffer
  program : ReaderProgram α

inductive Turn (memory : SharedMemory) where
  | other (action : Action memory)
  | read

namespace Session

variable {α : Type}

def opened (system : System) (item : Item) (program : ReaderProgram α) : Session α :=
  ⟨system, InputBuffer.ofBuffer (system.pool.heap.constBuffer item.data), program⟩

def result (session : Session α) : Option α :=
  match session.program with
  | .done value => some value
  | .ask _ _ => none

def read (bond : BondCodec) (slot : Nat) (session : Session α) : Option (Session α) :=
  match session.program, session.system.pool.handleAt slot with
  | .ask request next, some (.constBuffer (some item)) =>
    let buffer := session.system.pool.heap.constBuffer item.data
    match request.read bond { session.cursor with buffer := buffer } with
    | .ok reply cursor => some ⟨session.system, cursor, next reply⟩
    | .error _ _ => none
  | _, _ => none

def step {memory : SharedMemory} (bond : BondCodec) (slot : Nat) (session : Session α) :
    Turn memory → Option (Session α)
  | .other action => (session.system.step bond action).map fun system => { session with system := system }
  | .read => session.read bond slot

def Keeps (slot : Nat) (item : Item) (session : Session α) : Prop :=
  session.system.pool.handleAt slot = some (.constBuffer (some item))

theorem Keeps.shown {slot : Nat} {item : Item} {session : Session α} (keeps : session.Keeps slot item) :
    session.system.pool.Shown item.data := ⟨slot, item, keeps, rfl⟩

/-- What the client has still to read means the same over the items as over the memory. -/
structure Tracks (memory : SharedMemory) (value : α) (left : List IpcBond.Item) (d : Nat) (blobs : List ConstBlob)
    (session : Session α) : Prop where
  sound : session.system.Sound memory
  finished : session.system.Finished d blobs
  buffer : session.cursor.buffer = ⟨some blobs⟩
  meaning : ∃ items, session.program.run ReadRequest.answer items = some (value, left) ∧ Before items session.cursor

variable {memory : SharedMemory} {bond : BondCodec} {value : α} {left : List IpcBond.Item} {slot : Nat} {item : Item}
  {blobs : List ConstBlob} {session later : Session α}

theorem Tracks.shown (tracks : session.Tracks memory value left item.data blobs) :
    { session.cursor with buffer := session.system.pool.heap.constBuffer item.data } = session.cursor := by
  rw [State.constBuffer_eq tracks.sound.faithful, tracks.finished.parts, ← tracks.buffer]

/-- The next read gives what the items say. -/
theorem Tracks.read (tracks : session.Tracks memory value left item.data blobs) (keeps : session.Keeps slot item)
    {request : ReadRequest} {next : request.Answer → ReaderProgram α} (asks : session.program = .ask request next) :
    ∃ later, session.read bond slot = some later ∧ later.Tracks memory value left item.data blobs := by
  obtain ⟨items, meaning, before⟩ := tracks.meaning
  rw [asks] at meaning
  obtain ⟨reply, rest, answered, remains⟩ := Program.run_ask_some meaning
  obtain ⟨cursor, run, same, ahead⟩ := request.read_answers bond items session.cursor reply rest before answered
  refine ⟨⟨session.system, cursor, next reply⟩, ?_,
    tracks.sound, tracks.finished, same.buffer.trans tracks.buffer, rest, remains, ahead⟩
  unfold Session.read
  rw [asks, show session.system.pool.handleAt slot = some (.constBuffer (some item)) from keeps]
  simp only [tracks.shown, run]

theorem Tracks.progress (tracks : session.Tracks memory value left item.data blobs) (keeps : session.Keeps slot item)
    (pending : session.result = none) : (session.read bond slot).isSome := by
  cases asks : session.program with
  | done final =>
    rw [Session.result, asks] at pending
    cases pending
  | ask request next =>
    obtain ⟨later, stepped, _⟩ := tracks.read keeps asks
    rw [stepped]
    rfl

theorem Tracks.ends {d : Nat} (tracks : session.Tracks memory value left d blobs) {result : α}
    (done : session.result = some result) : result = value ∧ session.cursor.remaining = itemBytes left ∧
      (session.cursor.isEof = true ↔ itemBytes left = []) := by
  obtain ⟨items, meaning, before⟩ := tracks.meaning
  cases final : session.program with
  | ask request next =>
    rw [Session.result, final] at done
    cases done
  | done last =>
    rw [Session.result, final] at done
    rw [final] at meaning
    cases done
    cases meaning
    refine ⟨rfl, before.remaining, ?_⟩
    rw [before.isEof, List.isEmpty_iff]

theorem Tracks.step (tracks : session.Tracks memory value left item.data blobs) (keeps : session.Keeps slot item)
    (keeps' : later.Keeps slot item) {turn : Turn memory} (run : session.step bond slot turn = some later) :
    later.Tracks memory value left item.data blobs := by
  cases turn with
  | other action =>
    obtain ⟨system, stepped, same⟩ := Option.map_eq_some_iff.1 run
    cases same
    have before := System.mem_ledger_of_shown keeps.shown
    have after := System.mem_ledger_of_shown keeps'.shown
    exact ⟨tracks.sound.step stepped, tracks.finished.step tracks.sound before after stepped, tracks.buffer,
      tracks.meaning⟩
  | read =>
    change session.read bond slot = some later at run
    cases asks : session.program with
    | done result =>
      unfold Session.read at run
      rw [asks] at run
      cases run
    | ask request next =>
      obtain ⟨other, stepped, still⟩ := tracks.read keeps asks
      cases stepped.symm.trans run
      exact still

theorem Tracks.run (tracks : session.Tracks memory value left item.data blobs)
    (run : Run (fun now (turn : Turn memory) => now.step bond slot turn) (· = session)
      (fun now _ => now.Keeps slot item) later)
    (kept : later.Keeps slot item) : later.Tracks memory value left item.data blobs := by
  induction run with
  | initial same => exact same ▸ tracks
  | step _ keeps taken ih => exact (ih keeps).step keeps kept taken

section Replaced
open IpcBond.Pool.System

def turns : List (Turn everywhere) :=
  .other (.destroyOutput 0) :: [1, 1, 1, 2, 2, 2].map (fun thread => .other (.client (.runThread thread))) ++
    [.other (.make (answers 0 3) 2 0), .read, .other (.act 1 0), .other (.act 1 0), .read]

def pair : ReaderProgram (List Byte × Bool) :=
  .ask (.primitive 2) fun bytes => .ask .isEof fun atEnd => .done (bytes, atEnd)

def keeping (session : Session (List Byte × Bool)) (_ : Turn everywhere) : Bool :=
  session.system.pool.handleAt 3 = some (.constBuffer (some ⟨0, 0⟩))

def replaced (s : System) : Option (Session (List Byte × Bool)) :=
  turns.foldlM (guarded (Session.step sevenBitCodec 3) keeping) (opened s ⟨0, 0⟩ pair)

end Replaced

end Session

end IpcBond.Pool
