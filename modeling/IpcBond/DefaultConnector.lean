import IpcBond.Library.Machine
import IpcBond.Library.Once

/-! The connectors that a `Transport` makes for itself. `ConnectClient` and `ConnectServer` take a connector; without
one they share a default connector of their side, which the first of them makes under a `std::once_flag` and which all
of them then read outside it. Any number of threads call the two. -/

namespace IpcBond.DefaultConnector
open Library Library.Machine

abbrev Connector := Nat

inductive Side where
  | client
  | server
  deriving DecidableEq, Repr

/-- A call: the argument `connector`, null where there is none, and where that is null the number under which the call
comes to the flag of its side. -/
structure Call where
  side : Side
  connector : Option Connector
  party : Nat
  deriving DecidableEq, Repr

structure Transport where
  client : Once.State Connector
  server : Once.State Connector
  calls : List Call
  deriving DecidableEq, Repr

inductive Action where
  | call (side : Side) (connector : Option Connector)
  | advance (call : Nat) (made : Option Connector)
  deriving DecidableEq, Repr

def Action.advances (i : Nat) : Action → Bool
  | call _ _ => false
  | advance j _ => j = i

namespace Transport

variable (t : Transport)

def initial : Transport := ⟨.initial, .initial, []⟩

def once : Side → Once.State Connector
  | .client => t.client
  | .server => t.server

def setOnce (side : Side) (state : Once.State Connector) : Transport :=
  match side with
  | .client => { t with client := state }
  | .server => { t with server := state }

def step : Action → Option Transport
  | .call side connector =>
    let entered := { t with calls := t.calls ++ [⟨side, connector, (t.once side).parties.length⟩] }
    match connector with
    | some _ => some entered
    | none => ((t.once side).step .join).map (entered.setOnce side)
  | .advance i made =>
    match t.calls[i]? with
    | some ⟨side, none, party⟩ => ((t.once side).step (.advance party made)).map (t.setOnce side)
    | _ => none

def phase (call : Call) : Option (Once.Phase Connector) := (t.once call.side).parties[call.party]?

/-- The connector that `IPC::Bond::ConnectClient` or `ConnectServer` is then called with, which may be null; none while
the call has not come there. -/
def passes (call : Call) : Option (Option Connector) :=
  match call.connector, t.phase call with
  | some given, _ => some (some given)
  | none, some (.read slot) => some slot
  | none, _ => none

def finished (call : Call) : Bool :=
  match call.connector with
  | some _ => true
  | none => (t.phase call).any Once.Phase.finished

def connectors (side : Side) : List Connector := (t.once side).history

def left (i : Nat) : Nat :=
  match t.calls[i]? with
  | some ⟨side, none, party⟩ => (t.once side).left party
  | some _ => 0
  | none => 5

abbrev Reached : Prop := Run step (· = initial) (fun _ _ => True) t

structure Served : Prop where
  guarded : ∀ side, (t.once side).Guarded
  numbered : ∀ call ∈ t.calls, call.connector = none → call.party < (t.once call.side).parties.length
  called : ∀ side party, party < (t.once side).parties.length → ⟨side, none, party⟩ ∈ t.calls

variable {t} {u : Transport} {side : Side} {state : Once.State Connector}

@[simp] theorem setOnce_same : (t.setOnce side state).once side = state := by
  cases side <;> rfl

theorem setOnce_other {other : Side} (differ : other ≠ side) : (t.setOnce side state).once other = t.once other := by
  cases side <;> cases other <;> first | rfl | exact absurd rfl differ

@[simp] theorem setOnce_calls : (t.setOnce side state).calls = t.calls := by
  cases side <;> rfl

theorem initial_served : initial.Served where
  guarded side := by cases side <;> exact Once.State.initial_guarded
  numbered call member := by cases member
  called side party within := by cases side <;> cases within

theorem Served.setOnce (served : t.Served) (guarded : state.Guarded)
    (length : state.parties.length = (t.once side).parties.length) : (t.setOnce side state).Served := by
  have parties : ∀ other, ((t.setOnce side state).once other).parties.length = (t.once other).parties.length := by
    intro other
    by_cases same : other = side
    · rw [same, setOnce_same, length]
    · rw [setOnce_other same]
  constructor
  · intro other
    by_cases same : other = side
    · rw [same, setOnce_same]
      exact guarded
    · rw [setOnce_other same]
      exact served.guarded other
  · intro call member default
    rw [setOnce_calls] at member
    rw [parties]
    exact served.numbered call member default
  · intro other party within
    rw [parties] at within
    rw [setOnce_calls]
    exact served.called other party within

theorem Served.call (served : t.Served) {connector : Option Connector}
    (taken : t.step (.call side connector) = some u) : u.Served := by
  cases connector with
  | some given =>
    cases taken
    constructor
    · exact served.guarded
    · intro call member default
      rcases List.mem_append.1 member with known | added
      · exact served.numbered call known default
      · cases List.mem_singleton.1 added
        cases default
    · intro other party within
      exact List.mem_append_left _ (served.called other party within)
  | none =>
    simp only [step, Once.State.step, Option.map_some, Option.some.injEq] at taken
    subst taken
    constructor
    · intro other
      by_cases same : other = side
      · rw [same, setOnce_same]
        exact (served.guarded side).join
      · rw [setOnce_other same]
        exact served.guarded other
    · intro call member default
      rw [setOnce_calls] at member
      rcases List.mem_append.1 member with known | added
      · have before := served.numbered call known default
        by_cases same : call.side = side
        · rw [same] at before
          rw [same, setOnce_same, List.length_append]
          exact Nat.lt_add_right _ before
        · rw [setOnce_other same]
          exact before
      · cases List.mem_singleton.1 added
        rw [setOnce_same, List.length_append]
        exact Nat.lt_succ_self _
    · intro other party within
      rw [setOnce_calls]
      by_cases same : other = side
      · rw [same, setOnce_same, List.length_append] at within
        rcases Nat.lt_succ_iff_lt_or_eq.1 within with before | last
        · rw [same]
          exact List.mem_append_left _ (served.called side party before)
        · rw [same, last]
          exact List.mem_append_right _ (List.mem_singleton_self _)
      · rw [setOnce_other same] at within
        exact List.mem_append_left _ (served.called other party within)

/-- A step of a call is a step of its party at the flag of its side. -/
theorem advance_cases {i : Nat} {made : Option Connector} (taken : t.step (.advance i made) = some u) :
    ∃ side party state, t.calls[i]? = some ⟨side, none, party⟩ ∧
      (t.once side).step (.advance party made) = some state ∧ u = t.setOnce side state := by
  simp only [step] at taken
  split at taken
  · next side party found =>
    obtain ⟨state, moved, result⟩ := Option.map_eq_some_iff.1 taken
    exact ⟨side, party, state, found, moved, result.symm⟩
  · cases taken

theorem Served.step (served : t.Served) {action : Action} (taken : t.step action = some u) : u.Served := by
  cases action with
  | call side connector => exact served.call taken
  | advance i made =>
    obtain ⟨side, party, state, _, moved, result⟩ := advance_cases taken
    subst result
    exact served.setOnce ((served.guarded side).step moved) (Once.State.advance_length moved)

theorem Reached.served (run : t.Reached) : t.Served :=
  run.invariant (fun _ start => start ▸ initial_served) fun _ _ _ served _ taken => served.step taken

theorem left_le (i : Nat) : t.left i ≤ 5 := by
  unfold left
  split
  · exact Once.State.left_le _ _
  · exact Nat.zero_le _
  · exact Nat.le_refl _

theorem advance_left {i : Nat} {made : Option Connector} (taken : t.step (.advance i made) = some u) :
    u.left i < t.left i ∧ ∀ j, u.left j ≤ t.left j := by
  obtain ⟨side, party, state, found, moved, result⟩ := advance_cases taken
  obtain ⟨less, others⟩ := Once.State.advance_left moved
  subst result
  have kept : ∀ party', state.left party' ≤ (t.once side).left party' := by
    intro party'
    by_cases same : party' = party
    · rw [same]
      exact Nat.le_of_lt less
    · exact Nat.le_of_eq (others party' same)
  constructor
  · unfold left
    simp only [setOnce_calls, found, setOnce_same]
    exact less
  · intro j
    unfold left
    rw [setOnce_calls]
    split
    · next side' party' _ =>
      by_cases same : side' = side
      · rw [same, setOnce_same]
        exact kept party'
      · exact Nat.le_of_eq (by rw [setOnce_other same])
    · exact Nat.le_refl _
    · exact Nat.le_refl _

theorem call_calls {connector : Option Connector} (taken : t.step (.call side connector) = some u) :
    ∃ call, u.calls = t.calls ++ [call] := by
  cases connector with
  | some given =>
    cases taken
    exact ⟨_, rfl⟩
  | none =>
    cases taken
    rw [setOnce_calls]
    exact ⟨_, rfl⟩

theorem Served.call_left (served : t.Served) {connector : Option Connector}
    (taken : t.step (.call side connector) = some u) (i : Nat) : u.left i ≤ t.left i := by
  by_cases within : i < t.calls.length
  · obtain ⟨call, calls⟩ := call_calls taken
    have found : t.calls[i]? = some t.calls[i] := List.getElem?_eq_getElem within
    have found' : u.calls[i]? = some t.calls[i] := by rw [calls, List.getElem?_append_left within, found]
    unfold left
    rw [found, found']
    split
    · next side' party same =>
      have numbered : party < (t.once side').parties.length :=
        served.numbered ⟨side', none, party⟩ ((Option.some.inj same) ▸ List.getElem_mem within) rfl
      cases connector with
      | some given =>
        cases taken
        exact Nat.le_refl _
      | none =>
        cases taken
        by_cases own : side' = side
        · subst own
          rw [setOnce_same]
          exact Nat.le_of_eq (Once.State.join_left rfl numbered)
        · rw [setOnce_other own]
          exact Nat.le_refl _
    · exact Nat.le_refl _
    · exact Nat.le_refl _
  · have absent : t.left i = 5 := by
      unfold left
      rw [List.getElem?_eq_none (Nat.le_of_not_lt within)]
    rw [absent]
    exact left_le i

theorem Served.step_left (served : t.Served) {action : Action} (taken : t.step action = some u) (i : Nat) :
    (if action.advances i then 1 else 0) + u.left i ≤ t.left i := by
  cases action with
  | call side connector =>
    have kept := served.call_left taken i
    simpa [Action.advances] using kept
  | advance j made =>
    obtain ⟨less, kept⟩ := advance_left taken
    by_cases own : j = i
    · subst own
      simp only [Action.advances, decide_true, if_true]
      omega
    · simpa [Action.advances, own] using kept i

theorem step_calls {action : Action} (taken : t.step action = some u) :
    t.calls.length ≤ u.calls.length ∧ ∀ i made, action = .advance i made → i < t.calls.length := by
  cases action with
  | call side connector =>
    obtain ⟨call, calls⟩ := call_calls taken
    rw [calls, List.length_append]
    exact ⟨Nat.le_add_right _ _, nofun⟩
  | advance j made =>
    obtain ⟨side, party, state, found, _, result⟩ := advance_cases taken
    refine ⟨Nat.le_of_eq (by rw [result, setOnce_calls]), ?_⟩
    rintro i other ⟨⟩
    exact (List.getElem?_eq_some_iff.1 found).1

/-- What a run leaves to each call: its steps so far are taken off, whatever calls come in between. -/
theorem Served.steps (served : t.Served) {actions : List Action} (taken : actions.foldlM Transport.step t = some u) :
    u.Served ∧ t.calls.length ≤ u.calls.length ∧ (∀ i, actions.countP (Action.advances i) + u.left i ≤ t.left i) ∧
      ∀ i made, .advance i made ∈ actions → i < u.calls.length := by
  induction actions generalizing t with
  | nil =>
    cases taken
    exact ⟨served, Nat.le_refl _, fun i => Nat.le_of_eq (Nat.zero_add _), nofun⟩
  | cons action rest ih =>
    rw [List.foldlM_cons] at taken
    obtain ⟨next, first, others⟩ := Option.bind_eq_some_iff.1 taken
    obtain ⟨served', more, fewer, known⟩ := ih (served.step first) others
    obtain ⟨added, present⟩ := step_calls first
    refine ⟨served', Nat.le_trans added more, fun i => ?_, fun i made member => ?_⟩
    · have here := served.step_left first i
      have later := fewer i
      rw [List.countP_cons]
      omega
    · rcases List.mem_cons.1 member with same | other
      · have within := present i made same.symm
        omega
      · exact known i made other

theorem Served.progress (served : t.Served) {call : Call} (member : call ∈ t.calls)
    (unfinished : t.finished call = false) (made : Option Connector) : ∃ i, (t.step (.advance i made)).isSome := by
  obtain ⟨side, connector, party⟩ := call
  unfold finished at unfinished
  cases connector with
  | some given => cases unfinished
  | none =>
    have within := served.numbered _ member rfl
    have found : (t.once side).parties[party]? = some (t.once side).parties[party] := List.getElem?_eq_getElem within
    have waits : (t.once side).parties[party].finished = false := by
      simpa [phase, found] using unfinished
    obtain ⟨other, moves⟩ := (served.guarded side).progress found waits made
    obtain ⟨state, moved⟩ := Option.isSome_iff_exists.1 moves
    obtain ⟨i, place⟩ := List.getElem?_of_mem (served.called side other (Once.State.advance_within moved))
    exact ⟨i, by simp [Transport.step, place, moved]⟩

end Transport

/-- Whatever the order in which the calls take their steps, and whether making a connector throws or not, a transport
makes no more than one default connector for each side. A call that has been given a connector passes that on; every
other call passes on the default connector of its side, and that has been made. -/
theorem default_connector_shared (t : Transport) (run : t.Reached) :
    (∀ side, (t.connectors side).length ≤ 1) ∧
      ∀ call ∈ t.calls, ∀ passed, t.passes call = some passed →
        (∀ given, call.connector = some given → passed = some given) ∧
          (call.connector = none → ∃ connector, passed = some connector ∧ t.connectors call.side = [connector]) := by
  have served := run.served
  refine ⟨fun side => (served.guarded side).made_once, ?_⟩
  intro call member passed passes
  unfold Transport.passes at passes
  constructor
  · intro given explicit
    rw [explicit] at passes
    exact (Option.some.inj passes).symm
  · intro default
    rw [default] at passes
    split at passes
    · next impossible => cases impossible
    · next slot _ found =>
      cases passes
      exact (served.guarded call.side).read_made found
    · cases passes

def raced : List Action :=
  [.call .client none, .call .client none, .call .client (some 7), .advance 0 none, .advance 0 none, .advance 1 none,
    .advance 1 (some 3), .advance 1 none, .advance 1 none, .advance 1 none]

def racedEnd : Transport :=
  ⟨⟨.done, some 3, [.thrown, .read (some 3)], [3]⟩, .initial,
    [⟨.client, none, 0⟩, ⟨.client, none, 1⟩, ⟨.client, some 7, 2⟩]⟩

theorem initial_reached : Transport.initial.Reached := Run.initial rfl

theorem raced_taken : raced.foldlM Transport.step .initial = some racedEnd := by decide

theorem default_connector_shared_raced :
    (racedEnd.connectors .client).length ≤ 1 ∧
      ∃ connector, racedEnd.passes ⟨.client, none, 1⟩ = some (some connector) ∧
        racedEnd.connectors .client = [connector] := by
  have run : racedEnd.Reached := initial_reached.append raced (fun _ _ _ => trivial) raced_taken
  obtain ⟨once, passed⟩ := default_connector_shared racedEnd run
  have passes : racedEnd.passes ⟨.client, none, 1⟩ = some (some 3) := by decide
  obtain ⟨connector, same, made⟩ := (passed ⟨.client, none, 1⟩ (by decide) _ passes).2 rfl
  exact ⟨once .client, connector, same ▸ passes, made⟩

/-- No call takes more than five steps, in whatever order the calls come and take them, and where no call can take
another step all of them are finished: none waits at a flag for ever, also where making a connector has thrown. -/
theorem default_connector_calls_end (t : Transport) (run : t.Reached) (actions : List Action) (u : Transport)
    (taken : actions.foldlM Transport.step t = some u) :
    (∀ i, actions.countP (Action.advances i) ≤ 5) ∧ (∀ i made, .advance i made ∈ actions → i < u.calls.length) ∧
      ((∀ i made, u.step (.advance i made) = none) → ∀ call ∈ u.calls, u.finished call) := by
  obtain ⟨served, _, fewer, known⟩ := run.served.steps taken
  refine ⟨fun i => ?_, known, fun stuck call member => ?_⟩
  · have few := fewer i
    have most := t.left_le i
    omega
  · by_contra waiting
    obtain ⟨i, moves⟩ := served.progress member (Bool.eq_false_iff.2 waiting) none
    rw [stuck i none] at moves
    cases moves

def racing : Transport :=
  ⟨⟨.active 0, none, [.running], []⟩, .initial, [⟨.client, none, 0⟩]⟩

theorem default_connector_calls_end_raced :
    let actions : List Action :=
      [.call .client none, .advance 0 none, .advance 1 none, .call .client (some 7), .advance 1 (some 3), .advance 1 none,
        .advance 1 none, .advance 1 none]
    (∀ i, actions.countP (Action.advances i) ≤ 5) ∧
      (∀ i made, .advance i made ∈ actions → i < racedEnd.calls.length) ∧
      ∀ call ∈ racedEnd.calls, racedEnd.finished call := by
  intro actions
  have run : racing.Reached :=
    initial_reached.append [.call .client none, .advance 0 none] (fun _ _ _ => trivial) (by decide)
  obtain ⟨few, known, ends⟩ := default_connector_calls_end racing run actions racedEnd (by decide)
  refine ⟨few, known, ends ?_⟩
  intro i made
  match i with
  | 0 => rfl
  | 1 => rfl
  | 2 => rfl
  | i + 3 => rfl

end IpcBond.DefaultConnector
