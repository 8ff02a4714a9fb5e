import IpcBond.Library.Machine

/-! The managed `ClientAccessor`, which caches the client that wraps the connected component. Any number of
threads call its getter; the accessor underneath raises events, which are handled one after another. -/

namespace IpcBond.ClientAccessor
open Library.Machine

abbrev Component := Nat

inductive Event where
  | connected (component : Component)
  | disconnected (component : Component)
  deriving DecidableEq, Repr

inductive Getter where
  | called
  | missed
  | fetched (component : Component)
  | returned (component : Component)
  | threw
  deriving DecidableEq, Repr

def Getter.finished : Getter → Bool
  | returned _ => true
  | threw => true
  | _ => false

/-- `implClient` is `Impl.Client`, the component that is connected; `events` are those raised and not yet
handled; `client` is `_client`. -/
structure State where
  implClient : Option Component
  events : List Event
  client : Option Component
  getters : List Getter
  deriving DecidableEq, Repr

/-- The accessor underneath may be connected before the constructor subscribes to its events. -/
def State.Initial (s : State) : Prop := s.events = [] ∧ s.client = none ∧ s.getters = []

inductive Action where
  | call
  | readClient (getter : Nat)
  | readImpl (getter : Nat)
  | exchange (getter : Nat)
  | connect (component : Component)
  | disconnect
  | handle
  deriving DecidableEq, Repr

namespace State

variable (s : State)

def connectComponent (component : Component) : State := { s with client := some component }

/-- The component that has been disconnected is not compared with the one that is cached. -/
def disconnectComponent (_component : Component) : State := { s with client := none }

def onEvent : Event → State
  | .connected component => s.connectComponent component
  | .disconnected component => s.disconnectComponent component

def setGetter (i : Nat) (getter : Getter) : State := { s with getters := s.getters.set i getter }

end State

def step (s : State) : Action → Option State
  | .call => some { s with getters := s.getters ++ [.called] }
  | .readClient i =>
    match s.getters[i]?, s.client with
    | some .called, some component => some (s.setGetter i (.returned component))
    | some .called, none => some (s.setGetter i .missed)
    | _, _ => none
  | .readImpl i =>
    match s.getters[i]?, s.implClient with
    | some .missed, some component => some (s.setGetter i (.fetched component))
    | some .missed, none => some (s.setGetter i .threw)
    | _, _ => none
  | .exchange i =>
    match s.getters[i]? with
    | some (.fetched component) => some ((s.connectComponent component).setGetter i (.returned component))
    | _ => none
  | .connect component =>
    if s.implClient = none then
      some { s with implClient := some component, events := s.events ++ [.connected component] }
    else none
  | .disconnect =>
    match s.implClient with
    | some component => some { s with implClient := none, events := s.events ++ [.disconnected component] }
    | none => none
  | .handle =>
    match s.events with
    | event :: rest => some ({ s with events := rest }.onEvent event)
    | [] => none

def State.Quiet (s : State) : Prop := s.events = [] ∧ ∀ getter ∈ s.getters, getter.finished = true

instance (s : State) : Decidable s.Quiet := inferInstanceAs (Decidable (_ ∧ _))

/-- The component is connected, or its `Disconnected` event has not been handled yet. -/
def State.Current (s : State) (component : Component) : Prop :=
  s.implClient = some component ∨ .disconnected component ∈ s.events

/-- A getter stores what it has fetched only while that is current. -/
def Timely (s : State) : Action → Prop
  | .exchange i => ∀ component, s.getters[i]? = some (.fetched component) → s.Current component
  | _ => True

structure Fresh (s : State) : Prop where
  cached : ∀ component, s.client = some component → s.Current component
  raised : ∀ component rest, .connected component :: rest <:+ s.events →
    s.implClient = some component ∨ .disconnected component ∈ rest

namespace Fresh

variable {s : State} (fresh : Fresh s)
include fresh

theorem getters (getters : List Getter) : Fresh { s with getters := getters } := ⟨fresh.cached, fresh.raised⟩

theorem connectComponent {component : Component} (current : s.Current component) :
    Fresh (s.connectComponent component) := by
  refine ⟨fun other same => ?_, fresh.raised⟩
  cases same
  exact current

theorem connect {component : Component} (none : s.implClient = none) :
    Fresh { s with implClient := some component, events := s.events ++ [.connected component] } := by
  refine ⟨fun other same => ?_, fun other rest suffix => ?_⟩
  · rcases fresh.cached other same with connected | pending
    · rw [none] at connected
      cases connected
    · exact Or.inr (List.mem_append_left _ pending)
  · rcases List.suffix_concat_iff.1 suffix with nothing | ⟨front, split, before⟩
    · cases nothing
    · cases front with
      | nil =>
        cases split
        exact Or.inl rfl
      | cons event middle =>
        obtain ⟨rfl, rfl⟩ := List.cons.inj split
        rcases fresh.raised other middle before with connected | pending
        · rw [none] at connected
          cases connected
        · exact Or.inr (List.mem_append_left _ pending)

theorem disconnect {component : Component} (connected : s.implClient = some component) :
    Fresh { s with implClient := none, events := s.events ++ [.disconnected component] } := by
  refine ⟨fun other same => ?_, fun other rest suffix => ?_⟩
  · rcases fresh.cached other same with still | pending
    · rw [connected] at still
      cases still
      exact Or.inr (List.mem_append_right _ (List.mem_singleton_self _))
    · exact Or.inr (List.mem_append_left _ pending)
  · rcases List.suffix_concat_iff.1 suffix with nothing | ⟨front, split, before⟩
    · cases nothing
    · cases front with
      | nil => cases split
      | cons event middle =>
        obtain ⟨rfl, rfl⟩ := List.cons.inj split
        rcases fresh.raised other middle before with still | pending
        · rw [connected] at still
          cases still
          exact Or.inr (List.mem_append_right _ (List.mem_singleton_self _))
        · exact Or.inr (List.mem_append_left _ pending)

theorem handle {event : Event} {rest : List Event} (events : s.events = event :: rest) :
    Fresh ({ s with events := rest }.onEvent event) := by
  have later : ∀ component others, .connected component :: others <:+ rest →
      s.implClient = some component ∨ .disconnected component ∈ others := fun component others suffix =>
    fresh.raised component others (suffix.trans (by rw [events]; exact List.suffix_cons _ _))
  cases event with
  | connected component =>
    refine ⟨fun other same => ?_, later⟩
    cases same
    exact fresh.raised component rest ⟨[], events.symm⟩
  | disconnected component => exact ⟨nofun, later⟩

end Fresh

/-- Every timely step keeps the cache current. -/
theorem Fresh.step {s t : State} {action : Action} (fresh : Fresh s) (timely : Timely s action)
    (taken : step s action = some t) : Fresh t := by
  cases action with
  | call =>
    cases taken
    exact fresh.getters _
  | readClient i =>
    simp only [ClientAccessor.step] at taken
    split at taken <;> cases taken <;> exact fresh.getters _
  | readImpl i =>
    simp only [ClientAccessor.step] at taken
    split at taken <;> cases taken <;> exact fresh.getters _
  | exchange i =>
    simp only [ClientAccessor.step] at taken
    split at taken
    · next component fetched =>
      cases taken
      exact (fresh.connectComponent (timely component fetched)).getters _
    · cases taken
  | connect component =>
    simp only [ClientAccessor.step] at taken
    split at taken
    · next none =>
      cases taken
      exact fresh.connect none
    · cases taken
  | disconnect =>
    simp only [ClientAccessor.step] at taken
    split at taken
    · next component connected =>
      cases taken
      exact fresh.disconnect connected
    · cases taken
  | handle =>
    simp only [ClientAccessor.step] at taken
    split at taken
    · next event rest events =>
      cases taken
      exact fresh.handle events
    · cases taken

theorem State.Initial.fresh {s : State} (initial : s.Initial) : Fresh s := by
  obtain ⟨events, client, _⟩ := initial
  refine ⟨fun component same => ?_, fun component rest suffix => ?_⟩
  · rw [client] at same
    cases same
  · rw [events] at suffix
    cases List.suffix_nil.1 suffix

/-- In every run in which the getters store only what is current, a client that is cached in a quiet state wraps
the component that is connected. Where no event remains, one that stores anything else caches a client that is
not connected. -/
theorem cached_client_connected (s : State) :
    (Run step State.Initial Timely s → s.Quiet → s.client = none ∨ s.client = s.implClient) ∧
      ∀ t i, step s (.exchange i) = some t → s.events = [] →
        (Timely s (.exchange i) ↔ t.client = none ∨ t.client = t.implClient) := by
  refine ⟨fun run quiet => ?_, fun t i taken events => ?_⟩
  · have fresh : Fresh s := run.invariant (fun _ initial => initial.fresh)
      fun _ _ _ fresh timely taken => fresh.step timely taken
    cases cached : s.client with
    | none => exact Or.inl rfl
    | some component =>
      rcases fresh.cached component cached with connected | pending
      · exact Or.inr connected.symm
      · rw [quiet.1] at pending
        cases pending
  · simp only [step] at taken
    split at taken
    · next component fetched =>
      cases taken
      constructor
      · intro timely
        rcases timely component fetched with connected | pending
        · exact Or.inr connected.symm
        · rw [events] at pending
          cases pending
      · rintro (none | same) other fetchedOther
        · cases none
        · rw [fetched] at fetchedOther
          cases fetchedOther
          exact Or.inl same.symm
    · cases taken

/-- A getter stores what it has fetched before the component's `Disconnected` event is handled, and another one
finds the next component in the cache. -/
theorem cached_client_connected_timely :
    let s : State := ⟨some 2, [], some 2, [.returned 1, .returned 2]⟩
    Run step State.Initial Timely s ∧ s.Quiet ∧ (s.client = none ∨ s.client = s.implClient) := by
  intro s
  have start : Run step State.Initial Timely ⟨none, [], none, []⟩ := .initial ⟨rfl, rfl, rfl⟩
  have fetched : Run step State.Initial Timely ⟨none, [.disconnected 1], some 1, [.fetched 1]⟩ :=
    start.append [.call, .readClient 0, .connect 1, .readImpl 0, .handle, .disconnect] (by simp [Timely]) rfl
  have timely : Timely ⟨none, [.disconnected 1], some 1, [.fetched 1]⟩ (.exchange 0) := by
    rintro component ⟨⟩
    exact Or.inr (List.mem_singleton_self _)
  have stored : Run step State.Initial Timely ⟨none, [.disconnected 1], some 1, [.returned 1]⟩ :=
    fetched.step timely rfl
  have run : Run step State.Initial Timely s :=
    stored.append [.handle, .connect 2, .handle, .call, .readClient 1] (by simp [Timely]) rfl
  have quiet : s.Quiet := by decide
  exact ⟨run, quiet, (cached_client_connected s).1 run quiet⟩

/-- A getter fetches the component while it is connected, and stores it after its `Disconnected` event has been
handled. -/
theorem late_getter_caches_disconnected :
    let s : State := ⟨none, [], some 1, [.returned 1]⟩
    Run step State.Initial (fun _ _ => True) s ∧ s.Quiet ∧ s.client ≠ none ∧ s.client ≠ s.implClient := by
  intro s
  have start : Run step State.Initial (fun _ _ => True) ⟨none, [], none, []⟩ := .initial ⟨rfl, rfl, rfl⟩
  refine ⟨?_, by decide, by decide, by decide⟩
  exact start.append [.call, .readClient 0, .connect 1, .handle, .readImpl 0, .disconnect, .handle, .exchange 0]
    (fun _ _ _ => trivial) rfl

def Event.leaves : Event → Option Component
  | connected component => some component
  | disconnected _ => none

def State.uncached (s : State) : State := { s with client := none }

structure Announced (s : State) : Prop where
  raised : Fresh s.uncached
  latest : ∀ event, s.events.getLast? = some event → s.implClient = event.leaves

namespace Announced

variable {s t : State} (announced : Announced s)
include announced

theorem getters (getters : List Getter) (client : Option Component) :
    Announced { s with getters := getters, client := client } :=
  ⟨announced.raised.getters getters, announced.latest⟩

/-- An event that is handled overwrites what is cached. -/
theorem handled {event : Event} {rest : List Event} (events : s.events = event :: rest) :
    Fresh ({ s with events := rest }.onEvent event) := by
  have healed := announced.raised.handle events
  cases event with
  | connected component => exact healed
  | disconnected component => exact healed

theorem handle {event : Event} {rest : List Event} (events : s.events = event :: rest) :
    Announced ({ s with events := rest }.onEvent event) := by
  have healed := announced.handled events
  have later : ∀ other, rest.getLast? = some other → s.implClient = other.leaves := by
    intro other last
    refine announced.latest other ?_
    rw [events, List.getLast?_cons, last]
    rfl
  cases event with
  | connected component => exact ⟨⟨nofun, healed.raised⟩, later⟩
  | disconnected component => exact ⟨⟨nofun, healed.raised⟩, later⟩

theorem step {action : Action} (taken : step s action = some t) : Announced t := by
  cases action with
  | call =>
    cases taken
    exact announced.getters _ _
  | readClient i =>
    simp only [ClientAccessor.step] at taken
    split at taken <;> cases taken <;> exact announced.getters _ _
  | readImpl i =>
    simp only [ClientAccessor.step] at taken
    split at taken <;> cases taken <;> exact announced.getters _ _
  | exchange i =>
    simp only [ClientAccessor.step] at taken
    split at taken
    · cases taken
      exact announced.getters _ _
    · cases taken
  | connect component =>
    simp only [ClientAccessor.step] at taken
    split at taken
    · next none =>
      cases taken
      refine ⟨announced.raised.connect none, fun event last => ?_⟩
      rw [List.getLast?_concat] at last
      cases last
      rfl
    · cases taken
  | disconnect =>
    simp only [ClientAccessor.step] at taken
    split at taken
    · next component connected =>
      cases taken
      refine ⟨announced.raised.disconnect connected, fun event last => ?_⟩
      rw [List.getLast?_concat] at last
      cases last
      rfl
    · cases taken
  | handle =>
    simp only [ClientAccessor.step] at taken
    split at taken
    · next event rest events =>
      cases taken
      exact announced.handle events
    · cases taken

end Announced

theorem State.Initial.announced {s : State} (initial : s.Initial) : Announced s := by
  refine ⟨State.Initial.fresh ⟨initial.1, rfl, initial.2.2⟩, fun event last => ?_⟩
  rw [initial.1] at last
  cases last

theorem Fresh.connected {s : State} (fresh : Fresh s) (settled : s.events = []) :
    s.client = none ∨ s.client = s.implClient := by
  cases cached : s.client with
  | none => exact Or.inl rfl
  | some component =>
    rcases fresh.cached component cached with connected | pending
    · exact Or.inr connected.symm
    · rw [settled] at pending
      cases pending

/-- Whatever getters have stored too late is gone with the next event that is handled, which leaves in the cache what it
tells. When it was the last one, the cache is exactly what is connected; and from then on it is right whenever no event
is pending, as long as no other getter is late. -/
theorem cache_heals (s t : State) (run : Run step State.Initial (fun _ _ => True) s)
    (handled : step s .handle = some t) :
    (∃ event rest, s.events = event :: rest ∧ t.events = rest ∧ t.client = event.leaves) ∧
      (t.events = [] → t.client = t.implClient) ∧
      ∀ u, Run step (· = t) Timely u → u.events = [] → u.client = none ∨ u.client = u.implClient := by
  have announced : Announced s := run.invariant (fun _ initial => initial.announced)
    fun _ _ _ announced _ taken => announced.step taken
  simp only [step] at handled
  split at handled
  · next event rest events =>
    cases handled
    have healed := announced.handled events
    have leaves : ({ s with events := rest }.onEvent event).events = rest ∧
        ({ s with events := rest }.onEvent event).client = event.leaves ∧
        ({ s with events := rest }.onEvent event).implClient = s.implClient := by
      cases event with
      | connected component => exact ⟨rfl, rfl, rfl⟩
      | disconnected component => exact ⟨rfl, rfl, rfl⟩
    obtain ⟨left, client, implClient⟩ := leaves
    refine ⟨⟨event, rest, events, left, client⟩, fun none => ?_, fun u later settled => ?_⟩
    · have last : rest = [] := left.symm.trans none
      rw [client, implClient]
      exact (announced.latest event (by rw [events, last]; rfl)).symm
    · have fresh : Fresh u := later.invariant (fun _ start => start ▸ healed)
        fun _ _ _ fresh timely taken => fresh.step timely taken
      exact fresh.connected settled
  · cases handled

/-- A getter has cached a component after its disconnection, and another component is connected; once that is handled,
the next getter returns this one while a third has only been called. -/
theorem cache_heals_reconnected :
    let s : State := ⟨some 2, [.connected 2], some 1, [.returned 1]⟩
    let t : State := ⟨some 2, [], some 2, [.returned 1]⟩
    let u : State := ⟨some 2, [], some 2, [.returned 1, .returned 2, .called]⟩
    Run step State.Initial (fun _ _ => True) s ∧ s.client ≠ s.implClient ∧
      (∃ event rest, s.events = event :: rest ∧ t.events = rest ∧ t.client = event.leaves) ∧
      t.client = t.implClient ∧ (u.client = none ∨ u.client = u.implClient) := by
  intro s t u
  have start : Run step State.Initial (fun _ _ => True) ⟨none, [], none, []⟩ := .initial ⟨rfl, rfl, rfl⟩
  have run : Run step State.Initial (fun _ _ => True) s :=
    start.append [.call, .readClient 0, .connect 1, .handle, .readImpl 0, .disconnect, .handle, .exchange 0, .connect 2]
      (fun _ _ _ => trivial) rfl
  obtain ⟨left, exact_, kept⟩ := cache_heals s t run rfl
  have healed : Run step (· = t) Timely t := .initial rfl
  have later : Run step (· = t) Timely u := healed.append [.call, .readClient 1, .call] (by simp [Timely]) rfl
  exact ⟨run, by decide, left, exact_ rfl, kept u later rfl⟩

end IpcBond.ClientAccessor
