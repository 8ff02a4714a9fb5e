import Mathlib.Data.List.Basic

/-! A slot that is filled once. Any number of parties, one step of a party at a time, run a callable through a flag: it
makes a value and stores it in the slot, or it throws and another party may try. Behind the flag each party reads the
slot without further protection. -/

namespace IpcBond.Library.Once

variable {Value : Type}

inductive Phase (Value : Type) where
  | waiting
  | running
  | made (value : Value)
  | stored
  | passed
  | read (slot : Option Value)
  | thrown
  deriving DecidableEq, Repr

namespace Phase

def inside : Phase Value → Bool
  | running => true
  | made _ => true
  | stored => true
  | _ => false

def past : Phase Value → Bool
  | passed => true
  | read _ => true
  | _ => false

def finished : Phase Value → Bool
  | read _ => true
  | thrown => true
  | _ => false

def remaining : Phase Value → Nat
  | waiting => 5
  | running => 4
  | made _ => 3
  | stored => 2
  | passed => 1
  | _ => 0

end Phase

inductive Flag where
  | idle
  | active (party : Nat)
  | done
  deriving DecidableEq, Repr

structure State (Value : Type) where
  flag : Flag
  slot : Option Value
  parties : List (Phase Value)
  history : List Value
  deriving DecidableEq, Repr

inductive Action (Value : Type) where
  | join
  | advance (party : Nat) (outcome : Option Value)
  deriving DecidableEq, Repr

namespace State

def initial : State Value := ⟨.idle, none, [], []⟩

def setPhase (s : State Value) (i : Nat) (phase : Phase Value) : State Value :=
  { s with parties := s.parties.set i phase }

def step (s : State Value) : Action Value → Option (State Value)
  | .join => some { s with parties := s.parties ++ [.waiting] }
  | .advance i outcome =>
    match s.parties[i]?, s.flag, outcome with
    | some .waiting, .idle, _ => some ({ s with flag := .active i }.setPhase i .running)
    | some .waiting, .done, _ => some (s.setPhase i .passed)
    | some .running, _, some value => some ({ s with history := s.history ++ [value] }.setPhase i (.made value))
    | some .running, _, none => some ({ s with flag := .idle }.setPhase i .thrown)
    | some (.made value), _, _ => some ({ s with slot := some value }.setPhase i .stored)
    | some .stored, _, _ => some ({ s with flag := .done }.setPhase i .passed)
    | some .passed, _, _ => some (s.setPhase i (.read s.slot))
    | _, _, _ => none

def Holds (s : State Value) : Phase Value → Prop
  | .running => s.slot = none ∧ s.history = []
  | .made value => s.slot = none ∧ s.history = [value]
  | .stored => ∃ value, s.slot = some value ∧ s.history = [value]
  | _ => False

def Filled (s : State Value) (value : Value) : Prop := s.flag = .done ∧ s.slot = some value ∧ s.history = [value]

def Meaning (s : State Value) : Flag → Prop
  | .idle => s.slot = none ∧ s.history = []
  | .active i => ∃ phase, s.parties[i]? = some phase ∧ s.Holds phase
  | .done => ∃ value, s.slot = some value ∧ s.history = [value]

/-- Only one party is in the callable, and all that are past the flag have seen it done. -/
structure Guarded (s : State Value) : Prop where
  meaning : s.Meaning s.flag
  inside : ∀ (i : Nat) (phase : Phase Value), s.parties[i]? = some phase → phase.inside → s.flag = .active i
  past : ∀ (i : Nat) (phase : Phase Value), s.parties[i]? = some phase → phase.past → s.flag = .done
  read : ∀ (i : Nat) (slot : Option Value), s.parties[i]? = some (.read slot) → slot = s.slot

variable {s t : State Value} {i : Nat} {old next : Phase Value}

theorem initial_guarded : (initial : State Value).Guarded where
  meaning := ⟨rfl, rfl⟩
  inside i phase found := by cases found
  past i phase found := by cases found
  read i slot found := by cases found

theorem Guarded.join (g : s.Guarded) : Guarded { s with parties := s.parties ++ [.waiting] } := by
  have before : ∀ (j : Nat) (phase : Phase Value), (s.parties ++ [.waiting])[j]? = some phase →
      s.parties[j]? = some phase ∨ phase = .waiting := by
    intro j phase found
    rcases Nat.lt_or_ge j s.parties.length with within | beyond
    · exact Or.inl (List.getElem?_append_left within ▸ found)
    · rw [List.getElem?_append_right beyond] at found
      have member := List.mem_of_getElem? found
      exact Or.inr (List.mem_singleton.1 member)
  constructor
  · change Meaning { s with parties := s.parties ++ [.waiting] } s.flag
    have meaning := g.meaning
    cases known : s.flag with
    | idle =>
      rw [known] at meaning
      exact meaning
    | active party =>
      rw [known] at meaning
      obtain ⟨phase, found, holds⟩ := meaning
      refine ⟨phase, ?_, holds⟩
      exact (List.getElem?_append_left (List.getElem?_eq_some_iff.1 found).1).trans found
    | done =>
      rw [known] at meaning
      exact meaning
  · intro j phase found isInside
    rcases before j phase found with known | same
    · exact g.inside j phase known isInside
    · subst same
      cases isInside
  · intro j phase found isPast
    rcases before j phase found with known | same
    · exact g.past j phase known isPast
    · subst same
      cases isPast
  · intro j slot found
    rcases before j _ found with known | same
    · exact g.read j slot known
    · cases same

theorem Guarded.move (g : s.Guarded) {flag : Flag} {slot : Option Value} {history : List Value}
    (meaning : Meaning ⟨flag, slot, s.parties.set i next, history⟩ flag)
    (inside : next.inside → flag = .active i) (past : next.past → flag = .done)
    (read : ∀ seen, next = .read seen → seen = slot)
    (others : ∀ j, j ≠ i → s.flag = .active j → flag = .active j)
    (done : s.flag = .done → flag = .done ∧ slot = s.slot) :
    Guarded ⟨flag, slot, s.parties.set i next, history⟩ := by
  have after : ∀ (j : Nat) (phase : Phase Value), (s.parties.set i next)[j]? = some phase →
      j = i ∧ phase = next ∨ j ≠ i ∧ s.parties[j]? = some phase := by
    intro j phase found
    rw [List.getElem?_set] at found
    split at found
    · next same =>
      split at found
      · exact Or.inl ⟨same.symm, (Option.some.inj found).symm⟩
      · cases found
    · next other => exact Or.inr ⟨fun same => other same.symm, found⟩
  constructor
  · exact meaning
  · intro j phase found isInside
    rcases after j phase found with ⟨same, now⟩ | ⟨other, known⟩
    · subst same now
      exact inside isInside
    · exact others j other (g.inside j phase known isInside)
  · intro j phase found isPast
    rcases after j phase found with ⟨same, now⟩ | ⟨other, known⟩
    · subst same now
      exact past isPast
    · exact (done (g.past j phase known isPast)).1
  · intro j seen found
    rcases after j _ found with ⟨same, now⟩ | ⟨other, known⟩
    · exact read seen now.symm
    · rw [g.read j seen known]
      exact (done (g.past j _ known rfl)).2.symm

theorem Guarded.holds (g : s.Guarded) (found : s.parties[i]? = some old) (isInside : old.inside) :
    s.flag = .active i ∧ s.Holds old := by
  have active := g.inside i old found isInside
  have meaning := g.meaning
  rw [active] at meaning
  obtain ⟨phase, known, holds⟩ := meaning
  rw [found] at known
  cases known
  exact ⟨active, holds⟩

theorem Guarded.filled (g : s.Guarded) (found : s.parties[i]? = some old) (isPast : old.past) :
    ∃ value, s.Filled value := by
  have done := g.past i old found isPast
  have meaning := g.meaning
  rw [done] at meaning
  obtain ⟨value, slot, history⟩ := meaning
  exact ⟨value, done, slot, history⟩

theorem Guarded.step (g : s.Guarded) {action : Action Value} (taken : s.step action = some t) : t.Guarded := by
  cases action with
  | join =>
    cases taken
    exact g.join
  | advance i outcome =>
    simp only [State.step] at taken
    split at taken
    · next found idle =>
      cases taken
      have empty := g.meaning
      rw [idle] at empty
      refine g.move ⟨.running, ?_, empty⟩ (fun _ => rfl) (by simp [Phase.past]) (by simp) (by simp [idle])
        (by simp [idle])
      exact List.getElem?_set_self (List.getElem?_eq_some_iff.1 found).1
    · next found done =>
      cases taken
      have filled := g.meaning
      rw [done] at filled
      refine g.move ?_ (by simp [Phase.inside]) (fun _ => done) (by simp) (fun _ _ active => active) (by simp)
      rw [done]
      exact filled
    · next value found =>
      cases taken
      obtain ⟨active, empty, fresh⟩ := g.holds found rfl
      refine g.move ?_ (fun _ => active) (by simp [Phase.past]) (by simp) (fun _ _ active => active) (by simp)
      change Meaning _ s.flag
      rw [active]
      refine ⟨.made value, List.getElem?_set_self (List.getElem?_eq_some_iff.1 found).1, empty, ?_⟩
      rw [fresh]
      rfl
    · next found =>
      cases taken
      obtain ⟨active, empty⟩ := g.holds found rfl
      refine g.move empty (by simp [Phase.inside]) (by simp [Phase.past]) (by simp) ?_ (by simp [active])
      intro j other held
      rw [active] at held
      cases held
      exact absurd rfl other
    · next value found =>
      cases taken
      obtain ⟨active, empty, made⟩ := g.holds found rfl
      refine g.move ?_ (fun _ => active) (by simp [Phase.past]) (by simp) (fun _ _ active => active) (by simp [active])
      change Meaning _ s.flag
      rw [active]
      exact ⟨.stored, List.getElem?_set_self (List.getElem?_eq_some_iff.1 found).1, value, rfl, made⟩
    · next found =>
      cases taken
      obtain ⟨active, filled⟩ := g.holds found rfl
      refine g.move filled (by simp [Phase.inside]) (fun _ => rfl) (by simp) ?_ (by simp [active])
      intro j other held
      rw [active] at held
      cases held
      exact absurd rfl other
    · next found =>
      cases taken
      obtain ⟨value, done, filled⟩ := g.filled found rfl
      refine g.move ?_ (by simp [Phase.inside]) (fun _ => done) (by simp) (fun _ _ active => active) (by simp)
      rw [done]
      exact ⟨value, filled⟩
    · cases taken

/-- In every run, the parties that have read the slot have all found in it the one value that has been made. -/
theorem Guarded.read_made (g : s.Guarded) {slot : Option Value} (found : s.parties[i]? = some (.read slot)) :
    ∃ value, slot = some value ∧ s.history = [value] := by
  obtain ⟨value, _, filled, made⟩ := g.filled found rfl
  exact ⟨value, (g.read i slot found).trans filled, made⟩

theorem Guarded.made_once (g : s.Guarded) : s.history.length ≤ 1 := by
  have meaning := g.meaning
  cases known : s.flag with
  | idle =>
    rw [known] at meaning
    simp [meaning.2]
  | active party =>
    rw [known] at meaning
    obtain ⟨phase, _, holds⟩ := meaning
    cases phase with
    | running => simp [holds.2]
    | made value => simp [holds.2]
    | stored =>
      obtain ⟨value, _, made⟩ := holds
      simp [made]
    | _ => cases holds
  | done =>
    rw [known] at meaning
    obtain ⟨value, _, made⟩ := meaning
    simp [made]

/-- A step of a party uses up one of those it has left, whatever the callable makes, and moves no other party. -/
theorem advance_set {outcome : Option Value} (taken : s.step (.advance i outcome) = some t) :
    ∃ old next, s.parties[i]? = some old ∧ t.parties = s.parties.set i next ∧ next.remaining < old.remaining := by
  simp only [State.step] at taken
  split at taken
  · next found _ =>
    cases taken
    exact ⟨_, _, found, rfl, by simp [Phase.remaining]⟩
  · next found _ =>
    cases taken
    exact ⟨_, _, found, rfl, by simp [Phase.remaining]⟩
  · next found =>
    cases taken
    exact ⟨_, _, found, rfl, by simp [Phase.remaining]⟩
  · next found =>
    cases taken
    exact ⟨_, _, found, rfl, by simp [Phase.remaining]⟩
  · next found =>
    cases taken
    exact ⟨_, _, found, rfl, by simp [Phase.remaining]⟩
  · next found =>
    cases taken
    exact ⟨_, _, found, rfl, by simp [Phase.remaining]⟩
  · next found =>
    cases taken
    exact ⟨_, _, found, rfl, by simp [Phase.remaining]⟩
  · cases taken

theorem advance_within {outcome : Option Value} (taken : s.step (.advance i outcome) = some t) :
    i < s.parties.length := by
  obtain ⟨_, _, found, _⟩ := advance_set taken
  exact (List.getElem?_eq_some_iff.1 found).1

theorem advance_length {outcome : Option Value} (taken : s.step (.advance i outcome) = some t) :
    t.parties.length = s.parties.length := by
  obtain ⟨_, next, _, same, _⟩ := advance_set taken
  rw [same, List.length_set]

def left (s : State Value) (i : Nat) : Nat := (s.parties[i]?.map Phase.remaining).getD 0

theorem left_le (s : State Value) (i : Nat) : s.left i ≤ 5 := by
  unfold left
  cases s.parties[i]? with
  | none => exact Nat.zero_le _
  | some phase => cases phase <;> simp [Phase.remaining]

theorem join_left (taken : s.step .join = some t) (within : i < s.parties.length) : t.left i = s.left i := by
  cases taken
  simp only [left, List.getElem?_append_left within]

theorem advance_left {outcome : Option Value} (taken : s.step (.advance i outcome) = some t) :
    t.left i < s.left i ∧ ∀ j, j ≠ i → t.left j = s.left j := by
  obtain ⟨old, next, found, same, less⟩ := advance_set taken
  have within := (List.getElem?_eq_some_iff.1 found).1
  constructor
  · rw [left, left, same, List.getElem?_set_self within, found]
    exact less
  · intro j other
    rw [left, left, same, List.getElem?_set_ne other.symm]

theorem can_advance (found : s.parties[i]? = some old) (unfinished : old.finished = false) (started : old ≠ .waiting)
    (outcome : Option Value) : (s.step (.advance i outcome)).isSome := by
  simp only [State.step, found]
  cases old with
  | waiting => exact absurd rfl started
  | running =>
    cases outcome with
    | none => rfl
    | some value => rfl
  | made value => rfl
  | stored => rfl
  | passed => rfl
  | read slot => cases unfinished
  | thrown => cases unfinished

/-- While a party is not finished, some party can take its next step, whatever the callable makes: where the first has
to wait, the one in the callable. -/
theorem Guarded.progress (g : s.Guarded) (found : s.parties[i]? = some old) (unfinished : old.finished = false)
    (outcome : Option Value) : ∃ j, (s.step (.advance j outcome)).isSome := by
  by_cases waits : old = .waiting
  · subst waits
    cases flag : s.flag with
    | idle => exact ⟨i, by simp [State.step, found, flag]⟩
    | done => exact ⟨i, by simp [State.step, found, flag]⟩
    | active j =>
      have meaning := g.meaning
      rw [flag] at meaning
      obtain ⟨phase, inside, holds⟩ := meaning
      refine ⟨j, can_advance inside ?_ ?_ outcome⟩
      · cases phase with
        | read slot => cases holds
        | thrown => cases holds
        | _ => rfl
      · intro waiting
        subst waiting
        cases holds
  · exact ⟨i, can_advance found unfinished waits outcome⟩

end State

end IpcBond.Library.Once
