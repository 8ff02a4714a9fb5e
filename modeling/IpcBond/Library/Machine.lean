import Mathlib.Data.List.Basic

/-! Machines that take one action after another, where an action may be impossible in a state. The runs
considered may be those whose actions all meet a condition where they are taken. -/

namespace IpcBond.Library.Machine

variable {State Action : Type*}

/-- The states of all runs from an initial state, each action of which is allowed where it is taken. -/
inductive Run (step : State → Action → Option State) (initial : State → Prop) (allowed : State → Action → Prop) :
    State → Prop where
  | initial {s : State} (start : initial s) : Run step initial allowed s
  | step {s t : State} {action : Action} (run : Run step initial allowed s) (permitted : allowed s action)
      (taken : step s action = some t) : Run step initial allowed t

def guarded (step : State → Action → Option State) (test : State → Action → Bool) (s : State) (action : Action) :
    Option State :=
  if test s action then step s action else none

namespace Run

variable {step : State → Action → Option State} {initial : State → Prop} {allowed : State → Action → Prop}

/-- What holds initially and is kept by every allowed action holds in all states of these runs. -/
theorem invariant {holds : State → Prop} (start : ∀ s, initial s → holds s)
    (keeps : ∀ s action t, holds s → allowed s action → step s action = some t → holds t) {s : State}
    (run : Run step initial allowed s) : holds s := by
  induction run with
  | initial first => exact start _ first
  | step _ permitted taken ih => exact keeps _ _ _ ih permitted taken

theorem mono {weaker : State → Action → Prop} (weakens : ∀ s action, allowed s action → weaker s action) {s : State}
    (run : Run step initial allowed s) : Run step initial weaker s := by
  induction run with
  | initial start => exact .initial start
  | step _ permitted taken ih => exact ih.step (weakens _ _ permitted) taken

theorem append (actions : List Action) {s t : State} (run : Run step initial allowed s)
    (permitted : ∀ s, ∀ action ∈ actions, allowed s action) (taken : actions.foldlM step s = some t) :
    Run step initial allowed t := by
  induction actions generalizing s with
  | nil =>
    cases taken
    exact run
  | cons action rest ih =>
    rw [List.foldlM_cons] at taken
    obtain ⟨next, first, others⟩ := Option.bind_eq_some_iff.1 taken
    exact ih (run.step (permitted s action List.mem_cons_self) first)
      (fun s other member => permitted s other (List.mem_cons_of_mem _ member)) others

theorem tested (actions : List Action) {test : State → Action → Bool} {s t : State}
    (run : Run step initial (fun s action => test s action) s) (taken : actions.foldlM (guarded step test) s = some t) :
    Run step initial (fun s action => test s action) t := by
  induction actions generalizing s with
  | nil =>
    cases taken
    exact run
  | cons action rest ih =>
    rw [List.foldlM_cons] at taken
    obtain ⟨next, first, others⟩ := Option.bind_eq_some_iff.1 taken
    unfold guarded at first
    split at first
    · next passed => exact ih (run.step passed first) others
    · cases first

end Run

end IpcBond.Library.Machine
