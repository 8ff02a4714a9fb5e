import Mathlib.Data.List.Basic

/-! Loops: a body that is repeated from one state to the next until it leaves with a result. A loop whose rounds
decrease a measure leaves, after at most as many rounds as the measure says. -/

namespace IpcBond.Library.Loop

variable {State Result : Type*}

/-- The loop is at its head in one state, and after `n` rounds in another. -/
inductive Rounds (body : State → State ⊕ Result) : Nat → State → State → Prop where
  | none (s : State) : Rounds body 0 s s
  | round {n : Nat} {s t u : State} (first : body s = .inl t) (rest : Rounds body n t u) : Rounds body (n + 1) s u

variable {body : State → State ⊕ Result} {holds : State → Prop}

theorem Rounds.invariant (keeps : ∀ s t, holds s → body s = .inl t → holds t) {n : Nat} {s t : State}
    (rounds : Rounds body n s t) (start : holds s) : holds t := by
  induction rounds with
  | none => exact start
  | round first _ ih => exact ih (keeps _ _ start first)

/-- A loop ends when every round keeps an invariant and decreases a measure. What is left of the measure in its last
state bounds the number of rounds before. -/
theorem exists_end (measure : State → Nat)
    (decreases : ∀ s t, holds s → body s = .inl t → holds t ∧ measure t < measure s) {s : State} (start : holds s) :
    ∃ n t result, Rounds body n s t ∧ body t = .inr result ∧ holds t ∧ n + measure t ≤ measure s := by
  induction left : measure s using Nat.strongRecOn generalizing s with
  | _ left' ih =>
    subst left
    cases outcome : body s with
    | inr result => exact ⟨0, s, result, .none s, outcome, start, Nat.le_of_eq (Nat.zero_add _)⟩
    | inl t =>
      obtain ⟨kept, less⟩ := decreases s t start outcome
      obtain ⟨n, u, result, rounds, leaves, holds', bound⟩ := ih (measure t) less kept rfl
      exact ⟨n + 1, u, result, .round outcome rounds, leaves, holds', by omega⟩

theorem Rounds.count_le (measure : State → Nat)
    (decreases : ∀ s t, holds s → body s = .inl t → holds t ∧ measure t < measure s) {n : Nat} {s t : State}
    (rounds : Rounds body n s t) (start : holds s) : n + measure t ≤ measure s := by
  induction rounds with
  | none => exact Nat.le_of_eq (Nat.zero_add _)
  | round first _ ih =>
    obtain ⟨kept, less⟩ := decreases _ _ start first
    have later := ih kept
    omega

end IpcBond.Library.Loop
