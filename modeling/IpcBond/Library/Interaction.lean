import IpcBond.Library.StateExcept

/-! Programs that put one question after another to their surroundings, where what is asked next may depend on the
answers so far. A handler answers the questions in some monad; where one handler keeps up with another, every
program comes to the same result over both. -/

namespace IpcBond.Library.Interaction
open StateExcept

/-- A program is done, or asks a question and goes on with the answer. -/
inductive Program (Question : Type) (Answer : Question → Type) (α : Type) where
  | done (value : α)
  | ask (question : Question) (next : Answer question → Program Question Answer α)

namespace Program

variable {Question : Type} {Answer : Question → Type} {α : Type}

def run {m : Type → Type} [Monad m] (handle : (question : Question) → m (Answer question)) :
    Program Question Answer α → m α
  | done value => pure value
  | ask question next => do (next (← handle question)).run handle

section Simulation

variable {S T ε : Type} {answer : (question : Question) → StateT T Option (Answer question)}
  {handle : (question : Question) → EStateM ε S (Answer question)}

theorem run_ask_some {question : Question} {next : Answer question → Program Question Answer α} {t : T}
    {value : α} {last : T} (run : (ask question next).run answer t = some (value, last)) :
    ∃ reply t', answer question t = some (reply, t') ∧ (next reply).run answer t' = some (value, last) := by
  obtain ⟨⟨reply, t'⟩, answered, rest⟩ := Option.bind_eq_some_iff.1 run
  exact ⟨reply, t', answered, rest⟩

theorem run_ask_ok {question : Question} {next : Answer question → Program Question Answer α} {s s' : S}
    {reply : Answer question} (handled : handle question s = .ok reply s') :
    (ask question next).run handle s = (next reply).run handle s' :=
  run_bind_of_ok handled

/-- One handler keeps up with the other at every question, so it does over a whole program. -/
theorem run_simulates (related : T → S → Prop)
    (keeps : ∀ question t s reply t', related t s → answer question t = some (reply, t') →
      ∃ s', handle question s = .ok reply s' ∧ related t' s')
    (program : Program Question Answer α) {t : T} {s : S} {value : α} {last : T} (start : related t s)
    (run : program.run answer t = some (value, last)) :
    ∃ s', program.run handle s = .ok value s' ∧ related last s' := by
  induction program generalizing t s with
  | done result =>
    cases run
    exact ⟨s, rfl, start⟩
  | ask question next ih =>
    obtain ⟨reply, t', answered, rest⟩ := run_ask_some run
    obtain ⟨s', handled, later⟩ := keeps question t s reply t' start answered
    obtain ⟨final, runs, atLast⟩ := ih reply later rest
    exact ⟨final, (run_ask_ok handled).trans runs, atLast⟩

end Simulation

end Program

end IpcBond.Library.Interaction
