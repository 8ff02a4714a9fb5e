import Mathlib.Data.List.Basic

/-! Programs with a state and exceptions, where an exception keeps the state it was thrown in.
The equations evaluate a program step by step; the inversions take a finished run apart. -/

namespace IpcBond.Library.StateExcept

variable {ε σ α β : Type}

@[simp] theorem run_pure (a : α) (s : σ) : (pure a : EStateM ε σ α) s = .ok a s := rfl

@[simp] theorem run_get (s : σ) : (get : EStateM ε σ σ) s = .ok s s := rfl

@[simp] theorem run_modify (f : σ → σ) (s : σ) : (modify f : EStateM ε σ PUnit) s = .ok ⟨⟩ (f s) := rfl

@[simp] theorem run_throw (e : ε) (s : σ) : (throw e : EStateM ε σ α) s = .error e s := rfl

@[simp] theorem run_map (f : α → β) (x : EStateM ε σ α) (s : σ) :
    (f <$> x) s = match x s with
      | .ok a t => .ok (f a) t
      | .error e t => .error e t := rfl

theorem run_bind (x : EStateM ε σ α) (f : α → EStateM ε σ β) (s : σ) :
    (x >>= f) s = match x s with
      | .ok a t => f a t
      | .error e t => .error e t := rfl

theorem run_tryCatch (x : EStateM ε σ α) (handle : ε → EStateM ε σ α) (s : σ) :
    (tryCatch x handle) s = match x s with
      | .ok a t => .ok a t
      | .error e t => handle e t := by
  simp only [tryCatch, tryCatchThe, MonadExceptOf.tryCatch, EStateM.tryCatch]
  cases x s <;> rfl

@[simp] theorem run_bind_of_ok {x : EStateM ε σ α} {f : α → EStateM ε σ β} {s t : σ} {a : α}
    (run : x s = .ok a t) : (x >>= f) s = f a t := by
  rw [run_bind, run]

@[simp] theorem run_bind_of_error {x : EStateM ε σ α} {f : α → EStateM ε σ β} {s t : σ} {e : ε}
    (run : x s = .error e t) : (x >>= f) s = .error e t := by
  rw [run_bind, run]

theorem bind_ok {x : EStateM ε σ α} {f : α → EStateM ε σ β} {s u : σ} {b : β} :
    (x >>= f) s = .ok b u ↔ ∃ a t, x s = .ok a t ∧ f a t = .ok b u := by
  rw [run_bind]
  cases x s with
  | ok a t => simp
  | error e t => simp

theorem bind_error {x : EStateM ε σ α} {f : α → EStateM ε σ β} {s u : σ} {e : ε} :
    (x >>= f) s = .error e u ↔ x s = .error e u ∨ ∃ a t, x s = .ok a t ∧ f a t = .error e u := by
  rw [run_bind]
  cases x s with
  | ok a t => simp
  | error e t => simp

def Keeps (holds : σ → Prop) (x : EStateM ε σ α) : Prop := ∀ s a t, holds s → x s = .ok a t → holds t

namespace Keeps

variable {holds : σ → Prop}

theorem bind {x : EStateM ε σ α} {f : α → EStateM ε σ β} (first : Keeps holds x) (rest : ∀ a, Keeps holds (f a)) :
    Keeps holds (x >>= f) := by
  intro s b u before run
  obtain ⟨a, t, start, next⟩ := bind_ok.1 run
  exact rest a t b u (first s a t before start) next

theorem pure (a : α) : Keeps holds (pure a : EStateM ε σ α) := by
  intro s b t before run
  cases run
  exact before

theorem throw (e : ε) : Keeps holds (throw e : EStateM ε σ α) := by
  intro s b t before run
  cases run

theorem get : Keeps holds (get : EStateM ε σ σ) := by
  intro s b t before run
  cases run
  exact before

theorem update {f : σ → σ} (keeps : ∀ s, holds s → holds (f s)) : Keeps holds (modify f : EStateM ε σ PUnit) := by
  intro s b t before run
  cases run
  exact keeps s before

end Keeps

def finalState : EStateM.Result ε σ α → σ
  | .ok _ t => t
  | .error _ t => t

def returns (test : α → Bool) : EStateM.Result ε σ α → Bool
  | .ok a _ => test a
  | .error _ _ => false

theorem exists_of_returns (test : α → Bool) {result : EStateM.Result ε σ α}
    (returned : returns test result) : ∃ a t, result = .ok a t ∧ test a := by
  cases result with
  | ok a t => exact ⟨a, t, rfl, returned⟩
  | error e t => cases returned

end IpcBond.Library.StateExcept
