import Mathlib.Logic.Basic

/-! Outcomes of handlers that may stop the program partway, and rules for reasoning about them. -/

/-- A run of a handler: it returns with a state, or stops for a reason in some state. -/
inductive Outcome (ε σ : Type) where
  | ok (state : σ)
  | stop (reason : ε) (state : σ)
  deriving DecidableEq, Repr

namespace Outcome

variable {ε σ : Type}

/-- Continues with the next handler unless the program has stopped. -/
def andThen (out : Outcome ε σ) (next : σ → Outcome ε σ) : Outcome ε σ :=
  match out with
  | ok state => next state
  | stop reason state => stop reason state

/-- The state reached, whether or not the program stopped there. -/
def state : Outcome ε σ → σ
  | ok state => state
  | stop _ state => state

@[simp] theorem andThen_ok (state : σ) (next : σ → Outcome ε σ) :
    (ok state).andThen next = next state := rfl

@[simp] theorem andThen_stop (reason : ε) (state : σ) (next : σ → Outcome ε σ) :
    (stop reason state).andThen next = stop reason state := rfl

@[simp] theorem state_ok (state : σ) : (ok state : Outcome ε σ).state = state := rfl

@[simp] theorem state_stop (reason : ε) (state : σ) :
    (stop reason state : Outcome ε σ).state = state := rfl

/-- A composition returns exactly when both parts do. -/
theorem andThen_eq_ok {out : Outcome ε σ} {next : σ → Outcome ε σ} {last : σ} :
    out.andThen next = ok last ↔ ∃ mid, out = ok mid ∧ next mid = ok last := by
  cases out <;> simp

end Outcome
