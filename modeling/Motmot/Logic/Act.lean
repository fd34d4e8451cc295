import Mathlib.Logic.Basic

/-! Actions that write a state and may raise an exception, and what they keep of that state. -/

/-- A computation on a state that may raise an exception, after which its writes stand. -/
def Act (ε σ α : Type) := σ → Except ε α × σ

namespace Act

variable {ε σ α β : Type}

/-- Ends with a value. -/
def ret (a : α) : Act ε σ α := fun state => (.ok a, state)

/-- Raises an exception. -/
def raise (e : ε) : Act ε σ α := fun state => (.error e, state)

/-- Reads the state. -/
def read : Act ε σ σ := fun state => (.ok state, state)

/-- Rewrites the state. -/
def write (change : σ → σ) : Act ε σ Unit := fun state => (.ok (), change state)

/-- Runs two actions one after the other, the second unless the first has raised an exception. -/
def seq (act : Act ε σ α) (next : α → Act ε σ β) : Act ε σ β := fun state =>
  match act state with
  | (.ok a, mid) => next a mid
  | (.error e, mid) => (.error e, mid)

instance : Monad (Act ε σ) where
  pure := ret
  bind := seq

/-- Raises the exception of a computation that failed. -/
def ofExcept : Except ε α → Act ε σ α
  | .ok a => ret a
  | .error e => raise e

/-- The value or the exception that an action ends with. -/
def result (act : Act ε σ α) (state : σ) : Except ε α := (act state).1

/-- The state that an action ends in. -/
def after (act : Act ε σ α) (state : σ) : σ := (act state).2

@[simp] theorem run_pure (a : α) (state : σ) :
    (pure a : Act ε σ α) state = (.ok a, state) := rfl

@[simp] theorem run_raise (e : ε) (state : σ) :
    (raise e : Act ε σ α) state = (.error e, state) := rfl

@[simp] theorem run_read (state : σ) : (read : Act ε σ σ) state = (.ok state, state) := rfl

@[simp] theorem run_write (change : σ → σ) (state : σ) :
    (write change : Act ε σ Unit) state = (.ok (), change state) := rfl

/-- A composition whose first part returns goes on with the second from where it is. -/
theorem run_bind_ok {act : Act ε σ α} {next : α → Act ε σ β} {state mid : σ} {a : α}
    (returned : act state = (.ok a, mid)) : (act >>= next) state = next a mid := by
  show seq act next state = next a mid
  simp [seq, returned]

/-- A composition whose first part raises an exception ends there. -/
theorem run_bind_error {act : Act ε σ α} {next : α → Act ε σ β} {state mid : σ} {e : ε}
    (raised : act state = (.error e, mid)) : (act >>= next) state = (.error e, mid) := by
  show seq act next state = (.error e, mid)
  simp [seq, raised]

@[simp] theorem ofExcept_ok (a : α) : (ofExcept (.ok a) : Act ε σ α) = pure a := rfl

@[simp] theorem ofExcept_error (e : ε) : (ofExcept (.error e) : Act ε σ α) = raise e := rfl

theorem bind_pure_left {a : α} {next : α → Act ε σ β} : (pure a >>= next) = next a :=
  funext fun _ => run_bind_ok rfl

theorem bind_raise {e : ε} {next : α → Act ε σ β} :
    ((raise e : Act ε σ α) >>= next) = raise e :=
  funext fun _ => run_bind_error rfl

/-- A composition returns what its second part returns behind what its first part returns. -/
theorem result_bind_eq_ok {act : Act ε σ α} {next : α → Act ε σ β} {state : σ} {b : β} :
    result (act >>= next) state = .ok b ↔
      ∃ a, result act state = .ok a ∧ result (next a) (after act state) = .ok b := by
  -- The first part runs once; what it returns decides whether the second one is run.
  cases ran : act state with
  | mk out reached =>
    unfold result after
    cases out with
    | ok a => simp [run_bind_ok ran, ran]
    | error e => simp [run_bind_error ran, ran]

/-- An action keeps an invariant, whether it returns or not, and what it returns is good. -/
def Keeps (inv : σ → Prop) (act : Act ε σ α) (good : α → Prop) : Prop :=
  ∀ state, inv state → inv (after act state) ∧ ∀ a, result act state = .ok a → good a

variable {inv : σ → Prop}

theorem Keeps.pure {good : α → Prop} {a : α} (fine : good a) :
    Keeps inv (Pure.pure a : Act ε σ α) good := by
  intro state holds
  refine ⟨holds, ?_⟩
  intro b returned
  cases returned
  exact fine

theorem Keeps.raise {good : α → Prop} {e : ε} :
    Keeps inv (Act.raise e : Act ε σ α) good := by
  intro state holds
  refine ⟨holds, ?_⟩
  intro b returned
  cases returned

/-- The state that is read satisfies the invariant. -/
theorem Keeps.read : Keeps inv (Act.read : Act ε σ σ) inv := by
  intro state holds
  refine ⟨holds, ?_⟩
  intro seen returned
  cases returned
  exact holds

theorem Keeps.write {change : σ → σ} {good : Unit → Prop} (fine : good ())
    (kept : ∀ state, inv state → inv (change state)) :
    Keeps inv (Act.write change : Act ε σ Unit) good := by
  intro state holds
  exact ⟨kept state holds, fun _ _ => fine⟩

theorem Keeps.ofExcept {good : α → Prop} {value : Except ε α}
    (fine : ∀ a, value = .ok a → good a) :
    Keeps inv (Act.ofExcept value : Act ε σ α) good := by
  cases value with
  | ok a => exact .pure (fine a rfl)
  | error e => exact .raise

/-- The second part of a composition may use what the first is known to return. -/
theorem Keeps.bind {mid : α → Prop} {good : β → Prop} {act : Act ε σ α}
    {next : α → Act ε σ β} (first : Keeps inv act mid)
    (then_ : ∀ a, mid a → Keeps inv (next a) good) : Keeps inv (act >>= next) good := by
  intro state holds
  obtain ⟨kept, fine⟩ := first state holds
  -- Either the first part raises, and the rest is not run, or it returns what the rest may use.
  cases ran : act state with
  | mk out reached =>
    have reached_eq : after act state = reached := by simp [after, ran]
    rw [reached_eq] at kept
    cases out with
    | ok a =>
      have returned : result act state = .ok a := by simp [result, ran]
      have rest := then_ a (fine a returned) reached kept
      unfold after result at rest ⊢
      rwa [run_bind_ok ran]
    | error e =>
      unfold after result
      rw [run_bind_error ran]
      refine ⟨kept, ?_⟩
      intro b impossible
      cases impossible

/-- A composition keeps what both of its parts keep. -/
theorem Keeps.andThen {good : β → Prop} {act : Act ε σ α} {next : α → Act ε σ β}
    (first : Keeps inv act fun _ => True) (rest : ∀ a, Keeps inv (next a) good) :
    Keeps inv (act >>= next) good :=
  first.bind fun a _ => rest a

theorem Keeps.ite {good : α → Prop} {cond : Prop} [Decidable cond] {left right : Act ε σ α}
    (yes : cond → Keeps inv left good) (no : ¬ cond → Keeps inv right good) :
    Keeps inv (if cond then left else right) good := by
  split
  · apply yes
    assumption
  · apply no
    assumption

/-- What is known of a value that is returned can be weakened. -/
theorem Keeps.weaken {strong good : α → Prop} {act : Act ε σ α} (keeps : Keeps inv act strong)
    (weaker : ∀ a, strong a → good a) : Keeps inv act good := by
  intro state holds
  obtain ⟨kept, fine⟩ := keeps state holds
  exact ⟨kept, fun a returned => weaker a (fine a returned)⟩

/-- A composition whose first part raises an exception keeps anything. -/
theorem Keeps.raised {good : β → Prop} {e : ε} {next : α → Act ε σ β} :
    Keeps inv (Act.raise e >>= next) good := by
  intro state holds
  refine ⟨holds, ?_⟩
  intro b impossible
  cases impossible

/-- What holds after the first part of a composition holds after all of it if the rest keeps it. -/
theorem after_bind {act : Act ε σ α} {next : α → Act ε σ β} {state : σ}
    (first : inv (after act state)) (rest : ∀ a, Keeps inv (next a) fun _ => True) :
    inv (after (act >>= next) state) := by
  -- A part that raises is the whole composition.
  cases ran : act state with
  | mk out reached =>
    have reached_eq : after act state = reached := by simp [after, ran]
    rw [reached_eq] at first
    cases out with
    | ok a =>
      have kept := (rest a reached first).1
      unfold after at kept ⊢
      rwa [run_bind_ok ran]
    | error e =>
      unfold after
      rwa [run_bind_error ran]

theorem Keeps.look : Keeps inv (Act.read : Act ε σ σ) fun _ => True := by
  intro state holds
  exact ⟨holds, fun _ _ => trivial⟩

end Act
