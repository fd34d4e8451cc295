import Motmot.Logic.Outcome

/-!
Handlers that take a bound on their steps, and stop for a reason of its own when it runs out.

A larger bound gets a handler further, but changes nothing once the handler has come to its end.
-/

namespace Outcome

variable {ε σ : Type} {stuck : ε} {first last : Outcome ε σ}

/-- A run that has come to its end, by a return or by any stop other than that of the bound. -/
def Settles (stuck : ε) (out : Outcome ε σ) : Prop := ∀ state, out ≠ stop stuck state

namespace Settles

/-- A return is an end. -/
@[simp] theorem ok (state : σ) : Settles stuck (ok state : Outcome ε σ) := nofun

/-- So is any stop but that of the bound. -/
theorem stop {reason : ε} (other : reason ≠ stuck) (state : σ) :
    Settles stuck (stop reason state) := by
  intro halted same
  exact other (stop.inj same).1

/-- Runs that go on from one another come to their end if both do. -/
theorem andThen {next : σ → Outcome ε σ} (early : Settles stuck first)
    (late : ∀ state, Settles stuck (next state)) : Settles stuck (first.andThen next) := by
  cases first with
  | ok state => exact late state
  | stop reason halted =>
    intro state same
    exact early halted (congrArg (Outcome.stop · halted) (stop.inj same).1)

end Settles

/-- Two runs of which the first may have run out of steps, and which are the same otherwise. -/
def Approximates (stuck : ε) (first last : Outcome ε σ) : Prop :=
  Settles stuck first → last = first

namespace Approximates

/-- A run that takes no bound is the same with any. -/
theorem same (out : Outcome ε σ) : Approximates stuck out out := fun _ => rfl

/-- A run that has run out of steps may go on in any way. -/
theorem bounded (reason : ε) (state : σ) (last : Outcome ε σ) :
    Approximates reason (stop reason state) last :=
  fun settles => absurd rfl (settles state)

/-- Runs that go on from one another get further if both parts do. -/
theorem andThen {next more : σ → Outcome ε σ} (early : Approximates stuck first last)
    (late : ∀ state, Approximates stuck (next state) (more state)) :
    Approximates stuck (first.andThen next) (last.andThen more) := by
  cases first with
  | ok state =>
    have same : last = ok state := early (.ok state)
    rw [same]
    exact late state
  | stop reason state =>
    intro settles
    -- The first part has stopped for the reason that the whole has.
    have same : last = stop reason state := early settles
    rw [same]
    rfl

end Approximates

/-- A handler that comes to its end from some bound on, in one way. -/
def Returns (stuck : ε) (handler : Nat → Outcome ε σ) : Prop :=
  ∃ enough out, Settles stuck out ∧ ∀ fuel, enough ≤ fuel → handler fuel = out

/-- A handler that a larger bound gets further returns if any bound is enough for it. -/
theorem returns_of_settles {handler : Nat → Outcome ε σ} {enough : Nat}
    (further : ∀ fuel more, fuel ≤ more → Approximates stuck (handler fuel) (handler more))
    (settles : Settles stuck (handler enough)) : Returns stuck handler :=
  ⟨enough, handler enough, settles, fun fuel le => further enough fuel le settles⟩

end Outcome
