import Motmot.Proofs.Paxos.Returns
import Motmot.Proofs.System.Agreement

/-! No step keeps a process busy for ever, whatever has come of the session so far. -/

namespace Motmot

namespace System

variable {sys : System}

/-- A process reacts in the same way to an event that its session handles in the same way. -/
theorem react_congr {mid : System} {few many : Choice} {id : NodeId} {event : Event}
    (processes : mid.process = sys.process)
    (same : ∀ node, sys.Live id node → handle few.fuel { node with script := few.script } event =
      handle many.fuel { node with script := many.script } event) :
    mid.react few id event = mid.react many id event := by
  -- A process reacts by handling the event, if it is in a session.
  unfold react run
  dsimp only
  rw [processes]
  split
  · rename_i node up live
    rw [same node ⟨up, live⟩]
  · rfl

/-- A step depends on what it leaves open through the handler of its event only. -/
theorem step_congr {few many : Choice} (step : Step)
    (same : ∀ id event, sys.occasion step = some (id, event) → ∀ node, sys.Live id node →
      handle few.fuel { node with script := few.script } event =
        handle many.fuel { node with script := many.script } event) :
    sys.step few step = sys.step many step := by
  -- Step by step, the state in which a session reacts is the same with either choice.
  cases step with
  | client id call =>
    have reacts := react_congr rfl (same id _ rfl)
    simp only [System.step, reacts]
  | disconnect id => exact react_congr rfl (same id _ rfl)
  | tick id => exact react_congr rfl (same id _ rfl)
  | deliver channel second =>
    cases at_ : sys.channels[channel]? with
    | none => simp [System.step, deliver, at_]
    | some chan =>
      -- A message is taken from its channel first, whatever the choice.
      simp only [System.step, deliver, at_, Option.bind_eq_bind, Option.bind_some]
      split
      · rfl
      · split
        · rfl
        · rename_i msg rest first
          have what : sys.occasion (.deliver channel second) =
              some ((chan.atEnd second).owner, .message (peerOf channel second) msg) := by
            simp [occasion, at_, first]
          unfold receive
          dsimp only
          split
          · rfl
          · split
            · exact react_congr rfl (same _ _ what)
            · -- A process without a session takes a welcome, or ignores the message.
              rfl
  | complete attempt made =>
    cases at_ : sys.attempts[attempt]? with
    | none => simp [System.step, complete, at_]
    | some pending =>
      simp only [System.step, complete, at_, Option.bind_eq_bind, Option.bind_some]
      cases made with
      | false => exact react_congr rfl (same _ _ (by simp [occasion, at_]))
      | true =>
        -- The channel that is made changes no process.
        simp only [if_true]
        split
        · rfl
        · exact react_congr rfl (same _ _ (by simp [occasion, at_]))
  | eof channel second =>
    cases at_ : sys.channels[channel]? with
    | none => simp [System.step, eof, at_]
    | some chan =>
      simp only [System.step, eof, at_, Option.bind_eq_bind, Option.bind_some]
      split
      · rfl
      · split
        · rfl
        · split
          · rfl
          · exact react_congr rfl (same _ _ (by simp [occasion, at_]))
  -- No session handles anything in these steps.
  | start | cut | crash => rfl

end System

end Motmot
