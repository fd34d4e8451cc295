import Motmot.System.Network

/-! Runs of the system written as cues, where not every delivery has to be named. -/

namespace Motmot

namespace System

/-- Whether an end has a message that can be handled there. -/
def ready (sys : System) (near : End) : Bool :=
  near.watched && !near.closed && !near.inbox.isEmpty && !(sys.process near.owner).crashed

/-- The delivery at the first channel that has one, its far end first. -/
def delivery (sys : System) : Option Step :=
  (List.range sys.channels.length).findSome? fun channel =>
    (sys.channels[channel]?).bind fun chan =>
      if sys.ready chan.fst then some (.deliver channel false)
      else if sys.ready chan.snd then some (.deliver channel true)
      else none

/-- A delivery, or else the oldest connection attempt, which makes a channel. -/
def progress (sys : System) : Option Step :=
  match sys.delivery with
  | some step => some step
  | none => if sys.attempts.isEmpty then none else some (.complete 0 true)

/-- Takes the steps that a rule picks, until it picks none. -/
def exhaust (choice : Choice) (pick : System → Option Step) : Nat → System → System
  | 0, sys => sys
  | fuel + 1, sys =>
    match (pick sys).bind (sys.step choice) with
    | some next => exhaust choice pick fuel next
    | none => sys

/-- One cue of a schedule. -/
inductive Cue where
  | steps (steps : List Step)
  /-- Everything on its way is handled. -/
  | drain
  /-- Everything on its way is handled, and every attempt is completed. -/
  | settle
  deriving DecidableEq, Repr

/-- What the cues of a schedule leave open: no client calls from callbacks, and small bounds. -/
def quiet : Choice := { fuel := 20, script := [] }

/-- Follows one cue. -/
def follow (sys : System) : Cue → Option System
  | .steps steps => sys.exec quiet steps
  | .drain => some (sys.exhaust quiet delivery 100)
  | .settle => some (sys.exhaust quiet progress 100)

/-- Follows a schedule. -/
def play : System → List Cue → Option System
  | sys, [] => some sys
  | sys, cue :: cues => (sys.follow cue).bind fun sys => sys.play cues

/-- Invites newcomers one after the other, and lets each get to know everybody. -/
def gather (id : NodeId) : List NodeId → List Cue
  | [] => []
  | newcomer :: rest =>
    .steps [.client id { dkind := .join, data := newcomer }] :: .settle :: gather id rest

/-- A session of some nodes, the first of which starts it and invites the others. -/
def assemble : List NodeId → List Cue
  | [] => []
  | id :: others => .steps [.start id 7] :: gather id others

variable {sys next : System}

/-- What a rule picks leads to reachable states. -/
theorem Reachable.exhaust {choice : Choice} {pick : System → Option Step} (fuel : Nat)
    (reachable : Reachable sys) : Reachable (sys.exhaust choice pick fuel) := by
  -- By induction on the rounds, which end where the rule picks nothing.
  induction fuel generalizing sys with
  | zero => exact reachable
  | succ fuel ih =>
    unfold System.exhaust
    cases taken : (pick sys).bind (sys.step choice) with
    | none => exact reachable
    | some next =>
      obtain ⟨step, -, stepped⟩ := Option.bind_eq_some_iff.mp taken
      exact ih (.step choice step reachable stepped)

/-- Steps lead to reachable states. -/
theorem Reachable.exec {choice : Choice} {steps : List Step} (reachable : Reachable sys)
    (done : sys.exec choice steps = some next) : Reachable next := by
  -- By induction on the steps.
  induction steps generalizing sys with
  | nil =>
    obtain rfl := Option.some.inj done
    exact reachable
  | cons step steps ih =>
    obtain ⟨mid, stepped, rest⟩ := Option.bind_eq_some_iff.mp done
    exact ih (.step choice step reachable stepped) rest

/-- A cue leads to reachable states. -/
theorem Reachable.follow {cue : Cue} (reachable : Reachable sys)
    (followed : sys.follow cue = some next) : Reachable next := by
  -- A cue is a list of steps, or a rule that is played out.
  cases cue with
  | steps => exact reachable.exec followed
  | drain =>
    obtain rfl := Option.some.inj followed
    exact reachable.exhaust 100
  | settle =>
    obtain rfl := Option.some.inj followed
    exact reachable.exhaust 100

/-- A schedule leads to reachable states. -/
theorem Reachable.play {cues : List Cue} (reachable : Reachable sys)
    (played : sys.play cues = some next) : Reachable next := by
  -- By induction on the cues.
  induction cues generalizing sys with
  | nil =>
    obtain rfl := Option.some.inj played
    exact reachable
  | cons cue cues ih =>
    obtain ⟨mid, followed, rest⟩ := Option.bind_eq_some_iff.mp played
    exact ih (reachable.follow followed) rest

/-- What holds at the end of a schedule holds of a reachable state. -/
theorem exists_played {p : System → Prop} [DecidablePred p] (cues : List Cue)
    (ends : (init.play cues).any (fun sys => decide (p sys)) = true) :
    ∃ sys, Reachable sys ∧ p sys := by
  obtain ⟨sys, played, holds⟩ := (Option.any_eq_true _ _).mp ends
  exact ⟨sys, Reachable.init.play played, of_decide_eq_true holds⟩

end System

end Motmot
