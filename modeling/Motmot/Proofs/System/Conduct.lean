import Motmot.Proofs.System.Turns
import Motmot.System.Schedule

/-!
Runs of the system whose steps meet a condition.

What every session keeps as long as its messages are good, and what makes all its messages good in
turn, holds of every session of such a run.
-/

namespace Motmot

/-- The message that a welcome came in. -/
def Welcome.msg (welcome : Welcome) : Msg :=
  { hdr := welcome.hdr
    body := .welcome welcome.session welcome.ibase welcome.alist welcome.ilist }

namespace System

/-- The states that allowed steps lead to from a given state. -/
inductive Conducts (allowed : System → Step → Prop) (first : System) : System → Prop where
  | refl : Conducts allowed first first
  | step {sys next : System} {choice : Choice} {step : Step} (run : Conducts allowed first sys)
      (ok : allowed sys step) (stepped : sys.step choice step = some next) :
      Conducts allowed first next

/-- Steps that hand a session only events that meet a condition. -/
def Each (meets : Session → Event → Prop) (sys : System) (step : Step) : Prop :=
  ∀ id event, sys.occasion step = some (id, event) → ∀ node, (sys.process id).node = some node →
    meets node.pax event

/-- What a session keeps, and the messages that it may rely on and sends itself. -/
structure Upholds (meets : Session → Event → Prop) (inv : Node → Prop) (good : Msg → Prop) :
    Prop where
  wellFormed : ∀ {node}, inv node → node.pax.ilist.WellFormed
  starts : ∀ session id, inv (paxosStart session id)
  sound : ∀ {msg}, good msg → msg.Sound
  greets : ∀ welcome : Welcome, welcome.hdr.opcode = .welcome → good welcome.msg →
    inv welcome.node
  keeps : ∀ {node event next}, inv node → meets node.pax event →
    (∀ source msg, event = .message source msg → good msg) → Handles node event (.ok next) →
      inv next
  sends : ∀ {node event result}, inv node → meets node.pax event →
    (∀ source msg, event = .message source msg → good msg) → Handles node event result →
      ∀ peer msg, .send peer msg ∈ fresh node result → good msg

variable {meets : Session → Event → Prop} {inv : Node → Prop} {good : Msg → Prop} {sys : System}

/-- All live sessions and all messages of a state are as they should be. -/
structure Upheld (inv : Node → Prop) (good : Msg → Prop) (sys : System) : Prop where
  live : ∀ id node, (sys.process id).crashed = false → (sys.process id).node = some node →
    inv node
  waiting : ∀ channel second msg, sys.Waits channel second msg → good msg

/-- A message that a process is handed was waiting. -/
theorem Upheld.arrived {next : System} {id : NodeId} {event : Event} {source : PeerId} {msg : Msg}
    (upheld : Upheld inv good sys) (arrives : Arrives sys next id event)
    (asked : event = .message source msg) : good msg := by
  subst asked
  obtain ⟨channel, second, -, -, waits⟩ := arrives
  exact upheld.waiting channel second msg waits

/-- The messages stay good when only good ones are sent. -/
theorem Upheld.grow {next : System} {sent : List Effect} (upheld : Upheld inv good sys)
    (grows : Grows sys next sent) (sends : ∀ peer msg, .send peer msg ∈ sent → good msg) :
    ∀ channel second msg, next.Waits channel second msg → good msg := by
  intro channel second msg waits
  rcases grows.waits waits with before | sent
  · exact upheld.waiting channel second msg before
  · exact sends _ _ sent

/-- A step that meets the condition keeps everything as it should be. -/
theorem Upholds.step {next : System} {choice : Choice} {step : Step}
    (upholds : Upholds meets inv good) (upheld : Upheld inv good sys) (ok : Each meets sys step)
    (stepped : sys.step choice step = some next) : Upheld inv good next := by
  -- A step touches the process that it is about, and what is in flight.
  have turn := step_turn stepped
  generalize what : sys.occasion step = occasion at turn
  cases turn with
  | idle nodes past lives started grows =>
    constructor
    · intro id node up live
      obtain ⟨up, live⟩ := Live.idle nodes lives ⟨up, live⟩
      exact upheld.live id node up live
    · exact upheld.grow grows fun _ _ sent => absurd sent List.not_mem_nil
  -- A session that is started upholds what it must from the start.
  | @start id session gone once made others started grows =>
    constructor
    · intro other node up live
      rcases Live.entered made others ⟨up, live⟩ with ⟨-, up, live⟩ | ⟨-, rfl⟩
      · exact upheld.live other node up live
      · exact upholds.starts session id
    · exact upheld.grow grows fun _ _ sent => absurd sent List.not_mem_nil
  -- A newcomer upholds it because its welcome does.
  | @greet id source hdr session ibase alist ilist opcode gone arrives made others started grows =>
    have welcomed := upheld.arrived arrives rfl
    let welcome : Welcome :=
      { source := source, hdr := hdr, session := session, ibase := ibase, alist := alist
        ilist := ilist
        ascending := (upholds.sound welcomed).welcome session ibase alist ilist opcode rfl }
    constructor
    · intro other node up live
      rcases Live.entered made others ⟨up, live⟩ with ⟨-, up, live⟩ | ⟨-, rfl⟩
      · exact upheld.live other node up live
      · exact upholds.greets welcome opcode welcomed
    · -- A newcomer sends nothing yet.
      refine upheld.grow grows fun peer msg sent => ?_
      rcases acceptorAckWelcome_out _ sent with told | ⟨_, _, told⟩ <;> cases told
  -- A handler keeps it, since the event does and the condition is met.
  | @handle id event node result up live arrives handles made others started grows =>
    have met := ok id event what node live
    have arrived := fun source msg asked => @Upheld.arrived inv good sys next id event source msg
      upheld arrives asked
    have held := upheld.live id node up live
    constructor
    · intro other after up live
      rcases Live.handled made others ⟨up, live⟩ with ⟨-, up, live⟩ | ⟨-, rfl⟩
      · exact upheld.live other after up live
      · exact upholds.keeps held met arrived handles
    · exact upheld.grow grows (upholds.sends held met arrived handles)

/-- In a run whose steps meet the condition everything stays as it should be. -/
theorem Upholds.run (upholds : Upholds meets inv good) {first : System}
    (upheld : Upheld inv good first) (run : Conducts (Each meets) first sys) :
    Upheld inv good sys := by
  induction run with
  | refl => exact upheld
  | step _ ok stepped ih => exact upholds.step ih ok stepped

/-- Before anything has happened there is nothing to keep. -/
theorem Upheld.init (inv : Node → Prop) (good : Msg → Prop) : Upheld inv good System.init where
  live := by
    -- Nobody is live, and nothing waits on any channel.
    intro id node up live
    contradiction
  waiting := by
    rintro channel second msg ⟨chan, at_, -⟩
    contradiction

/-- Sessions keep their logs in order, whatever happens. -/
theorem sound_upholds :
    Upholds (fun _ _ => True) (fun node => node.pax.ilist.WellFormed) Msg.Sound where
  wellFormed := id
  starts := fun session id => (Begins.start session id : Begins (fun _ => True) _ _).wellFormed
  sound := id
  greets := fun welcome _ _ => welcome.wellFormed
  keeps := fun wf _ _ handles => handles.wellFormed wf
  sends := by
    intro node event result wf _ _ handles peer msg sent
    -- Whatever a handler sends it tells, for it teaches nothing over channels.
    obtain ⟨script, config, whole, -, ⟨_, _, -, tells⟩ | teaches⟩ :=
      @Handles.tells _ _ _ (fun _ => True) handles wf (fun _ => trivial)
        (fun _ _ _ => trivial) _ sent
    · exact tells.sound wf whole
    · contradiction

/-- Runs under a condition are runs under a weaker one. -/
theorem Conducts.weaken {allowed other : System → Step → Prop} {first : System}
    (run : Conducts allowed first sys) (weaker : ∀ sys step, allowed sys step → other sys step) :
    Conducts other first sys := by
  induction run with
  | refl => exact .refl
  | step _ ok stepped ih => exact .step ih (weaker _ _ ok) stepped

/-- Logs are in order throughout any run. -/
theorem Conducts.sound {allowed : System → Step → Prop} (run : Conducts allowed init sys) :
    Upheld (fun node => node.pax.ilist.WellFormed) Msg.Sound sys :=
  sound_upholds.run (.init _ _) (run.weaken fun _ _ _ _ _ _ _ _ => trivial)

/-- A run may go on with another one. -/
theorem Conducts.trans {allowed : System → Step → Prop} {first last : System}
    (run : Conducts allowed first sys) (more : Conducts allowed sys last) :
    Conducts allowed first last := by
  induction more with
  | refl => exact run
  | step _ ok stepped ih => exact .step ih ok stepped

/-- A welcome that was on its way in the course of a run. -/
def Greeted (sys : System) (welcome : Welcome) : Prop :=
  welcome.hdr.opcode = .welcome ∧ ∃ mid channel second, Conducts (fun _ _ => True) init mid ∧
    Conducts (fun _ _ => True) mid sys ∧ mid.Waits channel second welcome.msg

/-- What a session began with earlier it has begun with later as well. -/
theorem begins_later {next : System} {choice : Choice} {step : Step} {begun : Node} {first : Nat}
    (begins : Motmot.Begins sys.Greeted begun first) (stepped : sys.step choice step = some next) :
    Motmot.Begins next.Greeted begun first := by
  -- The welcome was sent in a state that is still in the past of the later one.
  cases begins with
  | start session desc => exact .start session desc
  | welcome welcome fit =>
    obtain ⟨opcode, mid, channel, second, before, after, waits⟩ := fit
    exact .welcome welcome
      ⟨opcode, mid, channel, second, before, .step after trivial stepped, waits⟩

/-- Every live session has begun with a start or a welcome, and has gone on from there. -/
theorem Conducts.begun {allowed : System → Step → Prop} (run : Conducts allowed init sys)
    {id : NodeId} {node : Node} (up : (sys.process id).crashed = false)
    (live : (sys.process id).node = some node) : ∃ begun first,
      Motmot.Begins sys.Greeted begun first ∧ Runs (fun _ _ => True) begun node := by
  -- By induction on the run.
  induction run generalizing id node with
  | refl => contradiction
  | @step sys next choice step run _ stepped ih =>
    have later : ∀ {id node}, (sys.process id).crashed = false →
        (sys.process id).node = some node → ∃ begun first,
          Motmot.Begins next.Greeted begun first ∧ Runs (fun _ _ => True) begun node := by
      intro id node up live
      obtain ⟨begun, first, begins, goes⟩ := ih up live
      exact ⟨begun, first, begins_later begins stepped, goes⟩
    have turn := step_turn stepped
    generalize sys.occasion step = occasion at turn
    cases turn with
    | idle nodes past lives => exact later (lives id up) ((nodes id).symm.trans live)
    | @start entrant session gone once made others =>
      -- Whoever has entered begins here, and everybody else goes on.
      rcases Live.entered made others ⟨up, live⟩ with ⟨-, up, live⟩ | ⟨-, rfl⟩
      · exact later up live
      · exact ⟨_, 2, .start session entrant, .refl⟩
    -- The welcome has been sent in the run, so it is sound.
    | @greet entrant source hdr session ibase alist ilist opcode gone arrives made others =>
      rcases Live.entered made others ⟨up, live⟩ with ⟨-, up, live⟩ | ⟨-, rfl⟩
      · exact later up live
      · obtain ⟨channel, second, -, -, waits⟩ := arrives
        let welcome : Welcome :=
          { source := source, hdr := hdr, session := session, ibase := ibase, alist := alist
            ilist := ilist
            ascending := (run.sound.waiting channel second _ waits).welcome session ibase alist
              ilist opcode rfl }
        have whole : Conducts (fun _ _ => True) init sys := run.weaken fun _ _ _ => trivial
        exact ⟨_, _, .welcome welcome ⟨opcode, sys, channel, second, whole,
          .step .refl trivial stepped, waits⟩, .refl⟩
    | @handle actor event before result held present arrives handles made others =>
      rcases Live.handled made others ⟨up, live⟩ with ⟨-, up, live⟩ | ⟨-, rfl⟩
      · exact later up live
      · -- The session goes on from where it was.
        obtain ⟨begun, first, begins, goes⟩ := later held present
        exact ⟨begun, first, begins, goes.step trivial handles⟩

/-- Before the session is started, nobody is in it and nothing is on its way. -/
theorem Conducts.unborn {allowed : System → Step → Prop} (run : Conducts allowed init sys)
    (unstarted : sys.started = false) :
    (∀ id, (sys.process id).node = none ∧ (sys.process id).past = []) ∧
      ∀ channel second msg, ¬ sys.Waits channel second msg := by
  -- By induction on the run: nothing happens before the start.
  induction run with
  | refl =>
    refine ⟨fun _ => ⟨rfl, rfl⟩, ?_⟩
    rintro channel second msg ⟨chan, at_, -⟩
    contradiction
  | @step sys next choice step _ _ stepped ih =>
    have turn := step_turn stepped
    generalize sys.occasion step = occasion at turn
    cases turn with
    | idle nodes past _ started grows =>
      obtain ⟨nobody, nothing⟩ := ih (started.symm.trans unstarted)
      constructor
      · intro id
        rw [nodes, past]
        exact nobody id
      · intro channel second msg waits
        rcases grows.waits waits with before | sent
        · exact nothing channel second msg before
        · contradiction
    | start _ _ _ _ started =>
      rw [started] at unstarted
      contradiction
    -- A welcome would have been on its way.
    | greet _ _ arrives _ _ started =>
      obtain ⟨-, nothing⟩ := ih (started.symm.trans unstarted)
      obtain ⟨channel, second, -, -, waits⟩ := arrives
      exact absurd waits (nothing channel second _)
    -- Nobody is there to handle anything.
    | handle _ live _ _ _ _ started =>
      obtain ⟨nobody, -⟩ := ih (started.symm.trans unstarted)
      rw [(nobody _).1] at live
      contradiction

/-- The history of a process is that of its sessions. -/
theorem history_eq (process : Process) : process.history = process.sessions.flatten := by
  rw [Process.history, Process.sessions, List.flatten_append]
  cases process.node <;> simp

/-- What a handler does is added to the session that its process is in. -/
theorem sessions_after {process : Process} {node : Node} {event : Event} {result : Result}
    (handles : Handles node event result) (wf : node.pax.ilist.WellFormed) :
    (after process result).sessions = process.past ++ [node.out ++ fresh node result] := by
  rw [← handles.out wf]
  cases result with
  | ok => rfl
  -- Only the end of a session is no failure, and it tells nothing more.
  | stop reason halted =>
    cases reason
    case ended => exact List.append_nil _
    all_goals rfl

/-- What a handler does is added to the history of its process. -/
theorem history_after {process : Process} {node : Node} {event : Event} {result : Result}
    (live : process.node = some node) (handles : Handles node event result)
    (wf : node.pax.ilist.WellFormed) :
    (after process result).history = process.history ++ fresh node result := by
  rw [history_eq, sessions_after handles wf, Process.history, live, List.flatten_append,
    List.append_assoc]
  simp

/-- A step that can be taken leads on. -/
theorem Conducts.take {allowed : System → Step → Prop} {first : System} {choice : Choice}
    {step : Step} (run : Conducts allowed first sys) (ok : allowed sys step)
    (able : (sys.step choice step).isSome = true) :
    Conducts allowed first ((sys.step choice step).getD sys) := by
  obtain ⟨next, taken⟩ := Option.isSome_iff_exists.mp able
  rw [taken]
  exact .step run ok taken

/-- What a step hands to a process is all that has to meet a condition. -/
theorem Each.one {step : Step} {id : NodeId} {event : Event}
    (what : sys.occasion step = some (id, event))
    (met : ∀ node, (sys.process id).node = some node → meets node.pax event) :
    Each meets sys step := by
  intro other late same node live
  obtain ⟨rfl, rfl⟩ := Prod.mk.inj (Option.some.inj (what.symm.trans same))
  exact met node live

/-- The process that starts a session in a step, or that the step hands an event to. -/
def Step.actor (sys : System) : Step → Option NodeId
  | .start id _ => some id
  | step => (sys.occasion step).map Prod.fst

/-- Only the process that a step is about may come out of it in another session. -/
theorem step_bystander {choice : Choice} {step : Step} {next : System} {id : NodeId}
    (stepped : sys.step choice step = some next) (other : step.actor sys ≠ some id) :
    (next.process id).node = (sys.process id).node ∧
      (next.process id).past = (sys.process id).past := by
  -- Every kind of turn says that the others are as they were.
  have turn := step_turn stepped
  generalize what : sys.occasion step = occasion at turn
  have acts : ∀ {id event}, occasion = some (id, event) → step.actor sys = some id := by
    intro id event handed
    rw [handed] at what
    cases step with
    | start => contradiction
    | _ => simp [Step.actor, what]
  cases turn with
  | idle nodes past => exact ⟨nodes id, past id⟩
  | start _ once _ _ started =>
    obtain ⟨actor, session, rfl, -, -, others⟩ := step_begins stepped what once started
    rw [others id fun same => other (same ▸ rfl)]
    exact ⟨rfl, rfl⟩
  | greet _ _ _ _ others =>
    rw [others id fun same => other (same ▸ acts rfl)]
    exact ⟨rfl, rfl⟩
  | handle _ _ _ _ _ others =>
    rw [others id fun same => other (same ▸ acts rfl)]
    exact ⟨rfl, rfl⟩

/-- Nobody but the named processes was ever in a session. -/
def Within (names : List NodeId) (sys : System) : Prop :=
  ∀ id, id ∉ names → (sys.process id).node = none ∧ (sys.process id).past = []

/-- A step that is about a named process lets nobody else into a session. -/
theorem Within.step {names : List NodeId} {choice : Choice} {step : Step} {next : System}
    (within : Within names sys) (stepped : sys.step choice step = some next)
    (named : (step.actor sys).all (· ∈ names) = true) : Within names next := by
  intro id stranger
  -- Whoever acts is among the named ones.
  have other : step.actor sys ≠ some id := by
    intro same
    rw [same] at named
    exact stranger (by simpa using named)
  obtain ⟨node, past⟩ := step_bystander stepped other
  rw [node, past]
  exact within id stranger

/-- Whoever is not named has no history. -/
theorem Within.history {names : List NodeId} {id : NodeId} (within : Within names sys)
    (stranger : id ∉ names) : (sys.process id).history = [] := by
  obtain ⟨node, past⟩ := within id stranger
  rw [Process.history, node, past]
  rfl

/-- Steps of named processes all of which pass a check, each in the state that it is taken in. -/
def passes (names : List NodeId) (check : System → Step → Bool) : System → List Step → Bool
  | _, [] => true
  | sys, step :: steps =>
    (step.actor sys).all (· ∈ names) && check sys step &&
      (sys.step quiet step).all fun next => passes names check next steps

/-- Steps that pass a check are allowed if it makes sure of that. -/
theorem Conducts.exec {allowed : System → Step → Prop} {names : List NodeId}
    {check : System → Step → Bool} {first last : System} {steps : List Step}
    (sure : ∀ {sys step}, Within names sys → check sys step = true → allowed sys step)
    (run : Conducts allowed first sys) (within : Within names sys)
    (passed : passes names check sys steps = true) (done : sys.exec quiet steps = some last) :
    Conducts allowed first last := by
  -- By induction on the steps, with the check for what has been reached.
  induction steps generalizing sys with
  | nil =>
    obtain rfl := Option.some.inj done
    exact run
  | cons step steps ih =>
    obtain ⟨next, stepped, rest⟩ := Option.bind_eq_some_iff.mp done
    simp only [passes, stepped, Option.all_some, Bool.and_eq_true] at passed
    obtain ⟨⟨named, checked⟩, passed⟩ := passed
    exact ih (run.step (sure within checked) stepped) (within.step stepped named) passed rest

/-- A node starts a session with another one, and both learn a chat. -/
def chatting : List Step := [.start [1] 7, .client [1] { dkind := .join, data := [2] },
  .complete 0 true, .deliver 0 true, .client [1] { dkind := .chat, data := [9] },
  .deliver 0 true, .deliver 0 true, .deliver 0 false, .deliver 0 true]

/-- A session that the first node has started. -/
def opened : System := (init.step quiet (.start [1] 7)).getD init

/-- The first node has invited a second one, and the join is learned. -/
def invited : System :=
  (opened.step quiet (.client [1] { dkind := .join, data := [2] })).getD opened

/-- The first node has made a connection to the second one and welcomes it. -/
def welcomed : System := (invited.step quiet (.complete 0 true)).getD invited

/-- A node starts a session and invites another, as long as that is allowed. -/
theorem conducts_invited {allowed : System → Step → Prop}
    (start : allowed init (.start [1] 7))
    (invite : allowed opened (.client [1] { dkind := .join, data := [2] })) :
    Conducts allowed init invited :=
  (Conducts.refl.take start (by decide +kernel)).take invite (by decide +kernel)

end System

end Motmot
