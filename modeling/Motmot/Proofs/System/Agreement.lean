import Motmot.Logic.Replicated
import Motmot.Proofs.Paxos.Reign
import Motmot.Proofs.System.Flow
import Motmot.Proofs.System.Once

/-! While nobody but the founder takes office, all sessions go through one log in order. -/

namespace Motmot

variable {book record : List Value}

/-- A newcomer whose welcome is from the founder is under the founder. -/
theorem Welcome.ruled (welcome : Welcome) (opcode : welcome.hdr.opcode = .welcome)
    (ruled : welcome.msg.Ruled book) : Ruled book welcome.node.pax := by
  -- The founder's welcome names its own ballot, and a number past its own.
  obtain ⟨ballot, later⟩ := ruled.welcome _ _ _ _ rfl
  have ballot : welcome.hdr.ballot = founding := ballot
  have later : 2 ≤ welcome.hdr.inum := later
  have self : welcome.node.pax.selfId = welcome.hdr.inum := congrArg Polity.selfId welcome.polity
  have proposer := congrArg Polity.proposer welcome.polity
  have foreign : welcome.node.pax.selfId ≠ 1 := by omega
  have idle : isProposer welcome.node.pax = false := by
    have proposer : welcome.node.pax.proposer = _ := proposer
    rw [isProposer, proposer, self, ballot]
    split
    · -- The owner of the ballot is the founder.
      have other : founding.id ≠ welcome.hdr.inum := by simp only [founding]; omega
      simpa using other
    · rfl
  refine ⟨⟨?_, congrArg Core.prep welcomeAcceptors_core, ?_⟩, ?_, fun own => absurd own foreign,
    ⟨?_, ?_⟩, ?_, fun own => absurd own foreign⟩
  · -- The ballot is that of the welcome.
    have same : welcome.node.pax.ballot = welcome.hdr.ballot :=
      congrArg Core.ballot welcomeAcceptors_core
    exact same.trans ballot
  · -- The newcomer is neither the founder nor a proposer.
    simp [idle, foreign]
  · -- It waits with nothing but the connections that it asks for.
    intro k mem
    rcases welcomeAcceptors_clist k mem with before | waits
    · exact absurd before List.not_mem_nil
    · simp [waits]
  · exact welcome.lacks (ruled.plain.1.welcome _ _ _ _ rfl)
  · exact welcome.lacks (ruled.plain.2.welcome _ _ _ _ rfl)
  · -- Its log is what the founder has packed.
    intro decree stocks
    obtain ⟨packed, mem, same⟩ := Welcome.stock stocks
    exact ruled.recorded decree (Or.inr (Or.inr ⟨_, _, _, _, rfl, opcode, packed, mem, same⟩))

/-- The founder begins with its own join on record. -/
theorem paxosStart_ruled (session : Uuid) (id : NodeId) :
    Ruled [(startInstance session).val] (paxosStart session id).pax := by
  -- The log has one instance, which is on record.
  have only : ∀ inst, (paxosStart session id).pax.ilist.Allots inst →
      inst = startInstance session := by
    rintro inst (⟨cell, mem, rfl⟩ | ⟨gone, mem, -⟩)
    · obtain rfl := List.mem_singleton.mp mem
      rfl
    · exact absurd mem List.not_mem_nil
  refine ⟨⟨rfl, rfl, ⟨fun _ => rfl, fun _ => rfl⟩⟩, fun k mem => absurd mem List.not_mem_nil,
    fun _ => Nat.le_refl 2, ⟨?_, ?_⟩, ?_, fun _ => ⟨⟨_, List.mem_singleton_self _, rfl⟩, ?_⟩⟩
  · intro inst allots
    rw [only inst allots]
    exact nofun
  · intro inst allots
    rw [only inst allots]
    exact nofun
  · rintro decree ⟨inst, allots, rfl⟩
    rw [only inst allots]
    exact ⟨Nat.one_pos, rfl⟩
  · exact Nat.le_refl 2

/-- A session of somebody else stays ruled when the founder adds to the record. -/
theorem Ruled.append {pax : Session} (ruled : Ruled book pax) (foreign : pax.selfId ≠ 1)
    (more : List Value) : Ruled (book ++ more) pax :=
  { ruled with
    recorded := fun decree stocks => (ruled.recorded decree stocks).append more
    whole := fun own => absurd own foreign }

/-- What a learn is for the log: its value is heard at its number, counted from zero. -/
def Effect.entry : Effect → Option (Nat × Value)
  | .learn inum val => some (inum - 1, val)
  | _ => none

/-- Consecutive numbers that are learned from the record read the record in order. -/
theorem reads_of_learns {effects : List Effect} {hole count : Nat}
    (numbers : effects.filterMap Effect.learned = List.range' hole count)
    (recorded : ∀ inum val, .learn inum val ∈ effects → Records record ⟨inum, val⟩) :
    Replicated.Reads record (hole - 1) (effects.filterMap Effect.entry) (hole + count - 1) := by
  -- By induction on the effects, of which the learns take one number after the other.
  induction effects generalizing hole count with
  | nil =>
    have none : count = 0 := by simpa using (congrArg List.length numbers).symm
    subst none
    exact .done _
  | cons effect rest ih =>
    have after := fun inum val mem => recorded inum val (List.mem_cons_of_mem effect mem)
    by_cases learns : ∃ inum val, effect = .learn inum val
    · obtain ⟨inum, val, rfl⟩ := learns
      obtain ⟨past, entry⟩ := recorded inum val List.mem_cons_self
      cases count with
      | zero => simp [Effect.learned] at numbers
      | succ count =>
        simp only [List.filterMap_cons, Effect.learned, List.range'_succ, List.cons.injEq]
          at numbers
        obtain ⟨rfl, numbers⟩ := numbers
        have reads := ih numbers after
        have past : 0 < inum := past
        rw [show inum + (count + 1) - 1 = inum + 1 + count - 1 by omega]
        refine .read entry ?_
        rw [show inum - 1 + 1 = inum + 1 - 1 by omega]
        exact reads
    · -- Any other effect is silent.
      have silent : effect.learned = none ∧ effect.entry = none := by
        cases effect with
        | learn inum val => exact absurd ⟨inum, val, rfl⟩ learns
        | _ => exact ⟨rfl, rfl⟩
      rw [List.filterMap_cons_none silent.1] at numbers
      rw [List.filterMap_cons_none silent.2]
      exact ih numbers after

namespace System

variable {sys next : System}

/--
Steps that put nobody but the founder into office, and replace no part that was rejected.

A part is replaced by a null when whoever was to be parted is reached after all.
-/
structure Undisputed (sys : System) (step : Step) : Prop where
  office : ∀ {id event node result}, sys.occasion step = some (id, event) → sys.Live id node →
    Handles node event result → isProposer result.state.pax = true → node.pax.selfId = 1
  stands : ∀ {id event node}, sys.occasion step = some (id, event) → sys.Live id node →
    ∀ inum acc peer, ¬ Continues node.pax event (.ackReject inum) acc (some peer)

/-- All sessions and messages of a state are of one record, which the founder keeps. -/
structure Founded (book : List Value) (sys : System) : Prop where
  unborn : sys.started = false → book = []
  live : ∀ {id node}, sys.Live id node →
    Ruled book node.pax ∧ ∃ first, Learned first node.pax.ihole node
  waiting : ∀ {channel second msg}, sys.Waits channel second msg → msg.Ruled book
  heard : ∀ {id inum val}, .learn inum val ∈ (sys.process id).history →
    Records book ⟨inum, val⟩
  single : ∀ {id other node last}, sys.Live id node → sys.Live other last →
    node.pax.selfId = 1 → last.pax.selfId = 1 → id = other

/-- The place in the log at which a session of a process reads on, if it is the live one. -/
def standing (process : Process) (turn : Nat) : Option Nat :=
  if process.crashed || process.past.length ≠ turn then none
  else process.node.map fun node => node.pax.ihole - 1

/-- What a session of a process has heard of the log. -/
def overheard (process : Process) (turn : Nat) : List (Nat × Value) :=
  (process.sessions[turn]?.getD []).filterMap Effect.entry

/--
The log that all sessions read, where they stand in it, and what they have heard of it.

The readers are the sessions of the processes, counted from the first that each has been in.
-/
def replicated (sys : System) (book : List Value) : Replicated (NodeId × Nat) Value where
  log := book
  place := fun reader => standing (sys.process reader.1) reader.2
  heard := fun reader => overheard (sys.process reader.1) reader.2

/-- Where a session reads and what it has heard are matters of its process alone. -/
theorem replicated_congr {reader : NodeId × Nat}
    (same : next.process reader.1 = sys.process reader.1) :
    (next.replicated record).place reader = (sys.replicated book).place reader ∧
      (next.replicated record).heard reader = (sys.replicated book).heard reader := by
  constructor
  · show standing _ _ = standing _ _
    rw [same]
  · show overheard _ _ = overheard _ _
    rw [same]

/-- A newcomer begins to read where its log begins to be learned. -/
theorem enters_replicated {id : NodeId} {node : Node} (gone : (sys.process id).node = none)
    (made : next.process id = { sys.process id with node := some node })
    (others : ∀ other, other ≠ id → next.process other = sys.process other)
    (silent : node.out.filterMap Effect.entry = []) :
    Replicated.Steps (sys.replicated book) (next.replicated book) := by
  -- The session is a new reader, which has heard nothing.
  have unread : ∀ turn, (sys.process id).past.length ≤ turn →
      overheard (sys.process id) turn = [] := by
    intro turn late
    rw [overheard, Process.sessions, gone, Option.map_none, Option.toList_none, List.append_nil,
      List.getElem?_eq_none late]
    rfl
  refine .attached (id, (sys.process id).past.length) (node.pax.ihole - 1) ?_
    (unread _ (Nat.le_refl _)) rfl ?_ ?_ ?_
  · show standing _ _ = none
    rw [standing, gone]
    split <;> rfl
  · show standing (next.process id) _ = _ ∨ standing (next.process id) _ = _
    rw [made, standing]
    cases (sys.process id).crashed <;> simp
  · -- Only the process itself has one more session.
    rintro ⟨other, turn⟩ apart
    by_cases same : other = id
    · subst same
      have later : (sys.process other).past.length ≠ turn := fun first => apart (by rw [first])
      show standing (next.process other) turn = standing (sys.process other) turn
      rw [made, standing, standing]
      simp [later]
    · exact (replicated_congr (others other same)).1
  · rintro ⟨other, turn⟩
    by_cases same : other = id
    · subst same
      show overheard (next.process other) turn = overheard (sys.process other) turn
      rw [made, overheard, overheard, Process.sessions, Process.sessions, gone]
      simp only [Option.map_some, Option.toList_some, Option.map_none, Option.toList_none,
        List.append_nil]
      rcases Nat.lt_trichotomy turn (sys.process other).past.length with early | rfl | late
      · rw [List.getElem?_append_left early]
      · -- The newcomer has heard nothing yet.
        simp [silent]
      · rw [List.getElem?_append_right (Nat.le_of_lt late), List.getElem?_eq_none late.le]
        have none : [node.out][turn - (sys.process other).past.length]? = none :=
          List.getElem?_eq_none (by simp only [List.length_singleton]; omega)
        rw [none]
    · exact (replicated_congr (others other same)).2

/-- A handler reads on in the log, after the founder has added to it. -/
theorem handles_replicated {id : NodeId} {node : Node} {event : Event} {result : Result}
    {more : List Value} {count : Nat} (live : sys.Live id node)
    (wf : node.pax.ilist.WellFormed) (handles : Handles node event result)
    (made : next.process id = after (sys.process id) result)
    (others : ∀ other, other ≠ id → next.process other = sys.process other)
    (reads : Replicated.Reads (book ++ more) (node.pax.ihole - 1)
      ((fresh node result).filterMap Effect.entry) (node.pax.ihole + count - 1))
    (hole : ∀ last, result = .ok last → last.pax.ihole = node.pax.ihole + count) :
    Replicated.Steps (sys.replicated book) (next.replicated (book ++ more)) := by
  -- The process writes on in its last session, and past ones stand.
  have before : (sys.process id).sessions = (sys.process id).past ++ [node.out] := by
    rw [Process.sessions, live.2]
    rfl
  have later : (next.process id).sessions =
      (sys.process id).past ++ [node.out ++ fresh node result] := by
    rw [made, sessions_after handles wf]
  refine .advanced (id, (sys.process id).past.length) ?_ reads rfl ?_ ?_ ?_
  · show standing (sys.process id) _ = _
    rw [standing, live.1, live.2]
    simp
  · -- Whoever does not return goes down or leaves.
    show standing (next.process id) _ = _ ∨ standing (next.process id) _ = _
    rw [made]
    cases result with
    | ok last => simp [standing, after, live.1, hole last rfl]
    | stop reason halted => cases reason <;> simp [standing, after]
  · -- What is heard is what the handler learned, behind what was heard before.
    show overheard (next.process id) _ = overheard (sys.process id) _ ++ _
    rw [overheard, overheard, later, before]
    simp
  · -- All other readers are where they were.
    rintro ⟨other, turn⟩ apart
    by_cases same : other = id
    · subst same
      have late : (sys.process other).past.length ≠ turn := fun first => apart (by rw [first])
      constructor
      · show standing (next.process other) turn = standing (sys.process other) turn
        rw [made]
        cases result with
        | ok last => simp [standing, after, late]
        | stop reason halted => cases reason <;> simp [standing, after, late]
      · show overheard (next.process other) turn = overheard (sys.process other) turn
        rw [overheard, overheard, later, before]
        rcases Nat.lt_or_gt_of_ne late with early | early
        · have none : ∀ out : List Effect,
              ((sys.process other).past ++ [out])[turn]? = none := fun out =>
            List.getElem?_eq_none (by simp only [List.length_append, List.length_singleton]; omega)
          rw [none, none]
        · rw [List.getElem?_append_left early, List.getElem?_append_left early]
    · exact replicated_congr (others other same)

/-- What a newcomer has told learns nothing. -/
theorem acceptorAckWelcome_silent {source : PeerId} {hdr : Header} {session : Uuid} {ibase : Nat}
    {alist : List PackedAcceptor} {ilist : List PackedInstance} :
    ∀ effect ∈ (acceptorAckWelcome source hdr session ibase alist ilist).out,
      effect.entry = none ∧ (∀ inum val, effect ≠ .learn inum val) ∧
        ∀ peer msg, effect ≠ .send peer msg := by
  intro effect told
  rcases acceptorAckWelcome_out _ told with rfl | ⟨_, _, rfl⟩ <;> simp [Effect.entry]

/-- An undisputed step hands a session of the founder's only what is lawful. -/
theorem Founded.lawful {step : Step} {id : NodeId} {event : Event} {node : Node}
    (founded : Founded book sys) (undisputed : Undisputed sys step)
    (what : sys.occasion step = some (id, event)) (live : sys.Live id node)
    (arrives : Arrives sys next id event) : Lawful book node.pax event where
  brings := by
    rintro source msg rfl
    obtain ⟨channel, second, -, -, waits⟩ := arrives
    exact founded.waiting waits
  stands := undisputed.stands what live

/-- Messages that wait are of the record when those that are sent are. -/
theorem Founded.sent {effects : List Effect} (founded : Founded book sys) {more : List Value}
    (grows : Grows sys next effects) (ruled : ∀ effect ∈ effects, effect.Ruled (book ++ more))
    {channel : Nat} {second : Bool} {msg : Msg} (waits : next.Waits channel second msg) :
    msg.Ruled (book ++ more) := by
  rcases grows.waits waits with before | sent
  · exact (founded.waiting before).append more
  · exact (ruled _ sent).sent _ msg rfl

/-- A session that handles its event in an undisputed step reads on in the log. -/
theorem Founded.handle {step : Step} {id : NodeId} {event : Event} {node : Node} {result : Result}
    (founded : Founded book sys) (undisputed : Undisputed sys step)
    (what : sys.occasion step = some (id, event)) (live : sys.Live id node)
    (wf : node.pax.ilist.WellFormed) (unborn : sys.started = true)
    (arrives : Arrives sys next id event) (handles : Handles node event result)
    (made : next.process id = after (sys.process id) result)
    (others : ∀ other, other ≠ id → next.process other = sys.process other)
    (started : next.started = sys.started) (grows : Grows sys next (fresh node result)) :
    ∃ more, Founded (book ++ more) next ∧
      Replicated.Steps (sys.replicated book) (next.replicated (book ++ more)) := by
  obtain ⟨ruled, first, learned⟩ := founded.live live
  -- The handler says how far the record grows and what is told.
  obtain ⟨more, keeps, after, told⟩ := handles.ruled wf learned ruled
    (founded.lawful undisputed what live arrives) (undisputed.office what live handles)
  obtain ⟨count, numbers, hole⟩ := handles.learns wf learned
  have stays : ∀ {other last}, next.Live other last →
      other ≠ id ∧ sys.Live other last ∨
        other = id ∧ result = .ok last ∧ last.pax.selfId = node.pax.selfId := by
    intro other last held
    rcases held.handled made others with before | ⟨same, rfl⟩
    · exact Or.inl before
    · exact Or.inr ⟨same, rfl, handles.selfId wf⟩
  refine ⟨more, ⟨?_, ?_, founded.sent grows told, ?_, ?_⟩,
    handles_replicated live wf handles made others (reads_of_learns numbers fun inum val mem =>
      (told _ mem).learned inum val rfl) hole⟩
  · -- The session was started before, since somebody is in it.
    intro off
    rw [started, unborn] at off
    contradiction
  · -- Whoever was live is so under the longer record.
    intro other last held
    rcases stays held with ⟨apart, before⟩ | ⟨-, same, -⟩
    · obtain ⟨also, begun⟩ := founded.live before
      refine ⟨?_, begun⟩
      rcases keeps with own | rfl
      · -- There is one founder only.
        exact also.append (fun founder => apart (founded.single before live founder own)) more
      · rw [List.append_nil]
        exact also
    · subst same
      exact ⟨after last rfl, first, handles.learned wf learned⟩
  · -- What is heard was on record, or is so now.
    intro other inum val heard
    by_cases same : other = id
    · rw [same, made, history_after live.2 handles wf] at heard
      rcases List.mem_append.mp heard with before | new
      · exact (founded.heard before).append more
      · exact (told _ new).learned inum val rfl
    · rw [others other same] at heard
      exact (founded.heard heard).append more
  · -- A handler keeps the identifier of its session.
    intro x y node' last heldX heldY ownX ownY
    rcases stays heldX with ⟨-, beforeX⟩ | ⟨sameX, -, selfX⟩ <;>
      rcases stays heldY with ⟨-, beforeY⟩ | ⟨sameY, -, selfY⟩
    · exact founded.single beforeX beforeY ownX ownY
    · rw [sameY]
      exact founded.single beforeX live ownX (selfY.symm.trans ownY)
    · rw [sameX]
      exact founded.single live beforeY (selfX.symm.trans ownX) ownY
    · exact sameX.trans sameY.symm

/-- While no session does anything the record stays, and nobody hears anything of it. -/
theorem Founded.idle (founded : Founded book sys)
    (nodes : ∀ id, (next.process id).node = (sys.process id).node)
    (past : ∀ id, (next.process id).past = (sys.process id).past)
    (lives : ∀ id, (next.process id).crashed = false → (sys.process id).crashed = false)
    (started : next.started = sys.started) (grows : Grows sys next []) :
    Founded book next ∧ Replicated.Steps (sys.replicated book) (next.replicated book) := by
  -- Nobody's session or history is touched.
  have sessions : ∀ id, (next.process id).sessions = (sys.process id).sessions := by
    intro id
    rw [Process.sessions, Process.sessions, nodes, past]
  have history : ∀ id, (next.process id).history = (sys.process id).history := by
    intro id
    rw [history_eq, history_eq, sessions]
  have before : ∀ {id node}, next.Live id node → sys.Live id node := Live.idle nodes lives
  constructor
  · constructor
    case unborn => exact fun off => founded.unborn (started.symm.trans off)
    case live => exact fun live => founded.live (before live)
    case waiting =>
      intro channel second msg waits
      rcases grows.waits waits with waited | sent
      · exact founded.waiting waited
      · contradiction
    case heard => exact fun heard => founded.heard (history _ ▸ heard)
    case single => exact fun x y => founded.single (before x) (before y)
  · -- Some readers may detach, and nobody else does anything.
    refine .detached rfl (fun reader => ?_) fun reader => ?_
    · -- A process that has crashed reads on nowhere, and every other one where it did.
      show standing _ _ = standing _ _ ∨ standing _ _ = _
      cases down : (next.process reader.1).crashed with
      | true => simp [standing, down]
      | false => simp [standing, down, lives reader.1 down, nodes, past]
    · show overheard _ _ = overheard _ _
      rw [overheard, overheard, sessions]

/-- The session that is started is the first thing that happens. -/
theorem founds_founded {id : NodeId} {session : Uuid}
    (nobody : ∀ id, (sys.process id).node = none ∧ (sys.process id).past = [])
    (nothing : ∀ channel second msg, ¬ sys.Waits channel second msg)
    (made : next.process id = { sys.process id with node := some (paxosStart session id) })
    (others : ∀ other, other ≠ id → next.process other = sys.process other)
    (started : next.started = true) (grows : Grows sys next []) :
    Founded [(startInstance session).val] next ∧
      Replicated.Steps (sys.replicated []) (next.replicated [(startInstance session).val]) := by
  have only : ∀ {other node}, next.Live other node → other = id ∧ node = paxosStart session id :=
    Live.alone (fun id => (nobody id).1) made others
  constructor
  · -- The founder is the only one in a session.
    constructor
    case unborn =>
      intro off
      rw [started] at off
      contradiction
    case live =>
      intro other node live
      obtain ⟨-, rfl⟩ := only live
      exact ⟨paxosStart_ruled session id, 2,
        (Begins.start session id : Begins (fun _ => True) _ _).learned⟩
    case waiting =>
      intro channel second msg waits
      rcases grows.waits waits with waited | sent
      · exact absurd waited (nothing channel second msg)
      · contradiction
    case heard =>
      intro other inum val heard
      by_cases same : other = id
      · rw [same, made, Process.history, (nobody id).2] at heard
        contradiction
      · rw [others other same, Process.history, (nobody other).1, (nobody other).2] at heard
        contradiction
    case single => exact fun liveX liveY _ _ => (only liveX).1.trans (only liveY).1.symm
  · -- The record begins with the value of the start, and its session reads on behind it.
    have added := Replicated.Steps.append (sys.replicated []) [(startInstance session).val]
    have entered := @enters_replicated [(startInstance session).val] sys next id _
      (nobody id).1 made others rfl
    exact added.trans entered

/-- A newcomer takes over a part of the record, and is not the founder. -/
theorem Founded.welcomes (founded : Founded book sys) {id : NodeId} {welcome : Welcome}
    (ruled : Ruled book welcome.node.pax) (later : welcome.node.pax.selfId ≠ 1)
    (begun : sys.started = true) (gone : (sys.process id).node = none)
    (made : next.process id = { sys.process id with node := some welcome.node })
    (others : ∀ other, other ≠ id → next.process other = sys.process other)
    (started : next.started = sys.started) (grows : Grows sys next welcome.node.out) :
    Founded book next ∧ Replicated.Steps (sys.replicated book) (next.replicated book) := by
  -- A welcome sends nothing and learns nothing.
  have silent := @acceptorAckWelcome_silent welcome.source welcome.hdr welcome.session welcome.ibase
    welcome.alist welcome.ilist
  have stays : ∀ {other node}, next.Live other node →
      other ≠ id ∧ sys.Live other node ∨ other = id ∧ node = welcome.node :=
    Live.entered made others
  constructor
  · constructor
    case unborn =>
      intro off
      rw [started, begun] at off
      contradiction
    -- Whoever is live was so before, or is the newcomer.
    case live =>
      intro other node live
      rcases stays live with ⟨-, before⟩ | ⟨-, rfl⟩
      · exact founded.live before
      · exact ⟨ruled, _, (Begins.welcome welcome trivial : Begins (fun _ => True) _ _).learned⟩
    case waiting =>
      intro channel second msg waits
      rcases grows.waits waits with waited | told
      · exact founded.waiting waited
      · exact absurd rfl ((silent _ told).2.2 _ msg)
    case heard =>
      intro other inum val heard
      by_cases same : other = id
      · rw [same, made] at heard
        rcases List.mem_append.mp heard with past | told
        · exact @Founded.heard _ _ founded id _ _ (List.mem_append_left _ past)
        · exact absurd rfl ((silent _ told).2.1 inum val)
      · rw [others other same] at heard
        exact founded.heard heard
    -- The newcomer has another number than the founder.
    case single =>
      intro x y _ _ liveX liveY ownX ownY
      rcases stays liveX with ⟨-, beforeX⟩ | ⟨-, rfl⟩
      · rcases stays liveY with ⟨-, beforeY⟩ | ⟨-, rfl⟩
        · exact founded.single beforeX beforeY ownX ownY
        · exact absurd ownY later
      · exact absurd ownX later
  · exact enters_replicated gone made others
      (List.filterMap_eq_nil_iff.mpr fun effect told => (silent effect told).1)

/-- An undisputed step keeps everything to one record, which it may extend. -/
theorem Founded.step {choice : Choice} {step : Step} (founded : Founded book sys)
    (sound : Upheld (fun node => node.pax.ilist.WellFormed) Msg.Sound sys)
    (unborn : sys.started = false → (∀ id, (sys.process id).node = none ∧
      (sys.process id).past = []) ∧ ∀ channel second msg, ¬ sys.Waits channel second msg)
    (undisputed : Undisputed sys step) (stepped : sys.step choice step = some next) :
    ∃ more, Founded (book ++ more) next ∧
      Replicated.Steps (sys.replicated book) (next.replicated (book ++ more)) := by
  -- A turn is idle, starts the session, greets a newcomer, or handles an event.
  have turn := step_turn stepped
  generalize what : sys.occasion step = occasion at turn
  cases turn with
  | idle nodes past lives started grows =>
    refine ⟨[], ?_⟩
    rw [List.append_nil]
    exact founded.idle nodes past lives started grows
  -- The first session is started.
  | start gone once made others started grows =>
    obtain ⟨nobody, nothing⟩ := unborn once
    obtain rfl := founded.unborn once
    exact ⟨_, founds_founded nobody nothing made others started grows⟩
  -- The welcome was sent by the founder, so it numbers the newcomer past 1.
  | @greet id source hdr session ibase alist ilist opcode gone arrives made others started grows =>
    obtain ⟨channel, second, -, -, waits⟩ := arrives
    have sent := founded.waiting waits
    let welcome : Welcome :=
      { source := source, hdr := hdr, session := session, ibase := ibase, alist := alist
        ilist := ilist
        ascending := (sound.waiting channel second _ waits).welcome session ibase alist ilist opcode
          rfl }
    have later : welcome.node.pax.selfId ≠ 1 := by
      have self : welcome.node.pax.selfId = hdr.inum := congrArg Polity.selfId welcome.polity
      have number : 2 ≤ hdr.inum := (sent.welcome _ _ _ _ rfl).2
      omega
    -- Something was sent, so the session was started before.
    have begun : sys.started = true := by
      cases off : sys.started with
      | true => rfl
      | false => exact absurd waits ((unborn off).2 channel second _)
    refine ⟨[], ?_⟩
    rw [List.append_nil]
    exact founded.welcomes (welcome.ruled opcode sent) later begun gone made others started grows
  -- A live session handles an event.
  | @handle id event node result up live arrives handles made others started grows =>
    have begun : sys.started = true := by
      cases off : sys.started with
      | true => rfl
      | false =>
        rw [((unborn off).1 id).1] at live
        contradiction
    exact founded.handle undisputed what ⟨up, live⟩ (sound.live id node up live) begun arrives
      handles made others started grows

/-- Before anything has happened the record is empty. -/
theorem Founded.init : Founded [] System.init where
  unborn := fun _ => rfl
  live := by
    -- Nobody is live, no channel exists, and nothing was heard.
    rintro id node ⟨-, held⟩
    contradiction
  waiting := by
    rintro channel second msg ⟨chan, held, -⟩
    contradiction
  heard := by
    intro id inum val heard
    contradiction
  single := by
    rintro x y node last ⟨-, held⟩
    contradiction

/-- An undisputed run goes on with the record that it has, and may extend it. -/
theorem Founded.onward {later : System} (founded : Founded book sys)
    (run : Conducts Undisputed System.init sys) (onward : Conducts Undisputed sys later) :
    Conducts Undisputed System.init later ∧ ∃ more, Founded (book ++ more) later ∧
      Replicated.Steps (sys.replicated book) (later.replicated (book ++ more)) := by
  -- By induction on the steps that follow.
  induction onward with
  | refl =>
    refine ⟨run, [], ?_⟩
    rw [List.append_nil]
    exact ⟨founded, .refl⟩
  | @step mid next choice step _ undisputed stepped ih =>
    obtain ⟨whole, more, later, steps⟩ := ih
    obtain ⟨last, after, goes⟩ := later.step whole.sound whole.unborn undisputed stepped
    rw [List.append_assoc] at after goes
    exact ⟨.step whole undisputed stepped, more ++ last, after, steps.trans goes⟩

/-- Before anything has happened the log is empty, and nobody reads it. -/
theorem replicated_init : System.init.replicated [] = Replicated.empty := by
  apply Replicated.ext
  · rfl
  · funext reader
    -- Nobody stands anywhere.
    show standing _ _ = none
    unfold standing
    split <;> rfl
  · funext reader
    rfl

/-- In an undisputed run there is one record of all that was decreed. -/
theorem Conducts.founded (run : Conducts Undisputed init sys) : ∃ book, Founded book sys ∧
    Replicated.Steps Replicated.empty (sys.replicated book) := by
  obtain ⟨-, more, founded, steps⟩ := Founded.init.onward .refl run
  rw [replicated_init] at steps
  exact ⟨_, founded, steps⟩

/-- What was decreed is on record. -/
theorem Founded.decreed (founded : Founded book sys) {decree : Decree}
    (decreed : sys.Decreed decree) : Records book decree := by
  rcases decreed with ⟨id, node, up, held, stocks⟩ | ⟨channel, second, msg, waits, carries⟩ |
    ⟨id, heard⟩
  · exact (founded.live ⟨up, held⟩).1.recorded decree stocks
  · exact (founded.waiting waits).recorded decree carries
  · exact founded.heard heard

/-- Handing events to nobody but an untroubled founder disputes nothing. -/
theorem Undisputed.founder {step : Step} (facts : ((sys.occasion step).all fun happens =>
    (sys.process happens.1).node.all fun node => decide (node.pax.selfId = 1) &&
      node.pax.clist.all fun k => !(k.purpose matches .ackReject _)) = true) :
    Undisputed sys step := by
  -- The check is made of the session that is handed the event.
  have founds : ∀ {id event node}, sys.occasion step = some (id, event) → sys.Live id node →
      node.pax.selfId = 1 ∧ ∀ k ∈ node.pax.clist, ∀ inum, k.purpose ≠ .ackReject inum := by
    rintro id event node what ⟨-, held⟩
    rw [what, Option.all_some, held, Option.all_some, Bool.and_eq_true] at facts
    obtain ⟨own, calm⟩ := facts
    refine ⟨by simpa using own, fun k mem inum purpose => ?_⟩
    have kept := List.all_eq_true.mp calm k mem
    rw [purpose] at kept
    contradiction
  refine ⟨fun what live _ _ => (founds what live).1, fun what live inum acc peer => ?_⟩
  rintro ⟨handle, k, -, found, purpose, -⟩
  exact (founds what live).2 k (List.mem_of_find?_eq_some found) inum purpose

/-- The second node has taken the welcome of the founder. -/
def entered : System := (welcomed.step quiet (.deliver 0 true)).getD welcomed

/-- The founder starts a session, and welcomes another whom it has invited. -/
theorem conducts_welcomed : Conducts Undisputed init welcomed :=
  (conducts_invited (.founder (by decide +kernel)) (.founder (by decide +kernel))).take
    (.founder (by decide +kernel)) (by decide +kernel)

/-- The other takes the welcome. -/
theorem conducts_entered : Conducts Undisputed init entered :=
  conducts_welcomed.take (.founder (by decide +kernel)) (by decide +kernel)

/-- The founder is live in its session after all of that. -/
theorem entered_founder : ∃ node, entered.Live [1] node ∧ node.pax.selfId = 1 := by
  have facts : ∃ node ∈ (entered.process [1]).node, node.pax.selfId = 1 ∧
      (entered.process [1]).crashed = false := by decide +kernel
  obtain ⟨node, held, own, up⟩ := facts
  exact ⟨node, ⟨up, held⟩, own⟩

/--
While nobody but the founder takes office, no number ever stands for two values.

All logs, all messages on their way and everything that was ever learned agree about what is
decreed.
-/
theorem undisputed_single (run : Conducts Undisputed init sys) {x y : Decree}
    (decreedX : sys.Decreed x) (decreedY : sys.Decreed y) (same : x.inum = y.inum) : x = y := by
  -- Both are on the record, and under their number there is one entry.
  obtain ⟨book, founded, -⟩ := run.founded
  have first := (founded.decreed decreedX).2
  rw [same, (founded.decreed decreedY).2] at first
  obtain ⟨inum, val⟩ := x
  obtain rfl : inum = y.inum := same
  obtain rfl : y.val = val := Option.some.inj first
  rfl

/-- What the founder has learned and what the newcomer has on its log are one decree. -/
theorem undisputed_single_join : ∃ node ∈ (entered.process [2]).node,
    ∃ inst, node.pax.ilist.Allots inst ∧ inst.decree = ⟨2, ⟨.join, ⟨1, 2⟩, 0⟩⟩ := by
  -- The two ends of the comparison are found by evaluation.
  have learned : .learn 2 ⟨.join, ⟨1, 2⟩, 0⟩ ∈ (entered.process [1]).history := by
    decide +kernel
  have up : (entered.process [2]).crashed = false := by decide +kernel
  have facts : ∃ node ∈ (entered.process [2]).node,
      ∃ cell ∈ node.pax.ilist.cells, cell.inst.hdr.inum = 2 := by decide +kernel
  obtain ⟨node, held, cell, mem, inum⟩ := facts
  have allots : node.pax.ilist.Allots cell.inst := Or.inl ⟨cell, mem, rfl⟩
  exact ⟨node, held, cell.inst, allots, undisputed_single conducts_entered
    (Or.inl ⟨[2], node, up, held, cell.inst, allots, rfl⟩) (Or.inr (Or.inr ⟨[1], learned⟩)) inum⟩

/-- Nobody has heard anything of an empty log. -/
theorem empty_orderly : (Replicated.empty : Replicated (NodeId × Nat) Value).Orderly :=
  fun _ => ⟨0, 0, .done 0, fun _ held => absurd held (by simp [Replicated.empty])⟩

/-- What a process has learned one of its sessions has heard. -/
theorem overheard_of_history {id : NodeId} {inum : Nat} {val : Value}
    (heard : .learn inum val ∈ (sys.process id).history) :
    ∃ turn, (inum - 1, val) ∈ (sys.replicated book).heard (id, turn) := by
  -- The history is that of all its sessions, one of which has heard it.
  rw [history_eq] at heard
  obtain ⟨session, mem, told⟩ := List.mem_flatten.mp heard
  obtain ⟨turn, held⟩ := List.mem_iff_getElem?.mp mem
  refine ⟨turn, ?_⟩
  show _ ∈ overheard (sys.process id) turn
  rw [overheard, held]
  exact List.mem_filterMap.mpr ⟨_, told, rfl⟩

/-- What one process has learned is never contradicted by what any other learns later. -/
theorem undisputed_stable {later : System} (run : Conducts Undisputed init sys)
    (onward : Conducts Undisputed sys later) {id other : NodeId} {inum : Nat} {x y : Value}
    (heard : .learn inum x ∈ (sys.process id).history)
    (also : .learn inum y ∈ (later.process other).history) : x = y := by
  -- The record has grown by what was added to it later.
  obtain ⟨book, founded, steps⟩ := run.founded
  obtain ⟨-, more, -, goes⟩ := founded.onward run onward
  have empty : (Replicated.empty : Replicated (NodeId × Nat) Value).Faithful :=
    fun _ _ _ mem => absurd mem List.not_mem_nil
  -- All readers hear the log, and the early word is still heard in the later system.
  have faithful := Replicated.Steps.faithful (steps.trans goes) empty
  obtain ⟨turn, first⟩ := @overheard_of_history book sys id inum x heard
  obtain ⟨late, second⟩ := @overheard_of_history (book ++ more) later other inum y also
  have grown := (Replicated.Steps.grows goes).2 (id, turn)
  exact faithful.agree (grown.subset first) second

/--
While nobody but the founder takes office, the founder stays in it under its first ballot.

There is one founder at most, and no prepare is ever begun or on its way.
-/
theorem undisputed_reign (run : Conducts Undisputed init sys) :
    (∀ id node, sys.Live id node → node.pax.ballot = ⟨1, 1⟩ ∧ node.pax.prep = none ∧
      (isProposer node.pax = true ↔ node.pax.selfId = 1)) ∧
    (∀ id other node last, sys.Live id node → sys.Live other last → isProposer node.pax = true →
      isProposer last.pax = true → id = other) ∧
    ∀ channel second msg, sys.Waits channel second msg → msg.hdr.opcode ≠ .prepare := by
  -- A live session is reigned over, by the founder it has begun under.
  obtain ⟨book, founded, -⟩ := run.founded
  have reigned := fun {id node} (live : sys.Live id node) => (founded.live live).1.reigned
  refine ⟨fun id node live => ?_, fun id other node last live also leads leading => ?_,
    fun channel second msg waits => (founded.waiting waits).unprepared⟩
  · exact ⟨(reigned live).ballot, (reigned live).prep, (reigned live).office⟩
  · exact founded.single live also ((reigned live).office.mp leads)
      ((reigned also).office.mp leading)

/-- The founder that has let another in is still in office. -/
theorem undisputed_reign_entered : ∃ node, entered.Live [1] node ∧ node.pax.ballot = ⟨1, 1⟩ ∧
    isProposer node.pax = true := by
  obtain ⟨node, live, own⟩ := entered_founder
  have reigns := (undisputed_reign conducts_entered).1 [1] node live
  exact ⟨node, live, reigns.1, reigns.2.2.mpr own⟩

end System

end Motmot
