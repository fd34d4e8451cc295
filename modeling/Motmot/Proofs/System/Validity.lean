import Motmot.Proofs.Paxos.Voices
import Motmot.Proofs.System.Ledger
import Motmot.Proofs.System.Once

/-! Nothing is decreed that nobody has called for. -/

namespace Motmot

/-- A newcomer holds no value but those of its welcome. -/
theorem Welcome.holds {welcome : Welcome} {val : Value} (holds : welcome.node.pax.Holds val) :
    ∃ packed ∈ welcome.ilist, packed.val = val := by
  -- A newcomer has deferred nothing and cached nothing, and waits for connections alone.
  cases holds with
  | stock stocks =>
    obtain ⟨packed, mem, rfl⟩ := welcome.stock stocks
    exact ⟨packed, mem, rfl⟩
  | deferred mem =>
    have idefer : welcome.node.pax.idefer = [] := congrArg Core.idefer welcomeAcceptors_core
    rw [idefer] at mem
    contradiction
  | cached mem =>
    have rcache : welcome.node.pax.rcache = [] := welcomeAcceptors_rcache
    rw [rcache] at mem
    contradiction
  | refused mem purpose =>
    rcases welcomeAcceptors_clist _ mem with before | waits
    · contradiction
    · rw [waits] at purpose
      contradiction

namespace System

variable {past : List Moment} {sys next : System} {choice : Choice}

/-- A value is issued: as a request that is made, or to have somebody leave. -/
inductive Moment.Issues (moment : Moment) (val : Value) : Prop where
  | request {data} (makes : moment.Makes { val := val, data := data })
  | removal {id event node} (what : moment.before.occasion moment.step = some (id, event))
      (live : (moment.before.process id).node = some node)
      (kind : val.dkind = .part ∨ val.dkind = .kill) (mine : val.reqid.id = node.pax.selfId)
      (fresh : node.pax.reqId < val.reqid.gen)
      (counted : ∀ last, (moment.after.process id).crashed = false →
        (moment.after.process id).node = some last → val.reqid.gen ≤ last.pax.reqId)

/-- A value says nothing, or has been issued. -/
def Voiced (past : List Moment) (val : Value) : Prop :=
  val.dkind = .null ∨ ∃ moment ∈ past, moment.Issues val

/-- All values that anybody holds, sends or has learned have been issued. -/
structure Valid (past : List Moment) (sys : System) : Prop where
  holds : ∀ id node, (sys.process id).crashed = false → (sys.process id).node = some node →
    ∀ val, node.pax.Holds val → Voiced past val
  waiting : ∀ channel second msg, sys.Waits channel second msg → ∀ val, msg.body.Mentions val →
    Voiced past val
  history : ∀ id, ∀ effect ∈ (sys.process id).history, ∀ val, effect.Mentions val →
    Voiced past val

/-- What has been issued remains so. -/
theorem Voiced.later {val : Value} (issued : Voiced past val) (moment : Moment) :
    Voiced (past ++ [moment]) val := by
  rcases issued with null | ⟨early, mem, issues⟩
  · exact Or.inl null
  · exact Or.inr ⟨early, List.mem_append_left _ mem, issues⟩

/-- Nothing is held before anything has happened. -/
theorem Valid.init : Valid [] System.init where
  holds := by
    -- Nobody is live, no channel exists, and nothing was learned.
    intro id node up live
    contradiction
  waiting := by
    rintro channel second msg ⟨chan, at_, -⟩
    contradiction
  history := by
    intro id effect mem
    contradiction

/-- A handler issues what it counts, and nothing else. -/
theorem Valid.handle (valid : Valid past sys) {step : Step} {id : NodeId} {event : Event}
    {node : Node} (stepped : sys.step choice step = some next)
    (what : sys.occasion step = some (id, event))
    (up : (sys.process id).crashed = false) (live : (sys.process id).node = some node)
    (arrives : Arrives sys next id event) (wf : node.pax.ilist.WellFormed) :
    Valid (past ++ [⟨sys, choice, step, next⟩]) next := by
  -- The event brings what was known, so the handler issues values that are known or counted now.
  obtain ⟨mid, handover, reacted⟩ := step_reacts stepped what up live
  have processes := handover.process
  have popped := handover.grows
  obtain ⟨-, made, others, -, carried⟩ := react_made reacted (processes ▸ live)
  rw [processes] at made others
  have knows : Knows (Voiced past) node.pax event := by
    refine ⟨fun val null => Or.inl null, valid.holds id node up live, ?_⟩
    rintro source msg rfl
    obtain ⟨channel, second, -, -, waits⟩ := arrives
    exact valid.waiting channel second msg waits
  have handled := @handle_vouches (Voiced past) { node with script := choice.script } event
    choice.fuel wf knows
  have handles : Handles node event
      (Motmot.handle choice.fuel { node with script := choice.script } event) :=
    ⟨choice.fuel, choice.script, rfl⟩
  have history := history_after live handles wf
  have grows := popped.trans carried
  generalize Motmot.handle choice.fuel { node with script := choice.script } event = result
    at made history grows handled
  obtain ⟨last, -, lasts, holds, told⟩ := handled
  -- A process that is still up and in the session has the last state of the handler.
  have stays : ∀ held, (next.process id).crashed = false → (next.process id).node = some held →
      held = last := by
    intro held upright here
    rcases Live.handled made others ⟨upright, here⟩ with ⟨apart, -⟩ | ⟨-, same⟩
    · exact absurd rfl apart
    · exact (lasts held same).symm
  -- A value that the handler vouches for was voiced before, or in this step.
  have issued : ∀ val, Vouched (Voiced past) { node with script := choice.script } event
      last.pax.reqId val → Voiced (past ++ [⟨sys, choice, step, next⟩]) val := by
    intro val vouched
    cases vouched with
    | known before => exact before.later _
    | own mine fresh counted origin =>
      have bound : ∀ held, (next.process id).crashed = false →
          (next.process id).node = some held → val.reqid.gen ≤ held.pax.reqId := by
        intro held upright here
        rw [stays held upright here]
        exact counted
      refine Or.inr ⟨_, List.mem_append_right _ (List.mem_singleton_self _), ?_⟩
      -- It is issued for a removal, or for a call of the client.
      cases origin with
      | part kind => exact .removal what live kind mine fresh bound
      | @call selfId gen call called same =>
        obtain rfl : selfId = node.pax.selfId := by
          rw [same] at mine
          exact mine
        have number : val.reqid.gen = gen := by
          rw [same]
          rfl
        have asked : ({ val := val, data := call.data } : Request) =
            requestOf node.pax.selfId val.reqid.gen call := by
          rw [number, same]
          rfl
        exact .request (.call what live called asked fresh bound)
  refine ⟨?_, ?_, ?_⟩
  · -- The session has what its handler has left, and other sessions what they had.
    intro other held upright here val holding
    by_cases same : other = id
    · subst same
      rw [stays held upright here] at holding
      exact issued val (holds val holding)
    · rw [others other same] at upright here
      exact (valid.holds other held upright here val holding).later _
  · -- What is in flight was so before, or was sent by the handler.
    intro channel second msg waits val mentions
    rcases grows.waits waits with before | sent
    · exact (valid.waiting channel second msg before val mentions).later _
    · exact issued val (told _ sent val mentions)
  · -- A history grows by what the handler tells.
    intro other effect mem val mentions
    by_cases same : other = id
    · rw [same, made, history] at mem
      rcases List.mem_append.mp mem with before | new
      · exact (valid.history id effect before val mentions).later _
      · exact issued val (told effect new val mentions)
    · rw [others other same] at mem
      exact (valid.history other effect mem val mentions).later _

/-- A session that is entered holds what it was entered with. -/
theorem Valid.enter (valid : Valid past sys) {moment : Moment} {id : NodeId} {node : Node}
    {sent : List Effect} (made : next.process id = { sys.process id with node := some node })
    (others : ∀ other, other ≠ id → next.process other = sys.process other)
    (grows : Grows sys next sent)
    (holds : ∀ val, node.pax.Holds val → Voiced (past ++ [moment]) val)
    (silent : ∀ effect ∈ node.out ++ sent, ∀ val, ¬ effect.Mentions val) :
    Valid (past ++ [moment]) next where
  holds := by
    -- Whoever is live was so before, or has just entered.
    intro other held up live val holding
    rcases Live.entered made others ⟨up, live⟩ with ⟨-, up, live⟩ | ⟨-, rfl⟩
    · exact (valid.holds other held up live val holding).later _
    · exact holds val holding
  waiting := by
    intro channel second msg waits val mentions
    rcases grows.waits waits with before | told
    · exact (valid.waiting channel second msg before val mentions).later _
    · exact absurd mentions (silent _ (List.mem_append_right _ told) val)
  history := by
    intro other effect mem val mentions
    by_cases same : other = id
    · rw [same, made] at mem
      rcases List.mem_append.mp mem with before | new
      · refine (valid.history id effect ?_ val mentions).later _
        exact List.mem_append_left _ before
      · exact absurd mentions (silent _ (List.mem_append_left _ new) val)
    · rw [others other same] at mem
      exact (valid.history other effect mem val mentions).later _

/-- Whatever step is taken, all values have been issued. -/
theorem Valid.step (valid : Valid past sys) {step : Step} (run : Chronicle past sys)
    (stepped : sys.step choice step = some next) :
    Valid (past ++ [⟨sys, choice, step, next⟩]) next := by
  -- The welcome of a newcomer is a sound one.
  have sound := run.conducts.sound
  have turn := step_turn stepped
  generalize what : sys.occasion step = occasion at turn
  cases turn with
  -- Nothing is held, sent or told that was not before.
  | idle nodes pasts lives started grows =>
    refine ⟨?_, ?_, ?_⟩
    · intro id node up live val holding
      exact (valid.holds id node (lives id up) ((nodes id).symm.trans live) val holding).later _
    · intro channel second msg waits val mentions
      rcases grows.waits waits with before | sent
      · exact (valid.waiting channel second msg before val mentions).later _
      · contradiction
    · intro id effect mem val mentions
      rw [Process.history, nodes, pasts] at mem
      exact (valid.history id effect mem val mentions).later _
  | start gone once made others started grows =>
    obtain ⟨id, session, rfl, gone, made, others⟩ := step_begins stepped what once started
    refine valid.enter made others grows ?_ (by simp [paxosStart])
    -- All that a session starts with is the join of whoever starts it.
    have begun : Voiced (past ++ [⟨sys, choice, .start id session, next⟩]) startValue :=
      Or.inr ⟨_, List.mem_append_right _ (List.mem_singleton_self _), .request (.start rfl rfl)⟩
    intro val holding
    cases holding with
    | stock stocks =>
      obtain ⟨inst, ⟨cell, mem, rfl⟩ | ⟨_, mem, -⟩, rfl⟩ := stocks
      · obtain rfl := List.mem_singleton.mp mem
        exact begun
      · contradiction
    | deferred mem => contradiction
    | cached mem =>
      obtain rfl := List.mem_singleton.mp mem
      exact begun
    | refused mem => contradiction
  -- The newcomer holds what its welcome brings, which was voiced as it was sent.
  | @greet id source hdr session ibase alist ilist opcode gone arrives made others started grows =>
    obtain ⟨channel, second, -, -, waits⟩ := arrives
    have welcomed := sound.waiting channel second _ waits
    let welcome : Welcome :=
      { source := source, hdr := hdr, session := session, ibase := ibase, alist := alist
        ilist := ilist, ascending := welcomed.welcome session ibase alist ilist opcode rfl }
    have quiet : ∀ effect ∈ welcome.node.out, effect = .enter ∨
        ∃ handle desc, effect = .connect handle desc := acceptorAckWelcome_out
    refine @Valid.enter past sys next valid _ id welcome.node _ made others grows ?_ ?_
    · intro val holding
      exact (valid.waiting channel second _ waits val (Welcome.holds holding)).later _
    · intro effect mem val mentions
      have mem : effect ∈ welcome.node.out ++ welcome.node.out := mem
      rcases quiet effect (by simpa using mem) with rfl | ⟨_, _, rfl⟩ <;> exact mentions
  | @handle id event node result up live arrives handles made others started grows =>
    exact valid.handle stepped what up live arrives (sound.live id node up live)

/-- In a run all values have been issued. -/
theorem Chronicle.valid (run : Chronicle past sys) : Valid past sys := by
  induction run with
  | init => exact .init
  | step run stepped ih => exact ih.step run stepped

/-- No session has counted its numbers or its requests out of the range of `paxid_t`. -/
def Moment.Ranged (moment : Moment) : Prop :=
  ∀ id node, (moment.after.process id).node = some node →
    node.pax.Ranged ∧ node.pax.reqId < paxidRange

/--
Whatever is decreed in a run says nothing, or has been issued in one of its steps.

Requests are told apart by how many their authors have counted, which are as many as here until a
count wraps.
-/
theorem decreed_issued {past : List Moment} {sys : System} (run : Chronicle past sys)
    (_ranged : ∀ moment ∈ past, moment.Ranged) {decree : Decree} (decreed : sys.Decreed decree) :
    decree.val.dkind = .null ∨ ∃ moment ∈ past, moment.Issues decree.val := by
  have valid := run.valid
  -- A decree is on a log, on its way, or learned.
  rcases decreed with ⟨id, node, up, live, stocks⟩ | ⟨channel, second, msg, waits, carries⟩ |
    ⟨id, learned⟩
  · exact valid.holds id node up live _ (.stock stocks)
  · exact valid.waiting channel second msg waits _ carries.mentions
  · exact valid.history id _ learned _ rfl

/-- The chat that the second node learns is the one that the client of the first has asked for. -/
theorem decreed_issued_chatting : ∃ sys, System.init.exec quiet chatting = some sys ∧
    .learn 3 ⟨.chat, ⟨1, 3⟩, 0⟩ ∈ (sys.process [2]).history ∧
      ∃ moment ∈ moments quiet System.init chatting, moment.Issues ⟨.chat, ⟨1, 3⟩, 0⟩ := by
  -- The run is computed once, and the chat is among what was learned.
  have able : (System.init.exec quiet chatting).any (fun sys =>
      .learn 3 ⟨.chat, ⟨1, 3⟩, 0⟩ ∈ (sys.process [2]).history) = true := by decide +kernel
  obtain ⟨sys, ran, learned⟩ := (Option.any_eq_true _ _).mp able
  have learned : .learn 3 ⟨.chat, ⟨1, 3⟩, 0⟩ ∈ (sys.process [2]).history :=
    of_decide_eq_true learned
  refine ⟨sys, ran, learned, ?_⟩
  have run : Chronicle (moments quiet System.init chatting) sys := Chronicle.exec .init ran
  -- The numbers of the run stay small.
  have inside : ∀ moment ∈ moments quiet System.init chatting,
      (moment.step.actor moment.before).all (· ∈ [[1], [2]]) = true := by decide +kernel
  have small : ∀ moment ∈ moments quiet System.init chatting, ∀ id ∈ ([[1], [2]] : List NodeId),
      ∀ node ∈ (moment.after.process id).node, node.pax.Ranged ∧ node.pax.reqId < paxidRange := by
    decide +kernel
  have ranged : ∀ moment ∈ moments quiet System.init chatting, moment.Ranged := by
    intro moment mem id node live
    by_cases named : id ∈ ([[1], [2]] : List NodeId)
    · exact small moment mem id named node live
    · rw [((run.within inside).2 moment mem id named).1] at live
      contradiction
  rcases @decreed_issued _ _ run ranged ⟨3, ⟨.chat, ⟨1, 3⟩, 0⟩⟩
    (Or.inr (Or.inr ⟨[2], learned⟩)) with null | issued
  · contradiction
  · exact issued

end System

end Motmot
