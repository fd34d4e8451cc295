import Motmot.Proofs.Paxos.Welcome
import Motmot.System.Network

/-!
What one step of the system is.

At most one process does anything, and whatever is new on its way was sent by it.
-/

namespace Motmot

namespace System

variable {sys next : System}

/-- A message is on its way to an end of a channel. -/
def Waits (sys : System) (channel : Nat) (second : Bool) (msg : Msg) : Prop :=
  ∃ chan, sys.channels[channel]? = some chan ∧ msg ∈ (chan.atEnd second).inbox

/-- A process owns an end of a channel. -/
def Owns (sys : System) (id : NodeId) (channel : Nat) (second : Bool) : Prop :=
  ∃ chan, sys.channels[channel]? = some chan ∧ (chan.atEnd second).owner = id

instance (sys : System) (id : NodeId) (channel : Nat) (second : Bool) :
    Decidable (sys.Owns id channel second) :=
  inferInstanceAs (Decidable (∃ chan ∈ sys.channels[channel]?, _))

/-- The ends keep their owners, and whatever is new on its way was sent. -/
structure Grows (sys next : System) (sent : List Effect) : Prop where
  owns : ∀ {id channel second}, sys.Owns id channel second → next.Owns id channel second
  waits : ∀ {channel second msg}, next.Waits channel second msg →
    sys.Waits channel second msg ∨ .send (peerOf channel (!second)) msg ∈ sent

/-- Nothing has happened to the channels. -/
theorem Grows.refl (sys : System) : Grows sys sys [] where
  owns := id
  waits := Or.inl

/-- What was sent in two turns was sent. -/
theorem Grows.trans {mid : System} {early late : List Effect} (first : Grows sys mid early)
    (later : Grows mid next late) : Grows sys next (early ++ late) where
  owns := fun owned => later.owns (first.owns owned)
  waits := by
    intro channel second msg waits
    -- What waits at the end was sent late, was sent early, or was there.
    rcases later.waits waits with before | sent
    · rcases first.waits before with before | sent
      · exact Or.inl before
      · exact Or.inr (List.mem_append_left _ sent)
    · exact Or.inr (List.mem_append_right _ sent)

/-- Only the channels are looked at. -/
theorem Grows.channels {sent : List Effect} (same : next.channels = sys.channels) :
    Grows sys next sent where
  owns := by
    -- Owners and messages are those of the same channels.
    rintro id channel second ⟨chan, at_, owner⟩
    exact ⟨chan, by rw [same]; exact at_, owner⟩
  waits := by
    rintro channel second msg ⟨chan, at_, mem⟩
    exact Or.inl ⟨chan, by rw [← same]; exact at_, mem⟩

end System

@[simp] theorem Channel.atEnd_mapEnd_self (chan : Channel) (second : Bool) (f : End → End) :
    (chan.mapEnd second f).atEnd second = f (chan.atEnd second) := by
  cases second <;> rfl

@[simp] theorem Channel.atEnd_mapEnd_other (chan : Channel) (second : Bool) (f : End → End) :
    (chan.mapEnd (!second) f).atEnd second = chan.atEnd second := by
  cases second <;> rfl

/-- Either end of a channel of which one was rewritten. -/
theorem Channel.atEnd_mapEnd (chan : Channel) (second side : Bool) (f : End → End) :
    (chan.mapEnd second f).atEnd side =
      if side = second then f (chan.atEnd side) else chan.atEnd side := by
  cases second <;> cases side <;> rfl

@[simp] theorem peerOf_channel (channel : Nat) (second : Bool) :
    peerOf channel second / 2 = channel := by
  show (2 * channel + cond second 1 0 : Nat) / 2 = channel
  -- The two ends of a channel have the even and the odd handle.
  cases second
  · show (2 * channel + 0) / 2 = channel
    omega
  · show (2 * channel + 1) / 2 = channel
    omega

@[simp] theorem peerOf_second (channel : Nat) (second : Bool) :
    decide (peerOf channel second % 2 = 1) = second := by
  cases second <;> simp [peerOf]

/-- Every handle is the one of an end. -/
theorem peerOf_self (peer : Nat) : peerOf (peer / 2) (peer % 2 = 1) = peer := by
  show 2 * (peer / 2) + cond (decide (peer % 2 = 1)) 1 0 = peer
  -- By the parity of the handle.
  rcases Nat.mod_two_eq_zero_or_one peer with even | odd
  · simp only [even, Nat.zero_ne_one, decide_false, cond_false]
    omega
  · simp only [odd, decide_true, cond_true]
    omega

namespace System

variable {sys next : System}

/-- A rewrite of one channel keeps the owners and adds to the ends only what was sent. -/
theorem Grows.mapChannel {peer : PeerId} {f : Channel → Bool → Channel} {sent : List Effect}
    (owners : ∀ chan side,
      ((f chan (peer % 2 = 1)).atEnd side).owner = (chan.atEnd side).owner)
    (inboxes : ∀ chan, sys.channels[peer / 2]? = some chan → ∀ side,
      ∀ msg ∈ ((f chan (peer % 2 = 1)).atEnd side).inbox,
      msg ∈ (chan.atEnd side).inbox ∨ side = !(peer % 2 = 1 : Bool) ∧ .send peer msg ∈ sent) :
    Grows sys (sys.mapChannel peer f) sent where
  owns := by
    -- The owners are those of the ends, which the rewrite keeps.
    rintro id channel second ⟨chan, at_, owner⟩
    by_cases here : peer / 2 = channel
    · refine ⟨f chan (peer % 2 = 1), ?_, (owners chan second).trans owner⟩
      simp [System.mapChannel, here, at_]
    · refine ⟨chan, ?_, owner⟩
      simp [System.mapChannel, here, at_]
  waits := by
    -- A message waits in the channel that was rewritten, or in another one.
    rintro channel second msg ⟨chan, at_, mem⟩
    by_cases here : peer / 2 = channel
    · obtain ⟨old, held, rfl⟩ : ∃ old, sys.channels[channel]? = some old ∧
          f old (peer % 2 = 1) = chan := by
        simpa [System.mapChannel, List.getElem?_modify, here] using at_
      rcases inboxes old (here ▸ held) second msg mem with before | ⟨far, sent⟩
      · exact Or.inl ⟨old, held, before⟩
      · right
        have same : peerOf channel (!second) = peer := by
          rw [far, Bool.not_not, ← here, peerOf_self]
        rw [same]
        exact sent
    · left
      have held : sys.channels[channel]? = some chan := by
        simpa [System.mapChannel, List.getElem?_modify, here] using at_
      exact ⟨chan, held, mem⟩

/-- Carrying out an effect changes no process. -/
@[simp] theorem carry_process (id : NodeId) (sys : System) (effect : Effect) :
    (carry id sys effect).process = sys.process := by
  cases effect <;> rfl

/-- Carrying out an effect puts on its way what the effect sends. -/
theorem carry_grows (id : NodeId) (sys : System) (effect : Effect) :
    Grows sys (carry id sys effect) [effect] := by
  -- Sending, watching and closing rewrite one channel, and no other effect touches any.
  cases effect with
  | send peer msg =>
    refine @Grows.mapChannel sys peer (fun channel second => channel.push second msg) _ ?_ ?_
    · intro chan side
      unfold Channel.push
      split
      · rw [Channel.atEnd_mapEnd]
        split <;> rfl
      · rfl
    · -- What is pushed comes to the other end, behind what waits there.
      intro chan _ side other mem
      unfold Channel.push at mem
      split at mem
      · rw [Channel.atEnd_mapEnd] at mem
        split at mem
        · rename_i far
          rcases List.mem_append.mp mem with mem | mem
          · exact Or.inl mem
          · obtain rfl := List.mem_singleton.mp mem
            exact Or.inr ⟨far, List.mem_singleton_self _⟩
        · exact Or.inl mem
      · exact Or.inl mem
  | watch peer =>
    refine @Grows.mapChannel sys peer (fun channel second =>
      channel.mapEnd second fun near => { near with watched := true }) _ ?_ ?_
    · intro chan side
      rw [Channel.atEnd_mapEnd]
      split <;> rfl
    · intro chan _ side other mem
      rw [Channel.atEnd_mapEnd] at mem
      split at mem <;> exact Or.inl mem
  | close peer =>
    refine @Grows.mapChannel sys peer (fun channel second =>
      channel.mapEnd second fun near => { near with closed := true }) _ ?_ ?_
    · intro chan side
      rw [Channel.atEnd_mapEnd]
      split <;> rfl
    · intro chan _ side other mem
      rw [Channel.atEnd_mapEnd] at mem
      split at mem <;> exact Or.inl mem
  | _ => exact .channels rfl

/-- Carrying out effects changes no process. -/
@[simp] theorem carries_process (id : NodeId) (effects : List Effect) (sys : System) :
    (effects.foldl (carry id) sys).process = sys.process := by
  induction effects generalizing sys with
  | nil => rfl
  | cons effect rest ih => exact (ih _).trans (carry_process id sys effect)

/-- Carrying out effects puts on its way what they send. -/
theorem carries_grows (id : NodeId) (effects : List Effect) (sys : System) :
    Grows sys (effects.foldl (carry id) sys) effects := by
  induction effects generalizing sys with
  | nil => exact .refl sys
  | cons effect rest ih => exact (carry_grows id sys effect).trans (ih _)

/-- The event that a step hands to a process, for its session if it has one. -/
def occasion (sys : System) : Step → Option (NodeId × Event)
  | .client id call => some (id, .client call)
  | .disconnect id => some (id, .disconnect)
  | .tick id => some (id, .sync)
  | .deliver channel second => do
    let chan ← sys.channels[channel]?
    let msg ← (chan.atEnd second).inbox.head?
    some ((chan.atEnd second).owner, .message (peerOf channel second) msg)
  | .complete attempt made => do
    let pending ← sys.attempts[attempt]?
    let chan := if made then some (peerOf sys.channels.length false) else none
    some (pending.owner, .connected pending.handle chan)
  | .eof channel second => do
    let chan ← sys.channels[channel]?
    some ((chan.atEnd second).owner, .drop (peerOf channel second))
  | .start _ _ | .cut _ | .crash _ => none

/-- An event comes from where a process is connected: a message was waiting, a channel is ours. -/
def Arrives (sys next : System) (id : NodeId) : Event → Prop
  | .message source msg => ∃ channel second, source = peerOf channel second ∧
      sys.Owns id channel second ∧ sys.Waits channel second msg
  | .connected _ (some peer) => ∃ channel, peer = peerOf channel false ∧
      next.Owns id channel false
  | _ => True

/-- What a step makes of the system, when it hands an event to a process or does not. -/
inductive Turn (sys next : System) : Option (NodeId × Event) → Prop where
  /-- No session is touched, though a process may crash. -/
  | idle {what} (nodes : ∀ id, (next.process id).node = (sys.process id).node)
      (past : ∀ id, (next.process id).past = (sys.process id).past)
      (lives : ∀ id, (next.process id).crashed = false → (sys.process id).crashed = false)
      (started : next.started = sys.started) (grows : Grows sys next []) : Turn sys next what
  | start {id : NodeId} {session : Uuid} (gone : (sys.process id).node = none)
      (once : sys.started = false)
      (made : next.process id = { sys.process id with node := some (paxosStart session id) })
      (others : ∀ other, other ≠ id → next.process other = sys.process other)
      (started : next.started = true) (grows : Grows sys next []) : Turn sys next none
  | greet {id : NodeId} {source : PeerId} {hdr : Header} {session : Uuid} {ibase : Nat}
      {alist : List PackedAcceptor} {ilist : List PackedInstance}
      (opcode : hdr.opcode = .welcome) (gone : (sys.process id).node = none)
      (arrives : Arrives sys next id (.message source ⟨hdr, .welcome session ibase alist ilist⟩))
      (made : next.process id = { sys.process id with
        node := some (acceptorAckWelcome source hdr session ibase alist ilist) })
      (others : ∀ other, other ≠ id → next.process other = sys.process other)
      (started : next.started = sys.started)
      (grows : Grows sys next (acceptorAckWelcome source hdr session ibase alist ilist).out) :
      Turn sys next (some (id, .message source ⟨hdr, .welcome session ibase alist ilist⟩))
  | handle {id : NodeId} {event : Event} {node : Node} {result : Result}
      (up : (sys.process id).crashed = false) (live : (sys.process id).node = some node)
      (arrives : Arrives sys next id event) (handles : Handles node event result)
      (made : next.process id = after (sys.process id) result)
      (others : ∀ other, other ≠ id → next.process other = sys.process other)
      (started : next.started = sys.started)
      (grows : Grows sys next (fresh node result)) : Turn sys next (some (id, event))

/-- A process is up and in the session. -/
def Live (sys : System) (id : NodeId) (node : Node) : Prop :=
  (sys.process id).crashed = false ∧ (sys.process id).node = some node

/-- A process has one session at most. -/
theorem Live.unique {id : NodeId} {node other : Node} (live : sys.Live id node)
    (also : sys.Live id other) : node = other :=
  Option.some.inj (live.2.symm.trans also.2)

/-- A session that is there while nobody does anything was there before. -/
theorem Live.idle {id : NodeId} {node : Node}
    (nodes : ∀ id, (next.process id).node = (sys.process id).node)
    (lives : ∀ id, (next.process id).crashed = false → (sys.process id).crashed = false)
    (live : next.Live id node) : sys.Live id node :=
  ⟨lives id live.1, (nodes id).symm.trans live.2⟩

/-- A session that is there when a process has entered one is that, or was there before. -/
theorem Live.entered {id other : NodeId} {node newcomer : Node}
    (made : next.process id = { sys.process id with node := some newcomer })
    (others : ∀ other, other ≠ id → next.process other = sys.process other)
    (live : next.Live other node) :
    other ≠ id ∧ sys.Live other node ∨ other = id ∧ node = newcomer := by
  obtain ⟨up, held⟩ := live
  -- The session is the one that was entered, if it is that process.
  by_cases same : other = id
  · rw [same, made] at held
    exact Or.inr ⟨same, (Option.some.inj held).symm⟩
  · rw [others other same] at up held
    exact Or.inl ⟨same, up, held⟩

/-- Where nobody was before, the one that has entered is the only one. -/
theorem Live.alone {id other : NodeId} {node newcomer : Node}
    (nobody : ∀ id, (sys.process id).node = none)
    (made : next.process id = { sys.process id with node := some newcomer })
    (others : ∀ other, other ≠ id → next.process other = sys.process other)
    (live : next.Live other node) : other = id ∧ node = newcomer := by
  rcases live.entered made others with ⟨-, before⟩ | only
  · exact absurd before.2 (by simp [nobody other])
  · exact only

/-- A session that is there after a handler has been left by it, or is that of another process. -/
theorem Live.handled {id other : NodeId} {node : Node} {result : Result}
    (made : next.process id = after (sys.process id) result)
    (others : ∀ other, other ≠ id → next.process other = sys.process other)
    (live : next.Live other node) :
    other ≠ id ∧ sys.Live other node ∨ other = id ∧ result = .ok node := by
  obtain ⟨up, held⟩ := live
  by_cases same : other = id
  · -- A stop leaves no session that is up.
    rw [same, made] at up held
    cases result with
    | ok last => exact Or.inr ⟨same, congrArg Outcome.ok (Option.some.inj held)⟩
    | stop reason halted => cases reason <;> contradiction
  · rw [others other same] at up held
    exact Or.inl ⟨same, up, held⟩

@[simp] theorem carry_started (id : NodeId) (sys : System) (effect : Effect) :
    (carry id sys effect).started = sys.started := by
  cases effect <;> rfl

@[simp] theorem carries_started (id : NodeId) (effects : List Effect) (sys : System) :
    (effects.foldl (carry id) sys).started = sys.started := by
  induction effects generalizing sys with
  | nil => rfl
  | cons effect rest ih => exact (ih _).trans (carry_started id sys effect)

@[simp] theorem setProcess_self (sys : System) (id : NodeId) (process : Process) :
    (sys.setProcess id process).process id = process := by
  simp [setProcess]

@[simp] theorem setProcess_other (sys : System) {id other : NodeId} (apart : other ≠ id)
    (process : Process) : (sys.setProcess id process).process other = sys.process other := by
  simp [setProcess, apart]

/-- What a process turns into is nothing that channels show. -/
theorem Grows.setProcess {sent : List Effect} (grows : Grows sys next sent) (id : NodeId)
    (process : Process) : Grows sys (next.setProcess id process) sent where
  owns := grows.owns
  waits := grows.waits

/-- What a process that reacts turns into, and what it sends. -/
theorem react_made {choice : Choice} {id : NodeId} {event : Event} {node : Node}
    (reacted : sys.react choice id event = some next) (live : (sys.process id).node = some node) :
    (sys.process id).crashed = false ∧
      next.process id = after (sys.process id)
        (handle choice.fuel { node with script := choice.script } event) ∧
      (∀ other, other ≠ id → next.process other = sys.process other) ∧
      next.started = sys.started ∧
      Grows sys next (fresh node
        (handle choice.fuel { node with script := choice.script } event)) := by
  -- The process has the state that its handler leaves, and the effects are carried out.
  unfold react run at reacted
  simp only [live] at reacted
  split at reacted
  · rename_i held up same
    obtain rfl := Option.some.inj same
    have made := Option.some.inj reacted
    generalize handle choice.fuel { node with script := choice.script } event = result at made ⊢
    have carried := carries_grows id (fresh node result)
      (sys.setProcess id (after (sys.process id) result))
    refine ⟨up, ?_, ?_, ?_, ?_⟩
    · rw [← made, carries_process, setProcess_self]
    · -- Carrying out effects touches channels, and no process.
      intro other apart
      rw [← made, carries_process, setProcess_other _ apart]
    · rw [← made, carries_started]
      rfl
    · rw [← made]
      exact ((Grows.refl sys).setProcess id _).trans carried
  · contradiction

/-- A process that reacts handles the event, wherever the channels have come to. -/
theorem react_turn {mid : System} {choice : Choice} {id : NodeId} {event : Event}
    (reacted : mid.react choice id event = some next) (processes : mid.process = sys.process)
    (started : mid.started = sys.started) (grows : Grows sys mid [])
    (arrives : ∀ {later sent}, Grows mid later sent → Arrives sys later id event) :
    Turn sys next (some (id, event)) := by
  -- Without a session nothing is handled.
  cases live : (mid.process id).node with
  | none => simp [react, run, live] at reacted
  | some node =>
    obtain ⟨up, made, others, later, carried⟩ := react_made reacted live
    rw [processes] at up live made others
    exact @Turn.handle sys next id event node _ up live (arrives carried)
      ⟨choice.fuel, choice.script, rfl⟩ made others (later.trans started) (grows.trans carried)

/-- A message that is handed over is no longer on its way. -/
theorem pop_grows {channel : Nat} {second : Bool} {chan : Channel} {msg : Msg} {rest : List Msg}
    (at_ : sys.channels[channel]? = some chan) (first : (chan.atEnd second).inbox = msg :: rest) :
    Grows sys (sys.mapChannel (peerOf channel second) fun chan second =>
      chan.mapEnd second fun near => { near with inbox := rest }) [] := by
  -- Only the inbox of one end is shorter.
  refine @Grows.mapChannel sys _ (fun chan second =>
    chan.mapEnd second fun near => { near with inbox := rest }) _ ?_ ?_
  · intro chan side
    rw [Channel.atEnd_mapEnd]
    split <;> rfl
  · intro other held side late mem
    rw [peerOf_channel] at held
    obtain rfl := Option.some.inj (at_.symm.trans held)
    rw [Channel.atEnd_mapEnd, peerOf_second] at mem
    -- What is left in the inbox was in it before.
    split at mem
    · rename_i here
      rw [here, first]
      exact Or.inl (List.mem_cons_of_mem _ mem)
    · exact Or.inl mem

/-- A delivery is a turn. -/
theorem deliver_turn {choice : Choice} {channel : Nat} {second : Bool}
    (delivered : sys.deliver choice channel second = some next) :
    Turn sys next (sys.occasion (.deliver channel second)) := by
  -- The channel exists and is not closed, and its end has a message.
  unfold deliver at delivered
  obtain ⟨chan, at_, delivered⟩ := Option.bind_eq_some_iff.mp delivered
  simp only at delivered
  split at delivered
  · contradiction
  · split at delivered
    · contradiction
    · rename_i msg rest first
      have grows := pop_grows at_ first
      have arrives : ∀ later, Arrives sys later (chan.atEnd second).owner
          (.message (peerOf channel second) msg) := by
        intro later
        refine ⟨channel, second, rfl, ⟨chan, at_, rfl⟩, chan, at_, ?_⟩
        rw [first]
        exact List.mem_cons_self
      have what : sys.occasion (.deliver channel second) =
          some ((chan.atEnd second).owner, .message (peerOf channel second) msg) := by
        simp [occasion, at_, first]
      rw [what]
      unfold receive at delivered
      simp only at delivered
      split at delivered
      · contradiction
      · split at delivered
        · exact react_turn delivered rfl rfl grows fun _ => arrives _
        · -- A process without a session takes a welcome, and drops whatever else comes.
          rename_i gone
          split at delivered
          · rename_i session ibase alist ilist opcode body
            obtain ⟨hdr, content⟩ := msg
            obtain rfl : content = .welcome session ibase alist ilist := body
            -- A welcome begins the session of the process.
            obtain made := Option.some.inj delivered
            refine .greet opcode gone (arrives _) ?_ ?_ ?_ ?_
            · rw [← made, carries_process, setProcess_self]
              rfl
            · intro other apart
              rw [← made, carries_process, setProcess_other _ apart]
              rfl
            · rw [← made, carries_started]
              rfl
            · rw [← made]
              exact (grows.setProcess _ _).trans (carries_grows _ _ _)
          · -- Any other message changes no process.
            obtain rfl := Option.some.inj delivered
            exact .idle (fun _ => rfl) (fun _ => rfl) (fun _ => id) rfl grows

/-- A channel that was just made carries nothing yet. -/
theorem link_grows {near far : NodeId} (linked : next.channels = sys.channels ++ [
    { fst := { owner := near, inbox := [], watched := false, closed := false }
      snd := { owner := far, inbox := [], watched := true, closed := false }
      up := true }]) : Grows sys next [] := by
  constructor
  · -- The channels that there were keep their places.
    rintro id channel second ⟨chan, held, owner⟩
    have inside : channel < sys.channels.length := (List.getElem?_eq_some_iff.mp held).1
    exact ⟨chan, by rw [linked, List.getElem?_append_left inside]; exact held, owner⟩
  · rintro channel second msg ⟨chan, held, mem⟩
    rw [linked] at held
    by_cases inside : channel < sys.channels.length
    · rw [List.getElem?_append_left inside] at held
      exact Or.inl ⟨chan, held, mem⟩
    · -- Only the new channel lies behind them, and its inboxes are empty.
      rw [List.getElem?_append_right (Nat.le_of_not_lt inside), List.getElem?_singleton] at held
      split at held
      · obtain rfl := Option.some.inj held
        cases second <;> contradiction
      · contradiction

/-- An end that is closed keeps what it has. -/
theorem close_grows (channel : Nat) (second : Bool) :
    Grows sys (sys.mapChannel (peerOf channel second) fun chan second =>
      chan.mapEnd second fun near => { near with closed := true }) [] := by
  -- The mark that is written hides nothing of what is on the channel.
  refine @Grows.mapChannel sys _ (fun chan second =>
    chan.mapEnd second fun near => { near with closed := true }) _ ?_ ?_
  · intro chan side
    rw [Channel.atEnd_mapEnd]
    split <;> rfl
  · intro chan _ side msg mem
    rw [Channel.atEnd_mapEnd] at mem
    split at mem <;> exact Or.inl mem

/-- The completion of a connection attempt is a turn. -/
theorem complete_turn {choice : Choice} {attempt : Nat} {made : Bool}
    (completed : sys.complete choice attempt made = some next) :
    Turn sys next (sys.occasion (.complete attempt made)) := by
  -- The attempt exists, and its owner is told of the channel or of the failure.
  unfold complete at completed
  obtain ⟨pending, at_, completed⟩ := Option.bind_eq_some_iff.mp completed
  have what : sys.occasion (.complete attempt made) = some (pending.owner, .connected
      pending.handle (if made then some (peerOf sys.channels.length false) else none)) := by
    simp [occasion, at_]
  rw [what]
  simp only at completed
  split at completed
  · split at completed
    · contradiction
    · rename_i made _
      rw [if_pos made]
      -- The event brings the channel that was just made.
      refine react_turn completed rfl rfl (link_grows rfl) ?_
      · intro later sent grows
        refine ⟨sys.channels.length, rfl, grows.owns ⟨{
          fst := { owner := pending.owner, inbox := [], watched := false, closed := false }
          snd := { owner := pending.desc, inbox := [], watched := true, closed := false }
          up := true }, ?_, rfl⟩⟩
        exact List.getElem?_concat_length
  · -- A failure makes no channel.
    rename_i made
    rw [if_neg made]
    exact react_turn completed rfl rfl (.channels rfl) fun _ => trivial

/-- The discovery of a drop is a turn. -/
theorem eof_turn {choice : Choice} {channel : Nat} {second : Bool}
    (found : sys.eof choice channel second = some next) :
    Turn sys next (sys.occasion (.eof channel second)) := by
  -- The end is closed, and its owner told if it has a session.
  unfold eof at found
  obtain ⟨chan, at_, found⟩ := Option.bind_eq_some_iff.mp found
  have what : sys.occasion (.eof channel second) =
      some ((chan.atEnd second).owner, .drop (peerOf channel second)) := by
    simp [occasion, at_]
  rw [what]
  have grows := @close_grows sys channel second
  simp only at found
  split at found
  · contradiction
  · split at found
    · contradiction
    · split at found
      · -- Nobody is told where nobody watches.
        obtain rfl := Option.some.inj found
        exact .idle (fun _ => rfl) (fun _ => rfl) (fun _ => id) rfl grows
      · exact react_turn found rfl rfl grows fun _ => trivial

/-- The loss of a connection loses what was on its way. -/
theorem cut_grows {channel : Nat} {chan : Channel} (at_ : sys.channels[channel]? = some chan) :
    Grows sys { sys with channels := sys.channels.set channel chan.cut } [] := by
  -- The owners of the channel stay, and its inboxes are emptied.
  have inside : channel < sys.channels.length := (List.getElem?_eq_some_iff.mp at_).1
  constructor
  · rintro id other second ⟨held, at_', owner⟩
    by_cases here : channel = other
    · subst here
      obtain rfl := Option.some.inj (at_.symm.trans at_')
      refine ⟨chan.cut, List.getElem?_set_self inside, ?_⟩
      rw [← owner]
      cases second <;> rfl
    · exact ⟨held, by rw [List.getElem?_set_ne here]; exact at_', owner⟩
  · rintro other second msg ⟨held, at_', mem⟩
    by_cases here : channel = other
    · subst here
      have same := at_'.symm.trans (List.getElem?_set_self inside)
      obtain rfl := Option.some.inj same
      cases second <;> contradiction
    · rw [List.getElem?_set_ne here] at at_'
      exact Or.inl ⟨held, at_', mem⟩

/-- A step is a turn. -/
theorem step_turn {choice : Choice} {step : Step} (stepped : sys.step choice step = some next) :
    Turn sys next (sys.occasion step) := by
  -- Each step is idle, starts the session, greets a newcomer or hands an event over.
  cases step with
  | start id session =>
    simp only [System.step] at stepped
    split at stepped
    · contradiction
    · rename_i able
      simp only [Bool.or_eq_true, not_or, Bool.not_eq_true, Option.isSome_eq_false_iff,
        Option.isNone_iff_eq_none] at able
      obtain rfl := Option.some.inj stepped
      refine @Turn.start sys _ id session able.2 able.1.1 (setProcess_self _ _ _) ?_ rfl
        (.channels rfl)
      intro other apart
      exact setProcess_other _ apart _
  -- The client, the timer and the end of a connection hand over their event at once.
  | client id call =>
    simp only [System.step] at stepped
    split at stepped
    · exact react_turn stepped rfl rfl (.refl sys) fun _ => trivial
    · contradiction
  | disconnect id => exact react_turn stepped rfl rfl (.refl sys) fun _ => trivial
  | tick id => exact react_turn stepped rfl rfl (.refl sys) fun _ => trivial
  | deliver channel second => exact deliver_turn stepped
  | complete attempt made => exact complete_turn stepped
  | cut channel =>
    simp only [System.step] at stepped
    split at stepped
    · rename_i chan at_
      split at stepped
      · obtain rfl := Option.some.inj stepped
        exact .idle (fun _ => rfl) (fun _ => rfl) (fun _ => id) rfl (cut_grows at_)
      · contradiction
    · contradiction
  | eof channel second => exact eof_turn stepped
  -- A crash takes the process out, and touches nobody else.
  | crash id =>
    simp only [System.step] at stepped
    split at stepped
    · contradiction
    · obtain rfl := Option.some.inj stepped
      refine .idle ?_ ?_ ?_ rfl (.channels rfl)
      · intro other
        by_cases same : other = id
        · rw [same, setProcess_self]
        · rw [setProcess_other _ same]
      · intro other
        by_cases same : other = id
        · rw [same, setProcess_self]
        · rw [setProcess_other _ same]
      · intro other up
        by_cases same : other = id
        · rw [same, setProcess_self] at up
          contradiction
        · rw [setProcess_other _ same] at up
          exact up

/-- What a step does to the channels and attempts before a session handles its event. -/
inductive Handover (sys : System) : Step → NodeId → Event → System → Prop where
  | client (id : NodeId) (call : ClientCall) :
      Handover sys (.client id call) id (.client call) sys
  | disconnect (id : NodeId) : Handover sys (.disconnect id) id .disconnect sys
  | tick (id : NodeId) : Handover sys (.tick id) id .sync sys
  | pop {channel : Nat} {second : Bool} {chan : Channel} {msg : Msg} {rest : List Msg}
      (held : sys.channels[channel]? = some chan)
      (first : (chan.atEnd second).inbox = msg :: rest) :
      Handover sys (.deliver channel second) (chan.atEnd second).owner
        (.message (peerOf channel second) msg)
        (sys.mapChannel (peerOf channel second) fun chan second =>
          chan.mapEnd second fun near => { near with inbox := rest })
  | link {attempt : Nat} {pending : Attempt} (held : sys.attempts[attempt]? = some pending) :
      Handover sys (.complete attempt true) pending.owner
        (.connected pending.handle (some (peerOf sys.channels.length false)))
        { sys with
          attempts := sys.attempts.eraseIdx attempt
          channels := sys.channels ++ [
            { fst := { owner := pending.owner, inbox := [], watched := false, closed := false }
              snd := { owner := pending.desc, inbox := [], watched := true, closed := false }
              up := true }] }
  | fail {attempt : Nat} {pending : Attempt} (held : sys.attempts[attempt]? = some pending) :
      Handover sys (.complete attempt false) pending.owner (.connected pending.handle none)
        { sys with attempts := sys.attempts.eraseIdx attempt }
  | close {channel : Nat} {second : Bool} {chan : Channel}
      (held : sys.channels[channel]? = some chan) :
      Handover sys (.eof channel second) (chan.atEnd second).owner (.drop (peerOf channel second))
        (sys.mapChannel (peerOf channel second) fun chan second =>
          chan.mapEnd second fun near => { near with closed := true })

namespace Handover

variable {mid : System} {step : Step} {id : NodeId} {event : Event}

/-- Before a session handles its event, no process has changed. -/
theorem process (handover : Handover sys step id event mid) : mid.process = sys.process := by
  cases handover <;> rfl

/-- Before a session handles its event, nothing was sent. -/
theorem grows (handover : Handover sys step id event mid) : Grows sys mid [] := by
  -- By the way the event comes: only a link makes a channel.
  cases handover with
  | client | disconnect | tick => exact .refl sys
  | pop held first => exact pop_grows held first
  | link => exact link_grows rfl
  | fail => exact .channels rfl
  | close => exact close_grows _ _

end Handover

/-- A process that is handed an event and has a session reacts, whatever became of channels. -/
theorem step_reacts {choice : Choice} {step : Step} {id : NodeId} {event : Event} {node : Node}
    (stepped : sys.step choice step = some next) (what : sys.occasion step = some (id, event))
    (up : (sys.process id).crashed = false) (live : (sys.process id).node = some node) :
    ∃ mid, Handover sys step id event mid ∧ mid.react choice id event = some next := by
  -- Up to the event, a step only takes a message, makes a channel or closes one.
  cases step with
  | client other call =>
    obtain ⟨rfl, rfl⟩ := Prod.mk.inj (Option.some.inj what)
    simp only [System.step] at stepped
    split at stepped
    · exact ⟨sys, .client _ _, stepped⟩
    · contradiction
  | disconnect other =>
    obtain ⟨rfl, rfl⟩ := Prod.mk.inj (Option.some.inj what)
    exact ⟨sys, .disconnect _, stepped⟩
  | tick other =>
    obtain ⟨rfl, rfl⟩ := Prod.mk.inj (Option.some.inj what)
    exact ⟨sys, .tick _, stepped⟩
  -- The message that is delivered is the event.
  | deliver channel second =>
    obtain ⟨chan, at_, stepped⟩ := Option.bind_eq_some_iff.mp stepped
    simp only at stepped
    split at stepped
    · contradiction
    · split at stepped
      · contradiction
      · rename_i msg rest first
        have same : sys.occasion (.deliver channel second) =
            some ((chan.atEnd second).owner, .message (peerOf channel second) msg) := by
          simp [occasion, at_, first]
        obtain ⟨rfl, rfl⟩ := Prod.mk.inj (Option.some.inj (same.symm.trans what))
        refine ⟨_, .pop at_ first, ?_⟩
        simpa [receive, System.mapChannel, up, live] using stepped
  -- A completed attempt makes its channel before the event.
  | complete attempt made =>
    obtain ⟨pending, at_, stepped⟩ := Option.bind_eq_some_iff.mp stepped
    cases made with
    | false =>
      have same : sys.occasion (.complete attempt false) =
          some (pending.owner, .connected pending.handle none) := by
        simp [occasion, at_]
      obtain ⟨rfl, rfl⟩ := Prod.mk.inj (Option.some.inj (same.symm.trans what))
      exact ⟨_, .fail at_, stepped⟩
    | true =>
      simp only [if_true] at stepped
      split at stepped
      · contradiction
      · have same : sys.occasion (.complete attempt true) = some (pending.owner,
            .connected pending.handle (some (peerOf sys.channels.length false))) := by
          simp [occasion, at_]
        obtain ⟨rfl, rfl⟩ := Prod.mk.inj (Option.some.inj (same.symm.trans what))
        exact ⟨_, .link at_, stepped⟩
  -- The end is closed before the event.
  | eof channel second =>
    obtain ⟨chan, at_, stepped⟩ := Option.bind_eq_some_iff.mp stepped
    have same : sys.occasion (.eof channel second) =
        some ((chan.atEnd second).owner, .drop (peerOf channel second)) := by
      simp [occasion, at_]
    obtain ⟨rfl, rfl⟩ := Prod.mk.inj (Option.some.inj (same.symm.trans what))
    simp only [up, live] at stepped
    split at stepped
    · contradiction
    · refine ⟨_, .close at_, ?_⟩
      simpa using stepped
  | start | cut | crash => contradiction

/-- Only a start begins the session. -/
theorem step_begins {choice : Choice} {step : Step} (stepped : sys.step choice step = some next)
    (nothing : sys.occasion step = none) (once : sys.started = false)
    (started : next.started = true) : ∃ id session, step = .start id session ∧
      (sys.process id).node = none ∧
      next.process id = { sys.process id with node := some (paxosStart session id) } ∧
      ∀ other, other ≠ id → next.process other = sys.process other := by
  -- All other steps hand an event to some process, or leave the session as it is.
  -- A start begins the session, and every other step leaves it as it was.
  cases step with
  | start id session =>
    simp only [System.step] at stepped
    split at stepped
    · contradiction
    · rename_i able
      simp only [Bool.or_eq_true, not_or, Bool.not_eq_true, Option.isSome_eq_false_iff,
        Option.isNone_iff_eq_none] at able
      obtain rfl := Option.some.inj stepped
      exact ⟨id, session, rfl, able.2, setProcess_self _ _ _,
        fun other apart => setProcess_other _ apart _⟩
  | cut channel =>
    simp only [System.step] at stepped
    split at stepped
    · split at stepped
      · obtain rfl := Option.some.inj stepped
        exact absurd (once.symm.trans started) (by simp)
      · contradiction
    · contradiction
  | crash id =>
    simp only [System.step] at stepped
    split at stepped
    · contradiction
    · obtain rfl := Option.some.inj stepped
      exact absurd (once.symm.trans started) (by simp)
  | deliver channel second =>
    obtain ⟨chan, at_, stepped⟩ := Option.bind_eq_some_iff.mp stepped
    simp only at stepped
    split at stepped
    · contradiction
    · split at stepped
      · contradiction
      · rename_i msg rest first
        simp [occasion, at_, first] at nothing
  | complete attempt made =>
    obtain ⟨pending, at_, stepped⟩ := Option.bind_eq_some_iff.mp stepped
    simp [occasion, at_] at nothing
  | eof channel second =>
    obtain ⟨chan, at_, stepped⟩ := Option.bind_eq_some_iff.mp stepped
    simp [occasion, at_] at nothing
  | client | disconnect | tick => contradiction

end System

end Motmot
