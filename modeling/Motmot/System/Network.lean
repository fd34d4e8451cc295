import Motmot.Paxos.Dispatch

/-! Nodes running the protocol for one session, and the channels between them. -/

namespace Motmot

/-- Nodes are named by the descriptors that the clients connect to. -/
abbrev NodeId := Bytes

/-- The state of a process. -/
structure Process where
  /-- The session, while the process is in it or where it was when it crashed. -/
  node : Option Node
  /-- The effects of each session that has ended, in order. -/
  past : List (List Effect)
  crashed : Bool
  deriving DecidableEq, Repr

/-- What a process has done in each of its sessions, the one that it is in last. -/
def Process.sessions (process : Process) : List (List Effect) :=
  process.past ++ (process.node.map Node.out).toList

/-- Everything that a process has ever done. -/
def Process.history (process : Process) : List Effect :=
  process.past.flatten ++ (process.node.map Node.out).getD []

/-- One end of a channel. -/
structure End where
  owner : NodeId
  /-- Messages on their way to this end. -/
  inbox : List Msg
  /-- Whether the end has a peer that watches it. -/
  watched : Bool
  /-- Whether the end was closed by its owner. -/
  closed : Bool
  deriving DecidableEq, Repr

/-- A FIFO channel between two ends. -/
structure Channel where
  fst : End
  snd : End
  /-- Whether the connection still holds. -/
  up : Bool
  deriving DecidableEq, Repr

/-- A connection attempt that the client has not answered yet. -/
structure Attempt where
  owner : NodeId
  handle : Nat
  desc : Bytes
  deriving DecidableEq, Repr

/-- The state of the whole system. -/
structure System where
  process : NodeId → Process
  channels : List Channel
  attempts : List Attempt
  /-- Whether the session was started. -/
  started : Bool

/-- The system before anything has happened. -/
def System.init : System :=
  { process := fun _ => { node := none, past := [], crashed := false }
    channels := []
    attempts := []
    started := false }

/-- The peer handle of an end: channels are numbered, and their ends are even and odd. -/
def peerOf (channel : Nat) (second : Bool) : PeerId := 2 * channel + cond second 1 0

namespace Channel

/-- One of the two ends. -/
def atEnd (channel : Channel) (second : Bool) : End :=
  cond second channel.snd channel.fst

/-- Rewrites one of the two ends. -/
def mapEnd (channel : Channel) (second : Bool) (f : End → End) : Channel :=
  cond second { channel with snd := f channel.snd } { channel with fst := f channel.fst }

/-- A message goes onto a connection whose ends are both open, and is lost otherwise. -/
def push (channel : Channel) (second : Bool) (msg : Msg) : Channel :=
  if channel.up && !channel.fst.closed && !channel.snd.closed then
    channel.mapEnd (!second) fun far => { far with inbox := far.inbox ++ [msg] }
  else channel

/-- The loss of a connection loses what was undelivered. -/
def cut (channel : Channel) : Channel :=
  { fst := { channel.fst with inbox := [] }, snd := { channel.snd with inbox := [] }, up := false }

end Channel

/-- The invitations and chats that the client interface offers. -/
def ClientCall.offered (call : ClientCall) : Bool :=
  call.dkind = .chat || call.dkind = .join

namespace System

/-- Replaces the state of one process. -/
def setProcess (sys : System) (id : NodeId) (process : Process) : System :=
  { sys with process := fun other => if other = id then process else sys.process other }

/-- Rewrites the channel that a peer handle belongs to. -/
def mapChannel (sys : System) (peer : PeerId) (f : Channel → Bool → Channel) : System :=
  { sys with channels := sys.channels.modify (peer / 2) fun channel => f channel (peer % 2 = 1) }

/-- Carries one effect of a process out into the system. -/
def carry (id : NodeId) (sys : System) : Effect → System
  | .send peer msg => sys.mapChannel peer fun channel second => channel.push second msg
  | .connect handle desc =>
    { sys with attempts := sys.attempts ++ [{ owner := id, handle := handle, desc := desc }] }
  | .watch peer =>
    sys.mapChannel peer fun channel second =>
      channel.mapEnd second fun near => { near with watched := true }
  | .close peer =>
    sys.mapChannel peer fun channel second =>
      channel.mapEnd second fun near => { near with closed := true }
  -- What is told to the client changes nothing between the nodes.
  | _ => sys

/-- The process after a handler: a stop either ends the session or takes the process down. -/
def after (process : Process) : Result → Process
  | .ok node => { process with node := some node }
  | .stop .ended node => { node := none, past := process.past ++ [node.out], crashed := false }
  | .stop _ node => { process with node := some node, crashed := true }

/-- Lets a live process run a handler on its session, and carries out what is new. -/
def run (sys : System) (id : NodeId) (handler : Node → Result) : Option System :=
  let process := sys.process id
  match process.crashed, process.node with
  | false, some node =>
    let result := handler node
    -- The effects of earlier handlers have been carried out before.
    let fresh := result.state.out.drop node.out.length
    some (fresh.foldl (carry id) (sys.setProcess id (after process result)))
  | _, _ => none

/-- A step of the system. -/
inductive Step where
  /-- A client starts the session. -/
  | start (id : NodeId) (session : Uuid)
  /-- The client of a node sends a chat or invites somebody. -/
  | client (id : NodeId) (call : ClientCall)
  /-- The client of a node disconnects. -/
  | disconnect (id : NodeId)
  /-- The sync timer of a node ticks. -/
  | tick (id : NodeId)
  /-- The first message on its way to an end is handled there. -/
  | deliver (channel : Nat) (second : Bool)
  /-- A connection attempt completes with a channel, or with none. -/
  | complete (attempt : Nat) (made : Bool)
  /-- A connection drops. -/
  | cut (channel : Nat)
  /-- An end finds that its connection is gone. -/
  | eof (channel : Nat) (second : Bool)
  /-- A node crashes. -/
  | crash (id : NodeId)
  deriving DecidableEq, Repr

/-- What a step leaves open: the bound on loops, and what the client does from callbacks. -/
structure Choice where
  fuel : Nat
  script : List Visit
  deriving DecidableEq, Repr

/-- Lets a process handle an event of its session. -/
def react (sys : System) (choice : Choice) (id : NodeId) (event : Event) : Option System :=
  sys.run id fun node => handle choice.fuel { node with script := choice.script } event

/-- Hands a message to the process at an end: a session handles it, a welcome makes one. -/
def receive (sys : System) (choice : Choice) (id : NodeId) (source : PeerId) (msg : Msg) :
    Option System :=
  let process := sys.process id
  -- A process that is down takes nothing.
  if process.crashed then none
  else
    match process.node with
    | some _ => sys.react choice id (.message source msg)
    | none =>
      match msg.hdr.opcode, msg.body with
      | .welcome, .welcome session ibase alist ilist =>
        let node := acceptorAckWelcome source msg.hdr session ibase alist ilist
        some (node.out.foldl (carry id) (sys.setProcess id { process with node := some node }))
      -- Any other message finds no session and is dropped.
      | _, _ => some sys

/-- Delivers the first message on its way to an end that is watched. -/
def deliver (sys : System) (choice : Choice) (channel : Nat) (second : Bool) : Option System := do
  let chan ← sys.channels[channel]?
  let near := chan.atEnd second
  -- Nobody reads from an end that has no peer, or none any more.
  if !near.watched || near.closed then none
  else
    match near.inbox with
    | [] => none
    | msg :: rest =>
      -- The message is off the connection before it is handled.
      let popped := sys.mapChannel (peerOf channel second) fun chan second =>
        chan.mapEnd second fun near => { near with inbox := rest }
      popped.receive choice near.owner (peerOf channel second) msg

/-- Completes a connection attempt, which makes a channel to a process that is up. -/
def complete (sys : System) (choice : Choice) (attempt : Nat) (made : Bool) : Option System := do
  let pending ← sys.attempts[attempt]?
  let rest : System := { sys with attempts := sys.attempts.eraseIdx attempt }
  if made then
    -- Nobody accepts a connection for a process that is down.
    if (sys.process pending.desc).crashed then none
    else
      let channel := sys.channels.length
      -- The end that has connected is watched only once its continuation makes a peer of it.
      let near : End := { owner := pending.owner, inbox := [], watched := false, closed := false }
      let far : End := { owner := pending.desc, inbox := [], watched := true, closed := false }
      let linked : System :=
        { rest with channels := rest.channels ++ [{ fst := near, snd := far, up := true }] }
      linked.react choice pending.owner (.connected pending.handle (some (peerOf channel false)))
  -- The continuation of an attempt that fails gets no channel.
  else rest.react choice pending.owner (.connected pending.handle none)

/-- Lets an end find that its connection dropped, or that the far end closed it. -/
def eof (sys : System) (choice : Choice) (channel : Nat) (second : Bool) : Option System := do
  let chan ← sys.channels[channel]?
  let near := chan.atEnd second
  let far := chan.atEnd (!second)
  let gone := !chan.up || far.closed || (sys.process far.owner).crashed
  -- What came in is read before an end finds that its connection is gone.
  if !near.watched || near.closed || !near.inbox.isEmpty || !gone then none
  else
    let closed := sys.mapChannel (peerOf channel second) fun chan second =>
      chan.mapEnd second fun near => { near with closed := true }
    if (sys.process near.owner).crashed then none
    -- Without a session there is nobody to tell.
    else if (sys.process near.owner).node.isNone then some closed
    else closed.react choice near.owner (.drop (peerOf channel second))

/-- One step of the system, or nothing where the step is not possible. -/
def step (sys : System) (choice : Choice) : Step → Option System
  | .start id session =>
    -- One session is started, by a process that is in none.
    if sys.started || (sys.process id).crashed || (sys.process id).node.isSome then none
    else
      some { sys.setProcess id { sys.process id with node := some (paxosStart session id) } with
        started := true }
  | .client id call =>
    if call.offered then sys.react choice id (.client call) else none
  | .disconnect id => sys.react choice id .disconnect
  | .tick id => sys.react choice id .sync
  | .deliver channel second => sys.deliver choice channel second
  | .complete attempt made => sys.complete choice attempt made
  | .cut channel =>
    match sys.channels[channel]? with
    | some chan =>
      if chan.up then some { sys with channels := sys.channels.set channel chan.cut } else none
    | none => none
  | .eof channel second => sys.eof choice channel second
  | .crash id =>
    if (sys.process id).crashed then none
    else some (sys.setProcess id { sys.process id with crashed := true })

end System

/-- Runs a list of steps, with the same choices for each. -/
def System.exec (choice : System.Choice) : System → List System.Step → Option System
  | sys, [] => some sys
  | sys, step :: steps => (sys.step choice step).bind fun sys => sys.exec choice steps

/-- The states that some run reaches. -/
inductive System.Reachable : System → Prop where
  | init : Reachable System.init
  | step {sys next : System} (choice : System.Choice) (step : System.Step) :
    Reachable sys → sys.step choice step = some next → Reachable next

end Motmot
