import Motmot.Logic.Stream
import Motmot.Logic.Watches
import Motmot.Types.Primitives

/-! The stream to a peer: its write buffer, and the watches of the main loop on its channel. -/

namespace Motmot

/-- What a channel is watched for. -/
inductive Watch where
  | read | write
  deriving DecidableEq, Repr

/-- What an operation on a channel reports. -/
inductive IoStatus where
  | error | normal | eof | again
  deriving DecidableEq, Repr

/-- A peer, with what has happened to its stream. -/
structure Peer where
  watches : Watches Watch
  writeBuffer : Bytes
  /-- The bytes that the channel has accepted. -/
  accepted : Bytes
  /-- The payloads that were sent, one behind the other. -/
  sent : Bytes
  /-- The end of file was read. -/
  eof : Bool
  /-- The peer was destroyed. -/
  freed : Bool
  deriving DecidableEq

/-- What the dispatch of a message that was read sends to the peer itself, and how it ends. -/
structure Reply where
  sends : List Bytes
  result : Int
  /-- Our identifier in the session that the message has selected. -/
  selfId : Nat
  deriving DecidableEq, Repr

/-- The dispatch of a message has failed in a session that we take part in. -/
def Reply.fails (reply : Reply) : Bool := reply.result ≠ 0 && reply.selfId ≠ 0

/-- One read off the channel, with the messages that it completes. -/
structure ReadRound where
  status : IoStatus
  replies : List Reply
  /-- Whether an acceptor has the peer, in case that its connection is dropped. -/
  attached : Bool
  deriving DecidableEq, Repr

/-- One write to the channel. -/
structure Writeout where
  status : IoStatus
  /-- How many bytes the channel accepts. -/
  bytesWritten : Nat
  /-- The rounds of a read, in case that one is tried and the channel has data. -/
  rounds : List ReadRound
  deriving DecidableEq, Repr

namespace Peer

/-- Sets up the peer of a channel. -/
def paxosPeerInit : Peer :=
  { watches := Watches.empty.add .read, writeBuffer := [], accepted := [], sent := []
    eof := false, freed := false }

/-- Destroys a peer. -/
def paxosPeerDestroy (peer : Peer) : Peer :=
  { peer with watches := peer.watches.clear, freed := true }

/-- Sends the contents of a buffer to a peer. -/
def paxosPeerSend (peer : Peer) (buffer : Bytes) : Peer :=
  -- An empty buffer means that we were not subscribed to write events.
  let peer := if peer.writeBuffer.length = 0 ∧ buffer.length > 0 then
      { peer with watches := peer.watches.add .write }
    else peer
  { peer with writeBuffer := peer.writeBuffer ++ buffer, sent := peer.sent ++ buffer }

/-- Dispatches the messages that a read has completed, until one fails. -/
def popObjects (peer : Peer) : List Reply → Bool × Peer
  | [] => (false, peer)
  | reply :: replies =>
    let peer := reply.sends.foldl paxosPeerSend peer
    if reply.fails then (true, peer) else popObjects peer replies

/-- Accounts for the end of the connection, which destroys the peer of an acceptor. -/
def dropConnection (peer : Peer) (attached : Bool) : Peer :=
  let peer := { peer with eof := true }
  if attached then peer.paxosPeerDestroy else peer

/-- The loop of the read callback, which goes on as long as the channel has data. -/
def readLoop (r : Bool) (peer : Peer) : List ReadRound → Bool × Peer
  | [] => (r, peer)
  | round :: rounds =>
    let popped := peer.popObjects round.replies
    let r := if popped.1 then false else r
    if round.status = .eof then (false, popped.2.dropConnection round.attached)
    else readLoop r popped.2 rounds

/-- Buffers data from a channel and dispatches its messages. -/
def paxosPeerRead (peer : Peer) (rounds : List ReadRound) : Bool × Peer := readLoop true peer rounds

/-- Writes data reliably to a peer. -/
def paxosPeerWrite (peer : Peer) (writeout : Writeout) : Bool × Peer :=
  if peer.writeBuffer.length = 0 then (true, peer)
  else
    let peer := { peer with
      accepted := peer.accepted ++ peer.writeBuffer.take writeout.bytesWritten
      writeBuffer := peer.writeBuffer.drop writeout.bytesWritten }
    -- The sources have one key, so the read watch goes with the write watch and is made anew.
    let peer := if peer.writeBuffer.length = 0 then
        { peer with watches := peer.watches.clear.add .read }
      else peer
    -- Nobody looks at what the read returns.
    if writeout.status = .eof then (false, (peer.paxosPeerRead writeout.rounds).2)
    else (true, peer)

/-- What happens to a peer. -/
inductive Event where
  | send (buffer : Bytes)
  /-- The main loop dispatches a read watch. -/
  | read (id : Nat) (rounds : List ReadRound)
  /-- The main loop dispatches a write watch. -/
  | write (id : Nat) (writeout : Writeout)
  deriving DecidableEq, Repr

/-- Leaves a source to the main loop, or removes it, by what its callback has returned. -/
def returned (id : Nat) (outcome : Bool × Peer) : Peer :=
  { outcome.2 with watches := outcome.2.watches.settle id outcome.1 }

/-- One event, if it can happen: a peer that was destroyed is not used, and only a source runs. -/
def step (peer : Peer) : Event → Option Peer
  | .send buffer => if peer.freed then none else some (peer.paxosPeerSend buffer)
  | .read id rounds =>
    -- The callback reads at least once.
    if peer.watches.kindOf id = some .read ∧ rounds ≠ [] then
      some (returned id (peer.paxosPeerRead rounds))
    else none
  | .write id writeout =>
    if peer.watches.kindOf id = some .write then some (returned id (peer.paxosPeerWrite writeout))
    else none

/-- The events of a run, one after the other. -/
def exec (peer : Peer) (events : List Event) : Option Peer := events.foldlM step peer

end Peer

/-- One read off the channel: what it reports and brings, and whether an acceptor has the peer. -/
structure Arrival where
  status : IoStatus
  bytes : Bytes
  attached : Bool
  deriving DecidableEq, Repr

/-- A peer whose stream is unpacked, with the bytes that were read and the objects in them. -/
structure Inbound (α : Type) where
  peer : Peer
  reader : Stream.Reader α UInt8
  arrived : Bytes

namespace Inbound

variable {α : Type} (unpacker : Stream.Unpacker α UInt8) (dispatch : List α → Reply)

/--
The rounds of the read callback, each of which dispatches the objects that it has made whole.

Behind a dispatch that fails the other objects stay in the unpacker, for the next round or read.
-/
def readRounds (reader : Stream.Reader α UInt8) :
    List Arrival → List ReadRound × Stream.Reader α UInt8 × Bytes
  | [] => ([], reader, [])
  | arrival :: rest =>
    let popped := reader.feedUntil unpacker dispatch Reply.fails arrival.bytes
    let round : ReadRound :=
      { status := arrival.status, replies := popped.1, attached := arrival.attached }
    if arrival.status = .eof then ([round], popped.2, arrival.bytes)
    else
      let later := readRounds popped.2 rest
      (round :: later.1, later.2.1, arrival.bytes ++ later.2.2)

/-- What happens to a peer whose stream is unpacked. -/
inductive Event where
  | send (buffer : Bytes)
  | read (id : Nat) (arrivals : List Arrival)
  | write (id : Nat) (status : IoStatus) (bytesWritten : Nat) (arrivals : List Arrival)
  deriving DecidableEq, Repr

/-- Sets up a peer and its unpacker. -/
def paxosPeerInit : Inbound α := { peer := Peer.paxosPeerInit, reader := .fresh, arrived := [] }

/-- One event, if it can happen to the peer. -/
def step (inbound : Inbound α) : Event → Option (Inbound α)
  | .send buffer => (inbound.peer.step (.send buffer)).map fun peer => { inbound with peer }
  | .read id arrivals =>
    let read := readRounds unpacker dispatch inbound.reader arrivals
    (inbound.peer.step (.read id read.1)).map fun peer =>
      { peer, reader := read.2.1, arrived := inbound.arrived ++ read.2.2 }
  | .write id status bytesWritten arrivals =>
    -- A write reads only if it has met the end of file.
    if inbound.peer.writeBuffer.length ≠ 0 ∧ status = .eof then
      let read := readRounds unpacker dispatch inbound.reader arrivals
      (inbound.peer.step (.write id ⟨status, bytesWritten, read.1⟩)).map fun peer =>
        { peer, reader := read.2.1, arrived := inbound.arrived ++ read.2.2 }
    else
      (inbound.peer.step (.write id ⟨status, bytesWritten, []⟩)).map fun peer =>
        { inbound with peer }

/-- The events of a run, one after the other. -/
def exec (inbound : Inbound α) (events : List Event) : Option (Inbound α) :=
  events.foldlM (step unpacker dispatch) inbound

end Inbound

end Motmot
