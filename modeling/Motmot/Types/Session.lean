import Motmot.Types.Core

/-! Participants, instances, requests, and the state of one chat session. -/

namespace Motmot

/-- A Paxos protocol participant. -/
structure Acceptor where
  /-- Instance number of the participant's join. -/
  paxid : Nat
  /-- Channel to the participant, when one is attached. -/
  peer : Option PeerId
  /-- Opaque descriptor used to connect to the participant. -/
  desc : Bytes
  deriving DecidableEq, Repr

/-- An instance of the synod algorithm. -/
structure Instance where
  hdr : Header
  committed : Bool
  cached : Bool
  learned : Bool
  votes : Nat
  rejects : Nat
  val : Value
  deriving DecidableEq, Repr

/-- Resets the metadata fields of an instance, marking one vote. -/
def instanceInitMetadata (inst : Instance) : Instance :=
  { inst with committed := false, cached := false, learned := false, votes := 1, rejects := 0 }

/-- An allocated instance; the protocol aliases instances by address. -/
structure Cell where
  addr : Addr
  inst : Instance
  deriving DecidableEq, Repr

/-- The instance number of an allocated instance. -/
abbrev Cell.inum (cell : Cell) : Nat := cell.inst.hdr.inum

/--
An allocation that is not on the instance list, with the link it still carries.

Removing an element from a list leaves its own links in place, and a fresh one has none.
-/
structure Detached where
  cell : Cell
  next : Option Addr
  deriving DecidableEq, Repr

/-- The instance list, together with the allocations that cursors may alias outside it. -/
structure Ilist where
  /-- The elements of the list in order. -/
  cells : List Cell
  /-- Allocations outside the list that have not been freed. -/
  limbo : List Detached
  /-- First address never handed out. -/
  brk : Addr
  deriving DecidableEq, Repr

/-- A request with its data, waiting for a commit. -/
structure Request where
  val : Value
  data : Bytes
  deriving DecidableEq, Repr

/-- What a pending connection attempt continues with. -/
inductive Purpose where
  | welcome
  | ackWelcome
  | ackRedirect
  | ackRefuse (req : Value)
  | ackReject (inum : Nat)
  deriving DecidableEq, Repr

/-- A continuation handed to the client along with a connection attempt. -/
structure Continuation where
  /-- Identity of the allocated object. -/
  handle : Nat
  purpose : Purpose
  /-- The acceptor being connected to. -/
  paxid : Nat
  deriving DecidableEq, Repr

/-- Preparation state used by new proposers. -/
structure Prep where
  ballot : Ballot
  acks : Nat
  redirects : Nat
  /-- Cursor cached from the session when the prepare began. -/
  istart : Option Addr
  deriving DecidableEq, Repr

/-- State of a log synchronization at the proposer. -/
structure Sync where
  total : Nat
  acks : Nat
  skips : Nat
  last : Nat
  deriving DecidableEq, Repr

/-- The state of one session. -/
structure Session where
  sessionId : Uuid
  selfId : Nat
  reqId : Nat
  /-- The acceptor we think is the proposer, aliased by its identifier. -/
  proposer : Option Nat
  ballot : Ballot
  genHigh : Nat
  prep : Option Prep
  syncId : Nat
  syncPrev : Nat
  sync : Option Sync
  liveCount : Nat
  alist : List Acceptor
  adefer : List Acceptor
  clist : List Continuation
  ilist : Ilist
  idefer : List Instance
  rcache : List Request
  ibase : Nat
  /-- Number of the first instance not yet learned. -/
  ihole : Nat
  /-- Cursor to the last instance not past the hole; `none` aliases the list head itself. -/
  istart : Option Addr
  /-- Handle of the next continuation to be allocated. -/
  nextHandle : Nat
  deriving DecidableEq, Repr

end Motmot
