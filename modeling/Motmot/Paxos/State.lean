import Motmot.Containers.Ilist
import Motmot.Types.Message
import Motmot.Logic.Outcome

/-! The state that handlers of one session run on, and the elementary writes to it. -/

namespace Motmot

/-- The assertions of the source that depend on the state of the session. -/
inductive Assertion where
  | prepareNotPreparing
  | promiseCursor
  | acceptBallot
  | decreeProposer
  | decreeCommittedValue
  | commitPastHole
  | commitHoleUncached
  | commitAtHole
  | learnOnce
  | learnCached
  | learnSender
  | redirectRank
  | redirectDropped
  | redirectDemoted
  | refuseDropped
  | rejectBallot
  | rejectPart
  | rejectDropped
  | retrieveKind
  | retryKnown
  | truncateForward
  /-- Checks of the shape of a payload. -/
  | shape
  deriving DecidableEq, Repr

/-- How the client returns from a callback. -/
inductive Return where
  /-- The session that made the callback is current, as it was. -/
  | here
  /-- The last call that the client made was on another session. -/
  | elsewhere (session : Addr)
  /-- The last call that the client made ended a session. -/
  | ended
  deriving DecidableEq, Repr

/-- Why a node stops. -/
inductive Stop where
  /-- A failed assertion aborts the process. -/
  | failed (which : Assertion)
  /-- A null, freed or misused pointer: the source gives the step no meaning. -/
  | undefined
  /-- The session was ended. -/
  | ended
  /-- The steps allowed for a loop ran out. -/
  | diverged
  /--
  An instance that was taken off the instance list is linked behind, or swapped out again.

  The source goes on with the links that the instance still carries. What they lead to then need
  not be one list any more, and the instance list here is one, so it follows the source up to here.
  -/
  | unlinked
  /-- A callback did not return to the session, and the rest of the handler runs on another one. -/
  | away (back : Return)
  deriving DecidableEq, Repr

/-- What a handler does to the outside, and the calls that claims speak about. -/
inductive Effect where
  | send (peer : PeerId) (msg : Msg)
  /-- The client is asked for a connection, with the continuation it should invoke. -/
  | connect (handle : Nat) (desc : Bytes)
  /-- A peer is set up on a channel and watched for messages. -/
  | watch (peer : PeerId)
  /-- A peer is destroyed along with its channel. -/
  | close (peer : PeerId)
  /-- `proposer_commit` runs on an instance of this header, value and vote count. -/
  | commit (hdr : Header) (val : Value) (votes : Nat)
  /-- `paxos_learn` runs on an instance of this number and value. -/
  | learn (inum : Nat) (val : Value)
  | chat (data desc : Bytes)
  | join (data desc : Bytes)
  | part (desc : Bytes)
  | enter
  | leave
  deriving DecidableEq, Repr

/-- A call that the client makes into the session. -/
structure ClientCall where
  dkind : DKind
  data : Bytes
  deriving DecidableEq, Repr

/-- What the client does from one callback: its calls into the session, and how it returns. -/
structure Visit where
  calls : List ClientCall
  back : Return
  deriving DecidableEq, Repr

/-- A session as its handlers see it. -/
structure Node where
  pax : Session
  /-- Everything done to the outside so far. -/
  out : List Effect
  /-- What the client does from its coming callbacks, one entry a callback. -/
  script : List Visit
  deriving DecidableEq, Repr

/-- The outcome of a handler of one session. -/
abbrev Result := Outcome Stop Node

/-- Aborts on a failed assertion. -/
abbrev Node.fail (node : Node) (which : Assertion) : Result := .stop (.failed which) node

/-- Stops where the source leaves the behaviour undefined. -/
abbrev Node.undefined (node : Node) : Result := .stop .undefined node

/-- Stops where the source goes on with an instance that is not on the list. -/
abbrev Node.unlinked (node : Node) : Result := .stop .unlinked node

namespace Node

/-- Records an effect. -/
def emit (node : Node) (effect : Effect) : Node :=
  { node with out := node.out ++ [effect] }

/-- Counts a new request of our own. -/
def bumpReqId (node : Node) : Node :=
  { node with pax.reqId := node.pax.reqId + 1 }

/-- Aliases the proposer. -/
def setProposer (node : Node) (paxid : Nat) : Node :=
  { node with pax.proposer := some paxid }

/-- Sets the current ballot. -/
def setBallot (node : Node) (ballot : Ballot) : Node :=
  { node with pax.ballot := ballot }

/-- Sets the high water mark of generations. -/
def setGenHigh (node : Node) (gen : Nat) : Node :=
  { node with pax.genHigh := gen }

/-- Sets or frees the prepare. -/
def setPrep (node : Node) (prep : Option Prep) : Node :=
  { node with pax.prep := prep }

/-- Sets or frees the sync. -/
def setSync (node : Node) (sync : Option Sync) : Node :=
  { node with pax.sync := sync }

/-- Writes the live count. -/
def setLiveCount (node : Node) (count : Nat) : Node :=
  { node with pax.liveCount := count }

/-- Attaches a channel to an acceptor, or detaches the one it has. -/
def setPeer (node : Node) (paxid : Nat) (peer : Option PeerId) : Node :=
  { node with
    pax.alist := node.pax.alist.map fun acc =>
      if acc.paxid = paxid then { acc with peer := peer } else acc }

/-- Replaces the acceptor list. -/
def setAlist (node : Node) (alist : List Acceptor) : Node :=
  { node with pax.alist := alist }

/-- Replaces the list of deferred hellos. -/
def setAdefer (node : Node) (adefer : List Acceptor) : Node :=
  { node with pax.adefer := adefer }

/-- Replaces the instance list. -/
def setIlist (node : Node) (ilist : Ilist) : Node :=
  { node with pax.ilist := ilist }

/-- Writes one instance. -/
def modify (node : Node) (addr : Addr) (f : Instance → Instance) : Node :=
  node.setIlist (node.pax.ilist.modify addr f)

/-- Moves the learning cursor. -/
def setIstart (node : Node) (istart : Option Addr) : Node :=
  { node with pax.istart := istart }

/-- Advances past an instance that was learned. -/
def bumpIhole (node : Node) : Node :=
  { node with pax.ihole := node.pax.ihole + 1 }

/-- Replaces the list of deferred instances. -/
def setIdefer (node : Node) (idefer : List Instance) : Node :=
  { node with pax.idefer := idefer }

/-- Replaces the request cache. -/
def setRcache (node : Node) (rcache : List Request) : Node :=
  { node with pax.rcache := rcache }

/-- Replaces the list of pending continuations. -/
def setClist (node : Node) (clist : List Continuation) : Node :=
  { node with pax.clist := clist }

/-- The instance at an address, unless it was freed. -/
abbrev inst? (node : Node) (addr : Addr) : Option Instance := node.pax.ilist.inst? addr

/-- Allocates a continuation and asks the client to connect. -/
def connect (node : Node) (purpose : Purpose) (acc : Acceptor) : Node :=
  ({ node with
    pax.clist := node.pax.clist ++
      [{ handle := node.pax.nextHandle, purpose := purpose, paxid := acc.paxid }]
    pax.nextHandle := node.pax.nextHandle + 1 } : Node).emit
    (.connect node.pax.nextHandle acc.desc)

end Node

end Motmot
