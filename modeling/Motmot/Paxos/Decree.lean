import Motmot.Paxos.Util

/-!
Decrees, prepares and requests at the proposer.

A decree that we alone carry is committed on the spot, and learning a commit can make new decrees.
The functions on that cycle take the commit function as an argument.
-/

namespace Motmot

/-- The commit function that a handler calls on an instance it holds a pointer to. -/
abbrev Commit := Node → Cell → Result

/-- Destroys the peer of an acceptor, if it has one. -/
def peerDestroy (node : Node) (peer : Option PeerId) : Node :=
  match peer with
  | some peer => node.emit (.close peer)
  | none => node

/-- Ends our participancy: the session is destroyed and the client told. -/
def paxosEnd (node : Node) : Result :=
  -- The destructors close every channel that an acceptor object still holds.
  let closed := (node.pax.alist ++ node.pax.adefer).foldl
    (fun node acc => peerDestroy node acc.peer) node
  .stop .ended (closed.emit .leave)

/-- An instance with the opcode of a commit in its header. -/
def markCommit (inst : Instance) : Instance := { inst with hdr.opcode := .commit }

/-- Modifies the header of an instance and broadcasts it as a commit message. -/
def announceCommit (node : Node) (cell : Cell) : Node :=
  let packed := markCommit cell.inst
  let noted := node.emit (.commit packed.hdr packed.val packed.votes)
  paxosBroadcastInstance (noted.modify cell.addr markCommit) packed

/-- Broadcasts a commit message for an instance and commits it ourselves. -/
def proposerCommit (commit : Commit) (node : Node) (cell : Cell) : Result :=
  commit (announceCommit node cell) { cell with inst := markCommit cell.inst }

/-- An instance rewritten as the decree of the next number, with everything but its value new. -/
def decreeOf (pax : Session) (inst : Instance) : Instance :=
  instanceInitMetadata { inst with hdr := headerInit pax .decree (nextInstance pax) }

/-- Inserts the decree of the next number and broadcasts it. -/
def announceDecree (node : Node) (inst : Instance) : Node :=
  paxosBroadcastInstance (instanceInsertAndUpstart node (decreeOf node.pax inst))
    (decreeOf node.pax inst)

/-- Broadcasts a decree of the next instance number. -/
def proposerDecree (commit : Commit) (node : Node) (inst : Instance) : Result :=
  let decree := decreeOf node.pax inst
  let sent := announceDecree node inst
  -- Alone we already are a majority.
  if decree.votes ≥ majority sent.pax then proposerCommit commit sent ⟨nextAddr node, decree⟩
  else .ok sent

/-- The instance of a part, or of a kill when forced, as `proposer_decree_part` allocates it. -/
def partInstance (pax : Session) (paxid : Nat) (force : Bool) : Instance :=
  { hdr := { session := 0, ballot := ⟨0, 0⟩, opcode := .prepare, inum := 0 }
    committed := false, cached := false, learned := false, votes := 0, rejects := 0
    val := { dkind := if force then .kill else .part
             reqid := ⟨pax.selfId, pax.reqId⟩
             extra := paxid } }

/-- The instance of a request, as `proposer_decree_request` allocates it. -/
def requestInstance (req : Request) : Instance :=
  { hdr := { session := 0, ballot := ⟨0, 0⟩, opcode := .prepare, inum := 0 }
    committed := false, cached := false, learned := false, votes := 0, rejects := 0
    val := req.val }

/-- Decrees an instance, or defers it while a prepare is running. -/
def decreeOrDefer (commit : Commit) (node : Node) (inst : Instance) : Result :=
  if node.pax.prep.isSome then .ok (node.setIdefer (node.pax.idefer ++ [inst]))
  else proposerDecree commit node inst

/-- Decrees a part, deferring as necessary. -/
def proposerDecreePart (commit : Commit) (node : Node) (acc : Acceptor) (force : Bool) : Result :=
  let counted := node.bumpReqId
  decreeOrDefer commit counted (partInstance counted.pax acc.paxid force)

/-- Decrees a request, deferring as necessary. -/
def proposerDecreeRequest (commit : Commit) (node : Node) (req : Request) : Result :=
  decreeOrDefer commit node (requestInstance req)

/-- Defers a part or a kill for every dropped acceptor in a list. -/
def decreeDropped (commit : Commit) : Node → List Acceptor → Result
  | node, [] => .ok node
  | node, acc :: rest =>
    -- Only dropped acceptors are parted, and never ourselves.
    if acc.peer.isSome || acc.paxid = node.pax.selfId then decreeDropped commit node rest
    else
      -- Higher-ranked acceptors are killed, lower-ranked ones parted.
      (proposerDecreePart commit node acc (acc.paxid < node.pax.selfId)).andThen
        fun node => decreeDropped commit node rest

/-- The state of a prepare that starts now. -/
def newPrep (pax : Session) : Prep :=
  { ballot := ⟨pax.selfId, paxidSucc pax.genHigh⟩, acks := 1, redirects := 0
    istart := pax.istart }

/-- Starts a new prepare under the next generation. -/
def beginPrepare (node : Node) : Node :=
  (node.setGenHigh (newPrep node.pax).ballot.gen).setPrep (some (newPrep node.pax))

/-- The message that asks for promises to a ballot. -/
def prepareMsg (pax : Session) (ballot : Ballot) : Msg :=
  { hdr := { session := pax.sessionId, ballot := ballot, opcode := .prepare, inum := pax.ihole }
    body := .empty }

/-- Broadcasts a prepare message, or ends the session when a majority is disconnected. -/
def proposerPrepare (commit : Commit) (node : Node) (oldProposer : Bool) : Result :=
  if node.pax.prep.isSome then node.fail .prepareNotPreparing
  else if node.pax.liveCount < majority node.pax then paxosEnd node
  else
    let begun := beginPrepare node
    -- A re-prepare passes no old proposer and keeps the parts that it deferred before.
    (if oldProposer then decreeDropped commit begun begun.pax.alist else .ok begun).andThen
      fun mid => .ok (paxosBroadcast mid (prepareMsg mid.pax (newPrep node.pax).ballot))

/-- Requests that the proposer make a decree for us. -/
def paxosRequest (commit : Commit) (node : Node) (call : ClientCall) : Result :=
  match node.pax.proposer with
  | none => node.undefined
  | some proposer =>
    let needsCached := requestNeedsCached call.dkind
    let hdr := headerInit node.pax .request proposer
    let req : Request :=
      { val := { dkind := call.dkind, reqid := ⟨node.pax.selfId, node.pax.reqId + 1⟩, extra := 0 }
        data := call.data }
    let counted := node.bumpReqId
    let kept := if needsCached then counted.setRcache (requestInsert counted.pax.rcache req)
      else counted
    let msg : Msg := { hdr := hdr, body := .request req }
    -- Requests with data go to everyone; others only to the proposer, unless that is us.
    (if needsCached then .ok (paxosBroadcast kept msg)
      else if isProposer kept.pax then .ok kept
      else paxosSendToProposer kept msg).andThen fun sent =>
        if isProposer sent.pax then proposerDecreeRequest commit sent req else .ok sent

end Motmot
