import Motmot.Paxos.Greet

/-! Dispatch of messages, drops, connections and client calls to the handlers of a session. -/

namespace Motmot

/-- Decrees a kill for the sender of a message that only a proposer may send. -/
def proposerForceKill (fuel : Nat) (node : Node) (source : PeerId) : Result :=
  match node.pax.alist.find? fun acc => acc.peer = some source with
  | some acc => proposerDecreePart (paxosCommit fuel) node acc true
  | none => .ok node

/-- Processes a message as the self-determined proposer. -/
def proposerDispatch (fuel : Nat) (node : Node) (source : PeerId) (msg : Msg) : Result :=
  let kill := proposerForceKill fuel node source
  match msg.hdr.opcode, msg.body with
  | .prepare, _ | .decree, _ | .commit, _ | .welcome, _ => kill
  | .promise, _ => proposerAckPromise fuel node msg
  | .accept, _ => proposerAckAccept fuel node msg.hdr
  | .request, .request req => proposerAckRequest fuel node msg.hdr req
  | .retrieve, .retrieve paxid val => paxosAckRetrieve node msg.hdr paxid val
  | .resend, .request req => paxosAckResend fuel node msg.hdr req
  | .hello, _ => paxosAckHello node source msg.hdr
  | .redirect, _ => proposerAckRedirect fuel node msg
  -- The case of a refuse has no break and runs on into the one of a reject.
  | .refuse, _ => kill.andThen fun node => proposerAckReject node msg.hdr
  | .reject, _ => proposerAckReject node msg.hdr
  | .retry, _ => proposerAckRetry node msg.hdr
  | .recommit, _ | .sync, _ | .truncate, _ => kill
  | .last, .paxid last => proposerAckLast node msg.hdr last
  | .request, _ | .retrieve, _ | .resend, _ | .last, _ => node.fail .shape

/-- Processes a message as an acceptor. -/
def acceptorDispatch (fuel : Nat) (node : Node) (source : PeerId) (msg : Msg) : Result :=
  match msg.hdr.opcode, msg.body with
  | .prepare, _ => acceptorAckPrepare node source msg.hdr
  | .decree, .value val => acceptorAckDecree node msg.hdr val
  | .commit, .value val => acceptorAckCommit fuel node msg.hdr val
  | .request, .request req => acceptorAckRequest node source msg.hdr req
  | .retrieve, .retrieve paxid val => paxosAckRetrieve node msg.hdr paxid val
  | .resend, .request req => paxosAckResend fuel node msg.hdr req
  | .hello, _ => paxosAckHello node source msg.hdr
  | .refuse, _ => acceptorAckRefuse node msg
  | .recommit, .value val => acceptorAckRecommit fuel node msg.hdr val
  | .sync, _ => acceptorAckSync node msg.hdr
  | .truncate, .paxid ibase => acceptorAckTruncate node ibase
  -- What only a proposer answers to is ignored.
  | .promise, _ | .accept, _ | .welcome, _ | .redirect, _ | .reject, _ | .retry, _ | .last, _ =>
    .ok node
  | .decree, _ | .commit, _ | .request, _ | .retrieve, _ | .resend, _ | .recommit, _
  | .truncate, _ => node.fail .shape

/-- Handles a Paxos message of the session. -/
def paxosDispatch (fuel : Nat) (node : Node) (source : PeerId) (msg : Msg) : Result :=
  if isProposer node.pax then proposerDispatch fuel node source msg
  else acceptorDispatch fuel node source msg

/-- Accounts for a lost connection. -/
def paxosDropConnection (fuel : Nat) (node : Node) (source : PeerId) : Result :=
  match node.pax.alist.find? fun acc => acc.peer = some source with
  | none => .ok node
  | some acc =>
    let closed := (node.emit (.close source)).setPeer acc.paxid none
    let counted := closed.setLiveCount (unsignedPred closed.pax.liveCount)
    if isProposer counted.pax then proposerDecreePart (paxosCommit fuel) counted acc false
    else
      match counted.pax.proposer with
      | none => counted.undefined
      | some proposer =>
        if acc.paxid = proposer then
          -- The proposer is lost: the next one is elected locally, and prepares if it is us.
          let elected := resetProposer counted
          if isProposer elected.pax then proposerPrepare (paxosCommit fuel) elected true
          else .ok elected
        else .ok counted

/-- Runs what a connection attempt was made for on the acceptor it was made to. -/
def continuePurpose (fuel : Nat) (node : Node) (chan : Option PeerId) (acc : Acceptor) :
    Purpose → Result
  | .welcome => continueWelcome fuel node chan acc
  | .ackWelcome => continueAckWelcome node chan acc
  | .ackRedirect => continueAckRedirect fuel node chan acc
  | .ackRefuse val => continueAckRefuse node chan acc val
  | .ackReject inum => continueAckReject node chan acc inum

/-- Invokes a continuation with the channel that was made, or with none. -/
def connectinuate (fuel : Nat) (node : Node) (handle : Nat) (chan : Option PeerId) : Result :=
  match node.pax.clist.find? fun k => k.handle = handle with
  | none => .ok node
  | some k =>
    -- The acceptor may have been parted in the meantime.
    (match acceptorFind node.pax.alist k.paxid with
      | some acc => continuePurpose fuel node chan acc k.purpose
      | none => .ok node).andThen fun node =>
        .ok (node.setClist (node.pax.clist.filter fun k => k.handle ≠ handle))

/-- Something that happens to a session. -/
inductive Event where
  | message (source : PeerId) (msg : Msg)
  | drop (source : PeerId)
  | connected (handle : Nat) (chan : Option PeerId)
  | client (call : ClientCall)
  | sync
  | disconnect
  deriving DecidableEq, Repr

/-- Handles one event of a session. -/
def handle (fuel : Nat) (node : Node) : Event → Result
  | .message source msg => paxosDispatch fuel node source msg
  | .drop source => paxosDropConnection fuel node source
  | .connected handle chan => connectinuate fuel node handle chan
  | .client call => paxosRequest (paxosCommit fuel) node call
  | .sync => .ok (if isProposer node.pax then proposerSync node else node)
  | .disconnect => paxosEnd node

end Motmot
