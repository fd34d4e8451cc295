import Motmot.Paxos.Proposer

/-! Telling participants that they are wrong about something, and reconnecting. -/

namespace Motmot

/-- Sends a message straight to a channel. -/
def peerSend (node : Node) (peer : PeerId) (msg : Msg) : Node :=
  node.emit (.send peer msg)

/-- Introduces ourselves to an acceptor. -/
def paxosHello (node : Node) (acc : Acceptor) : Result :=
  paxosSend node acc { hdr := headerInit node.pax .hello node.pax.selfId, body := .empty }

/-- Attaches what a connection attempt came back with, and counts a live acceptor. -/
def attachChannel (node : Node) (paxid : Nat) (chan : Option PeerId) : Node :=
  match chan with
  | some peer =>
    ((node.emit (.watch peer)).setPeer paxid (some peer)).setLiveCount (node.pax.liveCount + 1)
  | none => node.setPeer paxid none

/-- Tells a preparer that they do not have the right to prepare. -/
def acceptorRedirect (node : Node) (source : PeerId) (orig : Header) : Result :=
  match node.pax.proposer with
  | none => node.undefined
  | some proposer =>
    .ok (peerSend node source
      { hdr := headerInit node.pax .redirect proposer, body := .header orig })

/-- Resolves an acceptor's claim that we are not the true proposer. -/
def proposerAckRedirect (fuel : Nat) (node : Node) (msg : Msg) : Result :=
  if ¬ msg.hdr.inum < node.pax.selfId then node.fail .redirectRank
  else
    match node.pax.prep with
    | none => .ok node
    | some prep =>
      match msg.body with
      | .header orig =>
        -- Only a redirect of our current prepare counts.
        if ballotCompare orig.ballot prep.ballot ≠ .eq then .ok node
        else
          let counted := { prep with redirects := prep.redirects + 1 }
          let node := node.setPrep (some counted)
          if deathAdjusted node.pax counted.redirects ≥ majority node.pax then
            match acceptorFind node.pax.alist msg.hdr.inum with
            | none => node.undefined
            | some acc =>
              if acc.peer.isSome then node.fail .redirectDropped
              else .ok (node.connect .ackRedirect acc)
          else if counted.acks < majority node.pax
              && counted.acks + counted.redirects = node.pax.liveCount then
            -- Everyone answered and nobody won, so prepare again.
            proposerPrepare (paxosCommit fuel) (node.setPrep none) false
          else .ok node
      | _ => node.fail .shape

/-- Relinquishes the proposership if we reached the purported proposer, or prepares again. -/
def continueAckRedirect (fuel : Nat) (node : Node) (chan : Option PeerId) (acc : Acceptor) :
    Result :=
  if ¬ acc.paxid < node.pax.selfId then node.fail .redirectRank
  else if acc.peer.isSome then
    if isProposer node.pax then node.fail .redirectDemoted else .ok node
  else
    let attached := attachChannel (node.setPrep none) acc.paxid chan
    match chan with
    | some peer =>
      match attached.pax.proposer with
      | none => attached.undefined
      | some proposer =>
        let demoted := if acc.paxid < proposer then attached.setProposer acc.paxid else attached
        paxosHello (demoted.setIdefer []) { acc with peer := some peer }
    | none => proposerPrepare (paxosCommit fuel) attached false

/-- Tells a requester that they incorrectly identified us as the proposer. -/
def acceptorRefuse (node : Node) (source : PeerId) (orig : Header) (req : Request) : Result :=
  match node.pax.proposer with
  | none => node.undefined
  | some proposer =>
    .ok (peerSend node source
      { hdr := headerInit node.pax .refuse proposer, body := .refuse orig req.val })

/-- Resolves an acceptor's claim that we do not know the true proposer. -/
def acceptorAckRefuse (node : Node) (msg : Msg) : Result :=
  match node.pax.proposer with
  | none => node.undefined
  | some proposer =>
    -- We may have found a more suitable proposer since.
    if proposer ≤ msg.hdr.inum then .ok node
    else
      match acceptorFind node.pax.alist msg.hdr.inum with
      | none => node.undefined
      | some acc =>
        if acc.peer.isSome then node.fail .refuseDropped
        else
          match msg.body with
          | .refuse _ val => .ok (node.connect (.ackRefuse val) acc)
          | _ => node.fail .shape

/-- Resends a refused request to the proposer we have reached. -/
def resendRefused (node : Node) (paxid : Nat) (val : Value) : Result :=
  let hdr := headerInit node.pax .request paxid
  let req := (requestFind node.pax.rcache val.reqid).getD { val := val, data := [] }
  paxosSendToProposer node { hdr := hdr, body := .request req }

/-- Adopts the proposer we were refused in favour of, if we could reach it. -/
def continueAckRefuse (node : Node) (chan : Option PeerId) (acc : Acceptor) (val : Value) :
    Result :=
  -- To a prepared proposer, anyone higher-ranked is dead.
  if isProposer node.pax && node.pax.prep.isNone then .ok node
  else
    let attached := attachChannel node acc.paxid chan
    match chan with
    | none => .ok attached
    | some peer =>
      let yielded := (attached.setPrep none).setIdefer []
      (paxosHello yielded { acc with peer := some peer }).andThen fun node =>
        match node.pax.proposer with
        | none => node.undefined
        | some proposer =>
          if acc.paxid < proposer then resendRefused (node.setProposer acc.paxid) acc.paxid val
          else .ok node

/-- Notifies the proposer that we reject their decree. -/
def acceptorReject (node : Node) (hdr : Header) : Result :=
  paxosSendToProposer node { hdr := { hdr with opcode := .reject }, body := .empty }

/-- Acknowledges an acceptor's reject. -/
def proposerAckReject (node : Node) (hdr : Header) : Result :=
  if ballotCompare hdr.ballot node.pax.ballot ≠ .eq then node.fail .rejectBallot
  else
    match node.pax.ilist.find hdr.inum with
    | none => node.undefined
    | some cell =>
      let node := node.modify cell.addr countReject
      let inst := countReject cell.inst
      if inst.committed then .ok node
      -- Rejects may still arrive after the part was re-decreed as null.
      else if inst.val.dkind = .null then .ok node
      else if inst.val.dkind ≠ .part then node.fail .rejectPart
      else if deathAdjusted node.pax inst.rejects ≥ majority node.pax then
        match acceptorFind node.pax.alist inst.val.extra with
        | none => node.undefined
        | some acc =>
          if acc.peer.isSome then node.fail .rejectDropped
          else .ok (node.connect (.ackReject inst.hdr.inum) acc)
      else if inst.votes < majority node.pax && inst.votes + inst.rejects = node.pax.liveCount then
        -- Everyone answered and nobody won, so decree the part again.
        .ok (paxosBroadcastInstance node inst)
      else .ok node

/-- Turns a rejected part into a null decree. -/
def nullify (inst : Instance) : Instance :=
  { inst with hdr.opcode := .decree, val.dkind := .null, val.extra := 0 }

/-- Decrees null if we reached the acceptor to be parted, or the part again. -/
def continueAckReject (node : Node) (chan : Option PeerId) (acc : Acceptor) (inum : Nat) :
    Result :=
  match node.pax.ilist.find inum with
  -- A missing instance was synced away.
  | none => .ok node
  | some cell =>
    let attached := attachChannel node acc.paxid chan
    let greeted : Result :=
      match chan with
      | some peer => paxosHello attached { acc with peer := some peer }
      | none => .ok attached
    greeted.andThen fun node =>
      let rewrite := fun inst =>
        instanceInitMetadata (if chan.isSome then nullify inst else inst)
      .ok (paxosBroadcastInstance (node.modify cell.addr rewrite) (rewrite cell.inst))

end Motmot
