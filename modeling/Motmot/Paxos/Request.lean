import Motmot.Paxos.Acceptor

/-! Out-of-band requests, retries of missing commits, and log synchronization. -/

namespace Motmot

/-- Dispatches a request as a decree. -/
def proposerAckRequest (fuel : Nat) (node : Node) (hdr : Header) (req : Request) : Result :=
  if hdr.inum > node.pax.selfId then
    -- The requester takes somebody lower-ranked for the proposer, so it is killed.
    match acceptorFind node.pax.alist req.val.reqid.id with
    | none => node.undefined
    | some acc => proposerDecreePart (paxosCommit fuel) node acc true
  else
    let kept := if requestNeedsCached req.val.dkind
      then node.setRcache (requestInsert node.pax.rcache req) else node
    proposerDecreeRequest (paxosCommit fuel) kept req

/-- Caches a requester's message, waiting for the proposer to decree it. -/
def acceptorAckRequest (node : Node) (source : PeerId) (hdr : Header) (req : Request) : Result :=
  let kept := node.setRcache (requestInsert node.pax.rcache req)
  if hdr.inum = kept.pax.selfId then acceptorRefuse kept source hdr req else .ok kept

/-- Answers a retrieve with the request data, if we have it. -/
def paxosAckRetrieve (node : Node) (hdr : Header) (paxid : Nat) (val : Value) : Result :=
  if !requestNeedsCached val.dkind then node.fail .retrieveKind
  else
    match requestFind node.pax.rcache val.reqid with
    | none => .ok node
    | some req =>
      match acceptorFind node.pax.alist paxid with
      | none => node.undefined
      | some acc =>
        paxosSend node acc { hdr := { hdr with opcode := .resend }, body := .request req }

/-- Receives request data and commits the instance again. -/
def paxosAckResend (fuel : Nat) (node : Node) (hdr : Header) (req : Request) : Result :=
  match node.pax.ilist.find hdr.inum with
  | none => .ok node
  | some cell =>
    if cell.inst.cached then .ok node
    else
      let kept := match requestFind node.pax.rcache cell.inst.val.reqid with
        | some _ => node
        | none => node.setRcache (requestInsert node.pax.rcache req)
      paxosCommit fuel kept cell

/-- Answers a retry with the commit, which goes to everyone. -/
def proposerAckRetry (node : Node) (hdr : Header) : Result :=
  match node.pax.ilist.find hdr.inum with
  | none => node.fail .retryKnown
  | some cell =>
    if cell.inst.committed then
      .ok (paxosBroadcast node
        { hdr := { hdr with opcode := .recommit }, body := .value cell.inst.val })
    else .ok node

/-- Fills in a missing commit, with the header that the retry was sent under. -/
def acceptorAckRecommit (fuel : Nat) (node : Node) (hdr : Header) (val : Value) : Result :=
  match node.pax.ilist.find hdr.inum with
  | none =>
    paxosCommit fuel (instanceInsertAndUpstart node (freshInstance hdr val))
      ⟨nextAddr node, freshInstance hdr val⟩
  | some cell =>
    if cell.inst.committed then .ok node
    else
      paxosCommit fuel (node.modify cell.addr (adopt hdr val))
        { cell with inst := adopt hdr val cell.inst }

/-- Syncs that may be skipped while one is running. -/
def syncSkipThresh : Nat := 30

/-- Sends a sync command to all acceptors. -/
def proposerSync (node : Node) : Node :=
  if node.pax.prep.isSome then node
  -- Syncing is delayed while not everyone is live.
  else if node.pax.liveCount ≠ node.pax.alist.length then node
  else if node.pax.ihole - 1 = node.pax.syncPrev then node
  else
    let restart := fun node : Node =>
      let started := (node.setSync (some
        { total := node.pax.alist.length, acks := 1, skips := 0, last := 0 }))
      let numbered : Node := { started with pax.syncId := started.pax.syncId + 1 }
      paxosBroadcast numbered
        { hdr := headerInit numbered.pax .sync numbered.pax.syncId, body := .empty }
    match node.pax.sync with
    | none => restart node
    | some sync =>
      let skipped := { sync with skips := sync.skips + 1 }
      if skipped.skips < syncSkipThresh then node.setSync (some skipped) else restart node

/-- Responds to a sync of our own ballot with our last contiguous learn. -/
def acceptorAckSync (node : Node) (hdr : Header) : Result :=
  if ballotCompare hdr.ballot node.pax.ballot = .eq then
    paxosSendToProposer node
      { hdr := { hdr with opcode := .last }, body := .paxid (node.pax.ihole - 1) }
  else .ok node

/-- Frees the requests of a run of instances. -/
def dropRequests (cache : List Request) (cells : List Cell) : List Request :=
  cells.foldl (fun cache cell =>
    cache.filter fun req => req.val.reqid ≠ cell.inst.val.reqid) cache

/-- Frees the instances numbered below a bound, and their requests. -/
def ilistTruncatePrefix (node : Node) (inum : Nat) : Node :=
  (node.setRcache (dropRequests node.pax.rcache (node.pax.ilist.below inum))).setIlist
    (node.pax.ilist.dropBelow inum)

/-- Commands all acceptors to drop the prefix that every participant has learned. -/
def proposerTruncate (node : Node) (hdr : Header) (sync : Sync) : Result :=
  let last := min (node.pax.ihole - 1) sync.last
  let noted := (node.setSync (some { sync with last := last }))
  let recorded : Node := { noted with pax.syncPrev := last }
  if last < recorded.pax.ibase then recorded.fail .truncateForward
  else
    let based : Node := { recorded with pax.ibase := last }
    let sent := paxosBroadcast based
      { hdr := { hdr with opcode := .truncate }, body := .paxid last }
    .ok ((ilistTruncatePrefix sent last).setSync none)

/-- Updates the sync with an acceptor's reply. -/
def proposerAckLast (node : Node) (hdr : Header) (last : Nat) : Result :=
  if hdr.inum ≠ node.pax.syncId then .ok node
  else
    match node.pax.sync with
    | none => node.undefined
    | some sync =>
      let lowered := if last < sync.last || sync.last = 0 then last else sync.last
      let acked := { sync with last := lowered, acks := sync.acks + 1 }
      let counted := node.setSync (some acked)
      if acked.acks = acked.total then proposerTruncate counted hdr acked else .ok counted

/-- Truncates on the proposer's command. -/
def acceptorAckTruncate (node : Node) (ibase : Nat) : Result :=
  let based : Node := { node with pax.ibase := ibase }
  .ok (ilistTruncatePrefix based ibase)

end Motmot
