import Motmot.Paxos.Reconnect

/-! Acceptor protocol functions: prepares, decrees and commits. -/

namespace Motmot

/--
The votes of a promise: the instances from the last one not past the requested number on.

The first part is the element count, which is taken by a scan from the tail.
When every instance lies past the requested number, the scan counts them all and packs none.
-/
def promiseVotes (list : Ilist) (inum : Nat) : Nat × List Cell :=
  let upper := list.cells.reverse.takeWhile (fun cell => inum < cell.inum)
  match list.cells.reverse.drop upper.length with
  | cell :: _ => (upper.length + 1, cell :: upper.reverse)
  | [] => (upper.length, [])

/-- Promises fealty to a new proposer. -/
def acceptorPromise (node : Node) (hdr : Header) : Result :=
  let sworn := (node.setBallot hdr.ballot).setGenHigh hdr.ballot.gen
  let (count, votes) := promiseVotes sworn.pax.ilist hdr.inum
  paxosSendToProposer sworn
    { hdr := { hdr with opcode := .promise }
      body := .votes count (votes.map fun cell => instancePack cell.inst) }

/-- Prepares for a new proposer, or redirects the preparer. -/
def acceptorAckPrepare (node : Node) (source : PeerId) (hdr : Header) : Result :=
  if ballotCompare hdr.ballot node.pax.ballot ≠ .gt then acceptorRedirect node source hdr
  else
    match proposerAcc node.pax with
    | none => node.undefined
    | some acc =>
      if acc.peer ≠ some source then acceptorRedirect node source hdr
      else acceptorPromise node hdr

/-- Notifies the proposer that we accept their decree. -/
def acceptorAccept (node : Node) (hdr : Header) : Result :=
  paxosSendToProposer node { hdr := { hdr with opcode := .accept }, body := .empty }

/-- A new instance of a header and value, with every flag zero. -/
def freshInstance (hdr : Header) (val : Value) : Instance :=
  { hdr := hdr, committed := false, cached := false, learned := false, votes := 0, rejects := 0
    val := val }

/-- Switches a header and value into an instance. -/
def adopt (hdr : Header) (val : Value) (inst : Instance) : Instance :=
  { inst with hdr := hdr, val := val }

/-- Accepts a value for an instance that is not a part of a live acceptor. -/
def acceptDecree (node : Node) (hdr : Header) (val : Value) : Result :=
  match node.pax.ilist.find hdr.inum with
  | none => acceptorAccept (instanceInsertAndUpstart node (freshInstance hdr val)) hdr
  | some cell =>
    if cell.inst.committed then
      -- A committed instance must already carry the same value.
      if cell.inst.val.dkind = val.dkind && cell.inst.val.reqid = val.reqid then
        acceptorAccept node hdr
      else node.fail .decreeCommittedValue
    else if ballotCompare hdr.ballot cell.inst.hdr.ballot ≠ .lt then
      acceptorAccept (node.modify cell.addr (adopt hdr val)) hdr
    else .ok node

/-- Accepts a value for an instance, or rejects the part of an acceptor we find live. -/
def acceptorAckDecree (node : Node) (hdr : Header) (val : Value) : Result :=
  -- Decrees of any other ballot than ours are dropped without an answer.
  if ballotCompare hdr.ballot node.pax.ballot ≠ .eq then .ok node
  else
    match node.pax.proposer with
    | none => node.undefined
    | some proposer =>
      if proposer ≠ node.pax.ballot.id then node.fail .decreeProposer
      else if val.dkind = .part then
        match acceptorFind node.pax.alist val.extra with
        | none => node.undefined
        | some acc => if acc.peer.isSome then acceptorReject node hdr else acceptDecree node hdr val
      else acceptDecree node hdr val

/-- Resets the value of an instance. -/
def overwrite (val : Value) (inst : Instance) : Instance := { inst with val := val }

/-- Commits a value, whatever ballot it was decreed under. -/
def acceptorAckCommit (fuel : Nat) (node : Node) (hdr : Header) (val : Value) : Result :=
  match node.pax.ilist.find hdr.inum with
  | none =>
    -- We never got the decree, but the majority can be trusted.
    paxosCommit fuel (instanceInsertAndUpstart node (freshInstance hdr val))
      ⟨nextAddr node, freshInstance hdr val⟩
  | some cell =>
    if cell.inst.committed then .ok node
    else
      -- A decree that was never committed may be here, so the value is reset; the header stays.
      paxosCommit fuel (node.modify cell.addr (overwrite val))
        { cell with inst := overwrite val cell.inst }

end Motmot
