import Motmot.Paxos.Learn

/-! Proposer protocol functions: promises and accepts. -/

namespace Motmot

/-- The scratch instance of the vote loop, with a vote unpacked into it as uncommitted. -/
def voteInstance (vote : PackedInstance) : Instance :=
  { instanceUnpack vote with committed := false, cached := false, learned := false }

/-- Unpacks a vote into the scratch allocation, which is made first when there is none. -/
def unpackScratch (node : Node) (scratch : Option Addr) (vote : PackedInstance) : Node × Addr :=
  match scratch with
  | some addr => (node.modify addr fun _ => voteInstance vote, addr)
  | none => (node.setIlist (node.pax.ilist.alloc (voteInstance vote)), nextAddr node)

/-- Links the scratch instance into the list, and moves the cursor if it is the hole. -/
def linkScratch (node : Node) (place : Addr) (cell : Cell) : Node :=
  let linked := node.setIlist (node.pax.ilist.insertAfter place cell)
  if cell.inum = node.pax.ihole then linked.setIstart (some cell.addr) else linked

/--
Merges the votes of one promise into the instance list.

The cursor carries over from vote to vote, and so does the scratch allocation.
A replaced instance becomes the next scratch, while cursors that alias it are left as they are.
-/
def mergeVotes : Node → Addr → Option Addr → List PackedInstance → Result
  | node, _, _, [] => .ok node
  | node, it, scratch, vote :: votes =>
    let (node, addr) := unpackScratch node scratch vote
    match node.pax.ilist.getInstanceGlb it vote.hdr.inum with
    | none => node.undefined
    | some none => node.fail .promiseCursor
    | some (some it) =>
      match node.inst? it with
      | none => node.undefined
      | some inst =>
        if inst.hdr.inum < vote.hdr.inum then
          -- The links of an instance that was taken off the list go beyond this list.
          if !node.pax.ilist.onList it then node.unlinked
          else mergeVotes (linkScratch node it ⟨addr, voteInstance vote⟩) it none votes
        else if !inst.committed && ballotCompare vote.hdr.ballot inst.hdr.ballot = .gt then
          if !node.pax.ilist.onList it then node.unlinked
          else
            let swapped := node.setIlist
              (node.pax.ilist.swap ⟨it, inst⟩ ⟨addr, voteInstance vote⟩)
            mergeVotes swapped addr (some it) votes
        else mergeVotes node it (some addr) votes

/-- Merges the votes of a promise, walking from the cursor that the prepare cached. -/
def mergePromise (node : Node) (cursor : Option Addr) (votes : List PackedInstance) : Result :=
  match votes, cursor with
  | [], _ => .ok node
  -- A cursor that aliases the list head finds no instance at all.
  | _ :: _, none => node.fail .promiseCursor
  | _ :: _, some start => mergeVotes node start none votes

/-- A null decree for a number that nobody in the quorum has heard of. -/
def nullInstance (pax : Session) (inum : Nat) : Instance :=
  { hdr := { session := 0, ballot := ⟨0, 0⟩, opcode := .prepare, inum := inum }
    committed := false, cached := false, learned := false, votes := 0, rejects := 0
    val := { dkind := .null, reqid := ⟨pax.selfId, pax.reqId⟩, extra := 0 } }

/-- An instance as it is decreed again under the current ballot. -/
def redecreed (pax : Session) (inst : Instance) : Instance :=
  instanceInitMetadata { inst with hdr := headerInit pax .decree inst.hdr.inum }

/-- Rewrites the header and metadata of an instance and broadcasts it as a decree. -/
def redecreeInstance (node : Node) (addr : Addr) (inst : Instance) : Node :=
  paxosBroadcastInstance (node.modify addr (redecreed node.pax)) (redecreed node.pax inst)

/-- Links a null instance behind an element, and moves the cursor if it is the hole. -/
def fillNull (node : Node) (place : Addr) (inum : Nat) : Node :=
  let counted := node.bumpReqId
  let inst := nullInstance counted.pax inum
  let addr := nextAddr counted
  linkScratch (counted.setIlist (counted.pax.ilist.alloc inst)) place ⟨addr, inst⟩

/-- Decrees every number from the hole on that we have no commit for. -/
def redecree : Nat → Node → Addr → Nat → Result
  | 0, node, _, _ => .stop .diverged node
  | fuel + 1, node, it, inum =>
    match node.pax.ilist.getInstanceGlb it inum with
    | none => node.undefined
    | some none => node.fail .promiseCursor
    | some (some it) =>
      match node.inst? it with
      | none => node.undefined
      | some inst =>
        if inst.hdr.inum < inum then
          -- Past the last number seen by a quorum, we are done.
          if node.pax.ilist.last.map Cell.addr = some it then .ok node
          else if !node.pax.ilist.onList it then node.unlinked
          else
            let addr := nextAddr node
            let filled := fillNull node it inum
            redecree fuel (redecreeInstance filled addr (nullInstance filled.pax inum)) it
              (inum + 1)
        else if !inst.committed then
          redecree fuel (redecreeInstance node it inst) it (inum + 1)
        else redecree fuel node it (inum + 1)

/-- Decrees the deferred instances in order. -/
def decreeDeferred (commit : Commit) : Nat → Node → Result
  | 0, node => .stop .diverged node
  | fuel + 1, node =>
    match node.pax.idefer with
    | [] => .ok node
    | inst :: rest =>
      (proposerDecree commit (node.setIdefer rest) inst).andThen fun node =>
        decreeDeferred commit fuel node

/-- Ends a prepare that a majority has acknowledged. -/
def finishPrepare (fuel : Nat) (node : Node) (prep : Prep) : Result :=
  let elected := node.setBallot prep.ballot
  match prep.istart with
  | none => elected.fail .promiseCursor
  | some start =>
    (redecree fuel elected start elected.pax.ihole).andThen fun node =>
      decreeDeferred (paxosCommit fuel) fuel (node.setPrep none)

/-- Acknowledges an acceptor's promise. -/
def proposerAckPromise (fuel : Nat) (node : Node) (msg : Msg) : Result :=
  match node.pax.prep with
  | none => .ok node
  | some prep =>
    if ballotCompare prep.ballot msg.hdr.ballot ≠ .eq then .ok node
    else
      match msg.body with
      | .votes count votes =>
        -- A promise that announces more votes than it packs swallows the messages behind it.
        if count ≠ votes.length then node.fail .shape
        else
          (mergePromise node prep.istart votes).andThen fun node =>
            let acked := { prep with acks := prep.acks + 1 }
            let counted := node.setPrep (some acked)
            if acked.acks < majority counted.pax then .ok counted
            else finishPrepare fuel counted acked
      | _ => node.fail .shape

/-- Counts a vote for an instance. -/
def countVote (inst : Instance) : Instance := { inst with votes := inst.votes + 1 }

/-- Counts a rejection of an instance. -/
def countReject (inst : Instance) : Instance := { inst with rejects := inst.rejects + 1 }

/-- Acknowledges an acceptor's accept. -/
def proposerAckAccept (fuel : Nat) (node : Node) (hdr : Header) : Result :=
  if ballotCompare hdr.ballot node.pax.ballot ≠ .eq then node.fail .acceptBallot
  else
    match node.pax.ilist.find hdr.inum with
    | none => node.undefined
    | some cell =>
      let counted := node.modify cell.addr countVote
      if cell.inst.committed then .ok counted
      else if (countVote cell.inst).votes ≥ majority counted.pax then
        proposerCommit (paxosCommit fuel) counted { cell with inst := countVote cell.inst }
      else .ok counted

end Motmot
