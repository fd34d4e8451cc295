import Motmot.Paxos.State

/-! Utility functions over the session, and message delivery. -/

namespace Motmot

/-- Looks an acceptor up by its identifier. -/
def acceptorFind (list : List Acceptor) (paxid : Nat) : Option Acceptor :=
  SortedList.findFwd paxidCompare Acceptor.paxid paxid list

/-- Inserts an acceptor unless its identifier is present. -/
def acceptorInsert (list : List Acceptor) (acc : Acceptor) : List Acceptor :=
  (SortedList.insertRev paxidCompare Acceptor.paxid acc list).getD list

/-- Looks a cached request up by its identifier. -/
def requestFind (cache : List Request) (reqid : ReqId) : Option Request :=
  SortedList.findFwd reqidCompare (fun req => req.val.reqid) reqid cache

/-- Caches a request unless its identifier is present. -/
def requestInsert (cache : List Request) (req : Request) : List Request :=
  (SortedList.insertRev reqidCompare (fun req => req.val.reqid) req cache).getD cache

/-- A header of the current session and ballot. -/
def headerInit (pax : Session) (opcode : Opcode) (inum : Nat) : Header :=
  { session := pax.sessionId, ballot := pax.ballot, opcode := opcode, inum := inum }

/-- Whether we think we are the proposer. -/
def isProposer (pax : Session) : Bool := pax.proposer = some pax.selfId

/-- The acceptor object that the proposer field aliases. -/
def proposerAcc (pax : Session) : Option Acceptor :=
  pax.proposer.bind (acceptorFind pax.alist)

/-- The first acceptor that is ourselves or has a channel. -/
def firstLive (pax : Session) : Option Acceptor :=
  pax.alist.find? fun acc => acc.paxid = pax.selfId || acc.peer.isSome

/-- Realiases the proposer after an update to the acceptor list. -/
def resetProposer (node : Node) : Node :=
  match firstLive node.pax with
  | some acc => node.setProposer acc.paxid
  | none => node

/-- The next free instance number. -/
def nextInstance (pax : Session) : Nat :=
  match pax.ilist.last with
  | some cell => cell.inum + 1
  | none => 1

/-- The acceptors needed for a simple majority. -/
def majority (pax : Session) : Nat := pax.alist.length / 2 + 1

/-- A count raised by the acceptors thought dead, in unsigned arithmetic. -/
def deathAdjusted (pax : Session) (count : Nat) : Nat :=
  (count + (pax.alist.length + unsignedRange - pax.liveCount)) % unsignedRange

/-- The address that the next allocated instance gets. -/
abbrev nextAddr (node : Node) : Addr := node.pax.ilist.brk

/-- Inserts a new instance and moves the cursor if it instantiates the hole. -/
def instanceInsertAndUpstart (node : Node) (inst : Instance) : Node :=
  let inserted := node.setIlist (node.pax.ilist.insert inst)
  if inst.hdr.inum = node.pax.ihole then inserted.setIstart (some (nextAddr node)) else inserted

/-- Sends a message to an acceptor. -/
def paxosSend (node : Node) (acc : Acceptor) (msg : Msg) : Result :=
  match acc.peer with
  | some peer => .ok (node.emit (.send peer msg))
  | none => node.undefined

/-- Sends a message to the proposer. -/
def paxosSendToProposer (node : Node) (msg : Msg) : Result :=
  match node.pax.proposer with
  | none => .ok node
  | some _ =>
    match proposerAcc node.pax with
    | some acc => paxosSend node acc msg
    | none => node.undefined

/-- Sends a message over every channel in a list of acceptors. -/
def broadcastTo (msg : Msg) (node : Node) (accs : List Acceptor) : Node :=
  { node with out := node.out ++ accs.filterMap fun acc => acc.peer.map (Effect.send · msg) }

/-- Sends a message to all acceptors that have a channel. -/
def paxosBroadcast (node : Node) (msg : Msg) : Node :=
  broadcastTo msg node node.pax.alist

/-- Packs the header and value of an instance and broadcasts them. -/
def paxosBroadcastInstance (node : Node) (inst : Instance) : Node :=
  paxosBroadcast node { hdr := inst.hdr, body := .value inst.val }

end Motmot
