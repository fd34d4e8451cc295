import Mathlib.Logic.Relation
import Motmot.Paxos.Dispatch
import Motmot.Proofs.Containers.SortedList

/-!
Every handler of a session is a sequence of moves.

A move is one write to the log, the ballot, the proposership or the acceptor list, with the guard
that the source checks in front of it.
Whatever touches none of these is collected in one kind of move.
-/

namespace Motmot

/-- The part of a session that the decrees rest on. -/
structure Core where
  sessionId : Uuid
  selfId : Nat
  proposer : Option Nat
  ballot : Ballot
  genHigh : Nat
  prep : Option Prep
  ilist : Ilist
  idefer : List Instance
  ibase : Nat
  ihole : Nat
  istart : Option Addr

/-- The core of a session. -/
def Session.core (pax : Session) : Core :=
  { sessionId := pax.sessionId, selfId := pax.selfId, proposer := pax.proposer
    ballot := pax.ballot, genHigh := pax.genHigh, prep := pax.prep, ilist := pax.ilist
    idefer := pax.idefer, ibase := pax.ibase, ihole := pax.ihole, istart := pax.istart }

section Core

variable (node : Node)

@[simp] theorem emit_core (effect : Effect) : (node.emit effect).pax.core = node.pax.core := rfl

@[simp] theorem bumpReqId_core : node.bumpReqId.pax.core = node.pax.core := rfl

@[simp] theorem setSync_core (sync : Option Sync) :
    (node.setSync sync).pax.core = node.pax.core := rfl

@[simp] theorem setLiveCount_core (count : Nat) :
    (node.setLiveCount count).pax.core = node.pax.core := rfl

@[simp] theorem setPeer_core (paxid : Nat) (peer : Option PeerId) :
    (node.setPeer paxid peer).pax.core = node.pax.core := rfl

@[simp] theorem setAlist_core (alist : List Acceptor) :
    (node.setAlist alist).pax.core = node.pax.core := rfl

@[simp] theorem setAdefer_core (adefer : List Acceptor) :
    (node.setAdefer adefer).pax.core = node.pax.core := rfl

@[simp] theorem setRcache_core (rcache : List Request) :
    (node.setRcache rcache).pax.core = node.pax.core := rfl

@[simp] theorem setClist_core (clist : List Continuation) :
    (node.setClist clist).pax.core = node.pax.core := rfl

@[simp] theorem connect_core (purpose : Purpose) (acc : Acceptor) :
    (node.connect purpose acc).pax.core = node.pax.core := rfl

@[simp] theorem paxosBroadcast_core (msg : Msg) :
    (paxosBroadcast node msg).pax.core = node.pax.core := rfl

@[simp] theorem peerDestroy_core (peer : Option PeerId) :
    (peerDestroy node peer).pax.core = node.pax.core := by
  cases peer <;> rfl

@[simp] theorem attachChannel_core (paxid : Nat) (chan : Option PeerId) :
    (attachChannel node paxid chan).pax.core = node.pax.core := by
  cases chan <;> rfl

@[simp] theorem enlist_core (inum : Nat) (req : Request) :
    (enlist node inum req).pax.core = node.pax.core := by
  unfold enlist
  cases acceptorFind node.pax.adefer inum <;> rfl

@[simp] theorem delist_core (paxid : Nat) : (delist node paxid).pax.core = node.pax.core := by
  unfold delist
  split
  · rw [setLiveCount_core, setAlist_core]
  · rw [setAlist_core]

end Core

/-- The identity of an acceptor: everything but its channel. -/
def Acceptor.identity (acc : Acceptor) : Nat × Bytes := (acc.paxid, acc.desc)

/-- The members of a session, in order. -/
def Session.members (pax : Session) : List (Nat × Bytes) := pax.alist.map Acceptor.identity

/-- The continuation that an event runs on a listed acceptor, with the channel that was made. -/
def Continues (pax : Session) (event : Event) (purpose : Purpose) (acc : Acceptor)
    (chan : Option PeerId) : Prop :=
  ∃ handle k, event = .connected handle chan ∧
    pax.clist.find? (fun k => k.handle = handle) = some k ∧ k.purpose = purpose ∧
    acceptorFind pax.alist k.paxid = some acc

/-- What a continuation checks before it attaches the channel that was made, or none. -/
def Attaches (pax : Session) (acc : Acceptor) : Purpose → Prop
  | .welcome | .ackWelcome => True
  | .ackRedirect => acc.peer = none ∧ acc.paxid < pax.selfId
  | .ackRefuse _ => isProposer pax = false ∨ pax.prep.isSome = true
  | .ackReject inum => ∃ cell, pax.ilist.find inum = some cell

/-- A request that an event brings in. -/
def Event.Brings (event : Event) (req : Request) : Prop :=
  ∃ source hdr, event = .message source ⟨hdr, .request req⟩

/-- The value of a request that an event refuses. -/
def Event.Refuses (event : Event) (val : Value) : Prop :=
  ∃ source hdr orig, event = .message source ⟨hdr, .refuse orig val⟩

/-- The calls that the client makes in an event: it is one itself, or callbacks make them. -/
inductive Calls (start : Node) : Event → ClientCall → Prop where
  | client (call : ClientCall) : Calls start (.client call) call
  | callback {event visit call} (visited : visit ∈ start.script) (mem : call ∈ visit.calls) :
      Calls start event call

/-- The request that a session makes of a call. -/
def requestOf (selfId gen : Nat) (call : ClientCall) : Request :=
  { val := { dkind := call.dkind, reqid := ⟨selfId, gen⟩, extra := 0 }, data := call.data }

/-- The requests that were made of calls between two states of a node, in order. -/
structure Issued (start : Node) (event : Event) (node next : Node) (made : List Request) :
    Prop where
  ascending : made.Pairwise fun x y => x.val.reqid.gen < y.val.reqid.gen
  counted : ∀ req ∈ made, node.pax.reqId < req.val.reqid.gen ∧ req.val.reqid.gen ≤ next.pax.reqId
  asked : ∀ req ∈ made, ∃ call, Calls start event call ∧
    req = requestOf node.pax.selfId req.val.reqid.gen call

/-- A refused request is sent to a new proposer by its value alone, as its data are gone. -/
def Rebuilds (pax : Session) (event : Event) (val : Value) : Prop :=
  (∃ acc peer proposer, Continues pax event (.ackRefuse val) acc (some peer) ∧
    Attaches pax acc (.ackRefuse val) ∧ pax.proposer = some proposer ∧ acc.paxid < proposer) ∧
      requestFind pax.rcache val.reqid = none

/-- Where a request that a node caches or sends comes from. -/
inductive Source (start : Node) (event : Event) (node : Node) (made : List Request)
    (req : Request) : Prop where
  | cached (mem : req ∈ node.pax.rcache)
  | rebuilt (rebuilds : Rebuilds start.pax event req.val) (bare : req.data = [])
  | brought (brings : event.Brings req)
  | own (mem : req ∈ made)

/-- Where the request in a message comes from, or the value of one. -/
def Sourced (start : Node) (event : Event) (node : Node) (made : List Request) : Body → Prop
  | .request req => Source start event node made req
  | .refuse _ val => ∃ data, event.Brings { val := val, data := data }
  | _ => True

/-- Messages that carry nothing of the log and decide nothing about it. -/
def Opcode.side : Opcode → Bool
  | .request | .retrieve | .resend | .redirect | .refuse | .reject | .retry
  | .sync | .last | .truncate => true
  | _ => false

/-- A message that carries nothing of the log, with the payload of its opcode. -/
def Msg.side (msg : Msg) : Bool := msg.hdr.opcode.side && shaped msg.hdr.opcode msg.body

theorem Msg.side_opcode {msg : Msg} (side : msg.side = true) : msg.hdr.opcode.side = true := by
  simp only [Msg.side, Bool.and_eq_true] at side
  exact side.1

/-- Effects that carry nothing of the log. -/
inductive Side (start : Node) (event : Event) (node : Node) (made : List Request) :
    Effect → Prop where
  | send (peer : PeerId) (msg : Msg) (side : msg.side = true)
      (known : Sourced start event node made msg.body) : Side start event node made (.send peer msg)
  /-- We introduce ourselves over a channel as soon as it is attached. -/
  | hello {purpose acc peer hdr} (continues : Continues start.pax event purpose acc (some peer))
      (attaches : Attaches start.pax acc purpose) (opcode : hdr.opcode = .hello)
      (self : hdr.inum = start.pax.selfId) (ballot : hdr.ballot = start.pax.ballot) :
      Side start event node made (.send peer ⟨hdr, .empty⟩)
  | connect (handle : Nat) (desc : Bytes) : Side start event node made (.connect handle desc)
  | watch (peer : PeerId) : Side start event node made (.watch peer)
  | close (peer : PeerId) : Side start event node made (.close peer)
  | join (data desc : Bytes) : Side start event node made (.join data desc)
  | part (desc : Bytes) : Side start event node made (.part desc)
  | leave : Side start event node made .leave

/-- The channels of a session: who has one, who waits with one, and how many are counted. -/
structure Roster where
  alist : List Acceptor
  adefer : List Acceptor
  liveCount : Nat

/-- The channels of a session. -/
def Session.roster (pax : Session) : Roster :=
  { alist := pax.alist, adefer := pax.adefer, liveCount := pax.liveCount }

/-- The requests that a session has cached, and the continuations that it waits with. -/
def Session.desk (pax : Session) : List Request × List Continuation := (pax.rcache, pax.clist)

/-- A cache of requests, which ascend by their identifiers. -/
def Catalogued (cache : List Request) : Prop :=
  SortedList.Ascending reqidCompare (fun req => req.val.reqid) cache

/-- Where all requests come from that are cached or sent between two states of a node. -/
structure Traced (start : Node) (event : Event) (node next : Node) (made : List Request)
    (effects : List Effect) : Prop where
  issued : Issued start event node next made
  cached : ∀ req ∈ next.pax.rcache, Source start event node made req
  out : next.out = node.out ++ effects
  sides : ∀ effect ∈ effects, Side start event node made effect

/-- A continuation that a session may come to wait with. -/
structure Expects (pax : Session) (event : Event) (k : Continuation) : Prop where
  refused : ∀ val, k.purpose = .ackRefuse val → event.Refuses val
  /-- A proposer welcomes whoever has joined at its hole. -/
  joined : k.purpose = .welcome → isProposer pax = true ∧ k.paxid = pax.ihole
  redirected : k.purpose = .ackRedirect → pax.prep.isSome = true

/-- What happens beside the log: channels, requests, syncs, callbacks and counts. -/
structure Beside (start : Node) (event : Event) (node next : Node) : Prop where
  core : next.pax.core = node.pax.core
  members : next.pax.members = node.pax.members
  counted : node.pax.reqId ≤ next.pax.reqId
  stored : ∀ req ∈ node.pax.rcache, req ∈ next.pax.rcache
  ordered : Catalogued node.pax.rcache → Catalogued next.pax.rcache
  pending : ∀ k ∈ next.pax.clist, k ∈ node.pax.clist ∨ Expects node.pax event k
  script : ∀ visit ∈ next.script, visit ∈ node.script
  traced : ∃ made effects, Traced start event node next made effects

/-- What happens beside the log while all channels stay as they are. -/
structure Outer (start : Node) (event : Event) (node next : Node) : Prop
    extends Beside start event node next where
  roster : next.pax.roster = node.pax.roster

/-- A prepared proposer ignores the hellos of everyone higher-ranked. -/
def Heeds (pax : Session) (hdr : Header) : Prop :=
  ¬ (isProposer pax = true ∧ pax.prep = none ∧ hdr.inum < pax.selfId)

/-- What an event does to the channels before anything else. -/
inductive Opens (start : Node) (event : Event) : Roster → Prop where
  | same : Opens start event start.pax.roster
  | attach {purpose acc chan} (continues : Continues start.pax event purpose acc chan)
      (attaches : Attaches start.pax acc purpose) :
      Opens start event (attachChannel start acc.paxid chan).pax.roster
  | greet {source hdr body acc} (asked : event = .message source ⟨hdr, body⟩)
      (opcode : hdr.opcode = .hello) (heeded : Heeds start.pax hdr)
      (found : acceptorFind start.pax.alist hdr.inum = some acc) (lost : acc.peer = none) :
      Opens start event
        ((start.setPeer acc.paxid (some source)).setLiveCount (start.pax.liveCount + 1)).pax.roster
  | replace {source hdr body acc} (asked : event = .message source ⟨hdr, body⟩)
      (opcode : hdr.opcode = .hello) (heeded : Heeds start.pax hdr)
      (found : acceptorFind start.pax.alist hdr.inum = some acc)
      (held : acc.peer.isSome = true) (lower : hdr.inum < start.pax.selfId) :
      Opens start event (start.setPeer acc.paxid (some source)).pax.roster
  | wait {source hdr body} (asked : event = .message source ⟨hdr, body⟩)
      (opcode : hdr.opcode = .hello) (heeded : Heeds start.pax hdr)
      (absent : acceptorFind start.pax.alist hdr.inum = none) :
      Opens start event (start.setAdefer (acceptorInsert start.pax.adefer
        { paxid := hdr.inum, peer := some source, desc := [] })).pax.roster
  | lose {source acc} (dropped : event = .drop source)
      (found : start.pax.alist.find? (fun acc => acc.peer = some source) = some acc) :
      Opens start event ((start.setPeer acc.paxid none).setLiveCount
        (unsignedPred start.pax.liveCount)).pax.roster

/-- What a handler has done when it comes to the log. -/
structure Prior (start : Node) (event : Event) (node : Node) : Prop
    extends Beside start event start node where
  opened : Opens start event node.pax.roster

/-- The loss of the channel to somebody else who was taken for the proposer. -/
def Deposes (pax : Session) (event : Event) : Prop :=
  ∃ source acc, event = .drop source ∧
    pax.alist.find? (fun acc => acc.peer = some source) = some acc ∧
    isProposer pax = false ∧ pax.proposer = some acc.paxid

/-- A channel to somebody higher-ranked than the proposer, who is taken for it from then on. -/
inductive Yields (pax : Session) (event : Event) : Prop where
  | hello {source hdr body acc proposer} (asked : event = .message source ⟨hdr, body⟩)
      (opcode : hdr.opcode = .hello) (heeded : Heeds pax hdr)
      (found : acceptorFind pax.alist hdr.inum = some acc) (lost : acc.peer = none)
      (current : pax.proposer = some proposer) (higher : hdr.inum < proposer) : Yields pax event
  | continue {purpose acc peer proposer}
      (resolves : purpose = .ackRedirect ∨ ∃ val, purpose = .ackRefuse val)
      (continues : Continues pax event purpose acc (some peer))
      (attaches : Attaches pax acc purpose) (current : pax.proposer = some proposer)
      (higher : acc.paxid < proposer) : Yields pax event

/-- The bound of a sync that everybody has answered, the last answer included. -/
def syncBound (pax : Session) (sync : Sync) (last : Nat) : Nat :=
  min (pax.ihole - 1) (if last < sync.last || sync.last = 0 then last else sync.last)

/-- The bound up to which an event truncates the log: as told, or as everybody has learned. -/
def Truncates (pax : Session) (event : Event) (bound : Nat) : Prop :=
  (∃ source hdr, event = .message source ⟨hdr, .paxid bound⟩ ∧ hdr.opcode = .truncate ∧
      isProposer pax = false) ∨
    ∃ source hdr last sync, event = .message source ⟨hdr, .paxid last⟩ ∧ hdr.opcode = .last ∧
      pax.sync = some sync ∧ sync.acks + 1 = sync.total ∧ bound = syncBound pax sync last ∧
      pax.ibase ≤ bound

/-- A message completes a prepare: it is the promise that makes a majority. -/
def Completes (pax : Session) (event : Event) (prep : Prep) : Prop :=
  isProposer pax = true ∧ pax.prep = some prep ∧ ∃ source hdr body,
    event = .message source ⟨hdr, body⟩ ∧ hdr.opcode = .promise ∧ hdr.ballot = prep.ballot ∧
      majority pax ≤ prep.acks + 1

/-- Events that bring a hello or a channel, and nothing else. -/
def Event.greets : Event → Bool
  | .message _ msg => msg.hdr.opcode = .hello
  | .connected _ chan => chan.isSome
  | _ => false

/-- Events that may lead to a commit. -/
inductive Licenses (start : Node) (event : Event) : Prop where
  | leads (proposer : isProposer start.pax = true) (busy : event.greets = false)
  | finishes {source hdr body} (asked : event = .message source ⟨hdr, body⟩)
      (opcode : hdr.opcode = .commit ∨ hdr.opcode = .recommit ∨ hdr.opcode = .resend)
  /-- A newcomer that cannot be reached is parted by whoever learned its join. -/
  | alone {acc} (lapsed : Continues start.pax event .welcome acc none)
      (few : majority start.pax ≤ 1)

/-- What a session counts under a number of its own: a part or a kill, or a call of its client. -/
inductive Origin (start : Node) (event : Event) (val : Value) : Prop where
  | part (kind : val.dkind = .part ∨ val.dkind = .kill)
  | call {selfId gen call} (called : Calls start event call)
      (same : val = (requestOf selfId gen call).val)

/-- What a value that enters the log stands for: a request brought in, or one counted just now. -/
inductive Wish (start : Node) (event : Event) (node next : Node) (val : Value) : Prop where
  | brought (source : PeerId) (hdr : Header) (req : Request)
      (asked : event = .message source ⟨hdr, .request req⟩) (opcode : hdr.opcode = .request)
      (rightly : hdr.inum ≤ start.pax.selfId) (same : val = req.val)
      (idle : next.pax.reqId = node.pax.reqId) (first : node = start)
  | own (step : next.pax.reqId = node.pax.reqId + 1)
      (mine : val.reqid = ⟨node.pax.selfId, next.pax.reqId⟩) (origin : Origin start event val)

/-- The replacement of a proposer: somebody else is next, or we are and begin a prepare. -/
inductive Replaces (node : Node) : Node → Prop where
  | elect (remains : isProposer (resetProposer node).pax = false) :
      Replaces node (resetProposer node)
  | begin (chosen : isProposer (resetProposer node).pax = true) (idle : node.pax.prep = none)
      (enough : majority node.pax ≤ node.pax.liveCount) :
      Replaces node (beginPrepare (resetProposer node))

/-- An instance whose commit is not finished. -/
def Instance.unfinished (inst : Instance) : Prop := inst.committed = false ∨ inst.cached = false

/-- The request of a value is in the cache, if the value needs one. -/
def Supplied (pax : Session) (val : Value) : Prop :=
  requestNeedsCached val.dkind = true → (requestFind pax.rcache val.reqid).isSome = true

/-- Marks an instance committed and cached. -/
def finishCommit (node : Node) (addr : Addr) : Node :=
  (node.modify addr markCommitted).modify addr markCached

/-- Moves that may also be made from within a learn. -/
inductive Nest (start : Node) (event : Event) : Node → Node → Prop where
  | outer {node next} (outer : Outer start event node next) : Nest start event node next
  | defer {node mid inst} (prior : Outer start event node mid)
      (preparing : mid.pax.prep.isSome = true) (wish : Wish start event node mid inst.val) :
      Nest start event node (mid.setIdefer (mid.pax.idefer ++ [inst]))
  /-- A decree of the next number; only a lapsed welcome makes one without the proposership. -/
  | decree {node mid inst} (prior : Outer start event node mid) (prepared : mid.pax.prep = none)
      (rightful : isProposer mid.pax = true ∨ mid.pax.core = start.pax.core ∧
        ∃ acc, Continues start.pax event .welcome acc none)
      (wish : Wish start event node mid inst.val) : Nest start event node (announceDecree mid inst)
  | announce {node cell} (mem : cell ∈ node.pax.ilist.cells)
      (uncommitted : cell.inst.committed = false) (enough : majority node.pax ≤ cell.inst.votes)
      (licensed : Licenses start event) : Nest start event node (announceCommit node cell)
  | commit {node cell} (mem : cell ∈ node.pax.ilist.cells) (unfinished : cell.inst.unfinished)
      (licensed : Licenses start event) :
      Nest start event node (node.modify cell.addr markCommitted)
  | cache {node cell} (mem : cell ∈ node.pax.ilist.cells) (unfinished : cell.inst.unfinished)
      (known : Supplied node.pax cell.inst.val) (ahead : node.pax.ihole ≤ cell.inum)
      (licensed : Licenses start event) :
      Nest start event node (finishCommit node cell.addr)
  /-- A commit at the hole points the cursor at the hole, from itself or from one behind it. -/
  | aim {node cell last inst first} (mem : cell ∈ node.pax.ilist.cells)
      (unfinished : cell.inst.unfinished) (known : Supplied node.pax cell.inst.val)
      (hole : cell.inum = node.pax.ihole) (cursor : node.pax.istart = some last)
      (held : (finishCommit node cell.addr).inst? last = some inst)
      (target : if inst.hdr.inum = node.pax.ihole then first = last
        else (finishCommit node cell.addr).pax.ilist.next last = some (some first))
      (licensed : Licenses start event) :
      Nest start event node ((finishCommit node cell.addr).setIstart (some first))
  | prepare {node prep} (preparing : node.pax.prep = some prep) :
      Nest start event node (paxosBroadcast node (prepareMsg node.pax prep.ballot))

/-- The scratch allocation that a vote is unpacked into: a new one, or one left outside the list. -/
inductive Unpacks (vote : PackedInstance) (node : Node) : Node → Addr → Prop where
  | fresh : Unpacks vote node (node.setIlist (node.pax.ilist.alloc (voteInstance vote)))
      (nextAddr node)
  | reused {addr} (off : node.pax.ilist.onList addr = false) (bound : addr < node.pax.ilist.brk) :
      Unpacks vote node (node.modify addr fun _ => voteInstance vote) addr

/-- What one vote of a promise does to the log. -/
inductive VoteStep (vote : PackedInstance) (node : Node) : Node → Prop where
  | keep {mid addr} (unpacks : Unpacks vote node mid addr) : VoteStep vote node mid
  | link {mid addr lower place upper} (unpacks : Unpacks vote node mid addr)
      (whole : mid.pax.ilist.cells = lower ++ place :: upper)
      (above : place.inum < vote.hdr.inum) (below : ∀ x ∈ upper, vote.hdr.inum < x.inum) :
      VoteStep vote node (linkScratch mid place.addr ⟨addr, voteInstance vote⟩)
  | swap {mid addr out} (unpacks : Unpacks vote node mid addr) (mem : out ∈ mid.pax.ilist.cells)
      (same : out.inum = vote.hdr.inum) (uncommitted : out.inst.committed = false)
      (outranks : ballotCompare vote.hdr.ballot out.inst.hdr.ballot = .gt) :
      VoteStep vote node
        (mid.setIlist (mid.pax.ilist.swap out ⟨addr, voteInstance vote⟩))

/-- What the votes of a promise do to the log, in order. -/
inductive Merges : Node → List PackedInstance → Node → Prop where
  | nil (node : Node) : Merges node [] node
  | cons {node mid next vote votes} (step : VoteStep vote node mid)
      (rest : Merges mid votes next) : Merges node (vote :: votes) next

/-- What an accepted decree leaves in the log. -/
inductive Stores (hdr : Header) (val : Value) (node : Node) : Node → Prop where
  | fresh (absent : node.pax.ilist.find hdr.inum = none) :
      Stores hdr val node (instanceInsertAndUpstart node (freshInstance hdr val))
  | held {cell} (found : node.pax.ilist.find hdr.inum = some cell)
      (committed : cell.inst.committed = true) (kind : cell.inst.val.dkind = val.dkind)
      (reqid : cell.inst.val.reqid = val.reqid) : Stores hdr val node node
  | adopted {cell} (found : node.pax.ilist.find hdr.inum = some cell)
      (uncommitted : cell.inst.committed = false)
      (rank : ballotCompare hdr.ballot cell.inst.hdr.ballot ≠ .lt) :
      Stores hdr val node (node.modify cell.addr (adopt hdr val))

/-- Replaces the rejected part, or leaves it, and makes its counts new. -/
def redecreeRejected (chan : Option PeerId) (inst : Instance) : Instance :=
  instanceInitMetadata (if chan.isSome then nullify inst else inst)

/-- Gives up a prepare in favour of a reconnected acceptor. -/
def yieldTo (node : Node) (acc : Acceptor) : Node :=
  let yielded := (node.setPrep none).setIdefer []
  match node.pax.proposer with
  | some proposer => if acc.paxid < proposer then yielded.setProposer acc.paxid else yielded
  | none => yielded

/-- Moves that only the handler of an event itself makes. -/
inductive Top (start : Node) (event : Event) : Node → Node → Prop where
  | beside {node} (prior : Prior start event node) (stays : ¬ Deposes start.pax event)
      (keeps : ¬ Yields start.pax event) : Top start event start node
  /-- The loss of the proposer's channel, which is closed first, and its replacement. -/
  | depose {base node next} (closed : Outer start event start base) (prior : Prior start event node)
      (out : node.out = base.out) (lost : Deposes start.pax event) (replaces : Replaces node next)
      (counted : base.pax.reqId ≤ node.pax.reqId) (desk : node.pax.desk = base.pax.desk) :
      Top start event base next
  | promise {source hdr body acc} (asked : event = .message source ⟨hdr, body⟩)
      (opcode : hdr.opcode = .prepare)
      (acceptor : isProposer start.pax = false)
      (newer : ballotCompare hdr.ballot start.pax.ballot = .gt)
      (found : proposerAcc start.pax = some acc) (bound : acc.peer = some source) :
      Top start event start (acceptorPromise start hdr).state
  | store {source hdr val next} (asked : event = .message source ⟨hdr, .value val⟩)
      (opcode : hdr.opcode = .decree) (acceptor : isProposer start.pax = false)
      (current : hdr.ballot = start.pax.ballot) (stores : Stores hdr val start next) :
      Top start event start next
  | accept {source hdr val next peer} (asked : event = .message source ⟨hdr, .value val⟩)
      (opcode : hdr.opcode = .decree) (acceptor : isProposer start.pax = false)
      (current : hdr.ballot = start.pax.ballot) (stores : Stores hdr val start next) :
      Top start event start
        (next.emit (.send peer { hdr := { hdr with opcode := .accept }, body := .empty }))
  | commitFresh {source hdr val} (asked : event = .message source ⟨hdr, .value val⟩)
      (opcode : hdr.opcode = .commit ∨ hdr.opcode = .recommit)
      (acceptor : isProposer start.pax = false)
      (absent : start.pax.ilist.find hdr.inum = none) :
      Top start event start (instanceInsertAndUpstart start (freshInstance hdr val))
  | commitOver {source hdr val cell} (asked : event = .message source ⟨hdr, .value val⟩)
      (opcode : hdr.opcode = .commit) (acceptor : isProposer start.pax = false)
      (found : start.pax.ilist.find hdr.inum = some cell)
      (uncommitted : cell.inst.committed = false) :
      Top start event start (start.modify cell.addr (overwrite val))
  | recommitOver {source hdr val cell} (asked : event = .message source ⟨hdr, .value val⟩)
      (opcode : hdr.opcode = .recommit) (acceptor : isProposer start.pax = false)
      (found : start.pax.ilist.find hdr.inum = some cell)
      (uncommitted : cell.inst.committed = false) :
      Top start event start (start.modify cell.addr (adopt hdr val))
  | vote {source hdr body cell} (asked : event = .message source ⟨hdr, body⟩)
      (opcode : hdr.opcode = .accept) (proposer : isProposer start.pax = true)
      (current : hdr.ballot = start.pax.ballot)
      (found : start.pax.ilist.find hdr.inum = some cell) :
      Top start event start (start.modify cell.addr countVote)
  | reject {node source hdr body cell} (asked : event = .message source ⟨hdr, body⟩)
      (opcode : hdr.opcode = .reject ∨ hdr.opcode = .refuse)
      (proposer : isProposer start.pax = true) (current : hdr.ballot = node.pax.ballot)
      (found : node.pax.ilist.find hdr.inum = some cell) :
      Top start event node (node.modify cell.addr countReject)
  /-- A part whose votes are tied is broadcast again. -/
  | rebroadcast {node source hdr body cell} (asked : event = .message source ⟨hdr, body⟩)
      (opcode : hdr.opcode = .reject ∨ hdr.opcode = .refuse)
      (proposer : isProposer start.pax = true) (current : hdr.ballot = node.pax.ballot)
      (number : hdr.inum = cell.inum) (mem : cell ∈ node.pax.ilist.cells)
      (uncommitted : cell.inst.committed = false) (part : cell.inst.val.dkind = .part)
      (lost : cell.inst.votes < majority node.pax)
      (tied : cell.inst.votes + cell.inst.rejects = node.pax.liveCount) :
      Top start event node (paxosBroadcastInstance node cell.inst)
  | rewrite {node inum acc chan cell} (prior : Prior start event node)
      (continues : Continues start.pax event (.ackReject inum) acc chan)
      (found : start.pax.ilist.find inum = some cell) :
      Top start event node (paxosBroadcastInstance
        (node.modify cell.addr (redecreeRejected chan)) (redecreeRejected chan cell.inst))
  | merge {source hdr count votes done prep next}
      (asked : event = .message source ⟨hdr, .votes count votes⟩) (opcode : hdr.opcode = .promise)
      (proposer : isProposer start.pax = true) (preparing : start.pax.prep = some prep)
      (current : hdr.ballot = prep.ballot) (before : done <+: votes)
      (merges : Merges start done next) : Top start event start next
  | ack {node source hdr count votes prep}
      (asked : event = .message source ⟨hdr, .votes count votes⟩) (opcode : hdr.opcode = .promise)
      (proposer : isProposer start.pax = true) (preparing : node.pax.prep = some prep)
      (same : start.pax.prep = some prep) (current : hdr.ballot = prep.ballot) :
      Top start event node (node.setPrep (some { prep with acks := prep.acks + 1 }))
  | win {node source hdr body prep begun} (asked : event = .message source ⟨hdr, body⟩)
      (opcode : hdr.opcode = .promise) (proposer : isProposer node.pax = true)
      (preparing : node.pax.prep = some prep) (current : hdr.ballot = prep.ballot)
      (enough : majority node.pax ≤ prep.acks) (same : start.pax.prep = some begun)
      (acked : prep = { begun with acks := begun.acks + 1 })
      (ballot : node.pax.ballot = start.pax.ballot)
      (quorum : majority node.pax = majority start.pax)
      (leads : isProposer start.pax = true) : Top start event node (node.setBallot prep.ballot)
  | fill {node prep lower place upper inum} (proposer : isProposer node.pax = true)
      (preparing : node.pax.prep = some prep) (won : node.pax.ballot = prep.ballot)
      (whole : node.pax.ilist.cells = lower ++ place :: upper) (above : place.inum < inum)
      (below : ∀ x ∈ upper, inum < x.inum) (inside : upper ≠ [])
      (ahead : node.pax.ihole ≤ inum) (completes : ∃ prep, Completes start.pax event prep) :
      Top start event node (redecreeInstance (fillNull node place.addr inum) (nextAddr node)
        (nullInstance node.bumpReqId.pax inum))
  | redecree {node prep addr inst} (proposer : isProposer node.pax = true)
      (preparing : node.pax.prep = some prep) (won : node.pax.ballot = prep.ballot)
      (held : node.inst? addr = some inst) (uncommitted : inst.committed = false)
      (ahead : node.pax.ihole ≤ inst.hdr.inum)
      (completes : ∃ prep, Completes start.pax event prep) :
      Top start event node (redecreeInstance node addr inst)
  | settle {node prep} (proposer : isProposer node.pax = true)
      (preparing : node.pax.prep = some prep) (won : node.pax.ballot = prep.ballot)
      (completes : ∃ prep, Completes start.pax event prep) :
      Top start event node (node.setPrep none)
  | undefer {node inst rest} (proposer : isProposer node.pax = true)
      (prepared : node.pax.prep = none) (deferred : node.pax.idefer = inst :: rest)
      (completes : ∃ prep, Completes start.pax event prep) :
      Top start event node (announceDecree (node.setIdefer rest) inst)
  | redirect {source hdr body prep} (asked : event = .message source ⟨hdr, body⟩)
      (opcode : hdr.opcode = .redirect) (proposer : isProposer start.pax = true)
      (preparing : start.pax.prep = some prep) :
      Top start event start (start.setPrep (some { prep with redirects := prep.redirects + 1 }))
  /-- A prepare is begun anew after a tie, or after a failure to reach a higher-ranked acceptor. -/
  | rebegin {node} (reason : (∃ prep source hdr body, start.pax.prep = some prep ∧
          isProposer start.pax = true ∧ event = .message source ⟨hdr, body⟩ ∧
          hdr.opcode = .redirect ∧ node.pax.proposer = start.pax.proposer ∧
          node.pax.genHigh = start.pax.genHigh) ∨
        Prior start event node ∧ ∃ acc, Continues start.pax event .ackRedirect acc none ∧
          acc.peer = none ∧ acc.paxid < start.pax.selfId)
      (enough : majority node.pax ≤ node.pax.liveCount) :
      Top start event node (beginPrepare (node.setPrep none))
  | yieldRedirect {node acc peer} (prior : Prior start event node)
      (continues : Continues start.pax event .ackRedirect acc (some peer)) (lost : acc.peer = none)
      (higher : acc.paxid < start.pax.selfId) (known : start.pax.proposer.isSome = true)
      (attached : node.pax.roster = (attachChannel start acc.paxid (some peer)).pax.roster) :
      Top start event start (yieldTo node acc)
  | yieldRefuse {node val acc peer} (prior : Prior start event node)
      (continues : Continues start.pax event (.ackRefuse val) acc (some peer))
      (unprepared : isProposer start.pax = false ∨ start.pax.prep.isSome = true)
      (attached : node.pax.roster = (attachChannel start acc.paxid (some peer)).pax.roster) :
      Top start event start (yieldTo node acc)
  | helloYield {node source hdr body acc proposer} (prior : Prior start event node)
      (asked : event = .message source ⟨hdr, body⟩) (opcode : hdr.opcode = .hello)
      (heeded : Heeds start.pax hdr)
      (found : acceptorFind start.pax.alist hdr.inum = some acc) (lost : acc.peer = none)
      (current : start.pax.proposer = some proposer) (higher : hdr.inum < proposer)
      (greeted : node.pax.roster = ((start.setPeer acc.paxid (some source)).setLiveCount
        (start.pax.liveCount + 1)).pax.roster) :
      Top start event start
        (((if isProposer node.pax then node.setPrep none else node).setProposer hdr.inum).setBallot
          hdr.ballot)
  | helloBallot {node source hdr body acc} (prior : Prior start event node)
      (asked : event = .message source ⟨hdr, body⟩) (opcode : hdr.opcode = .hello)
      (heeded : Heeds start.pax hdr)
      (found : acceptorFind start.pax.alist hdr.inum = some acc)
      (current : start.pax.proposer = some hdr.inum) :
      Top start event node (node.setBallot hdr.ballot)
  | truncate {node ibase} (prior : Prior start event node)
      (truncates : Truncates start.pax event ibase) :
      Top start event node (ilistTruncatePrefix { node with pax.ibase := ibase } ibase)
  | recommit {source hdr body cell} (asked : event = .message source ⟨hdr, body⟩)
      (opcode : hdr.opcode = .retry) (proposer : isProposer start.pax = true)
      (found : start.pax.ilist.find hdr.inum = some cell)
      (committed : cell.inst.committed = true) :
      Top start event start (paxosBroadcast start
        { hdr := { hdr with opcode := .recommit }, body := .value cell.inst.val })
  | welcome {node acc peer} (prior : Prior start event node)
      (continues : Continues start.pax event .welcome acc (some peer)) :
      Top start event node (node.emit (.send peer
        { hdr := headerInit node.pax .welcome acc.paxid
          body := .welcome node.pax.sessionId node.pax.ibase (node.pax.alist.map acceptorPack)
            (node.pax.ilist.cells.map fun cell => instancePack cell.inst) }))

/-- Where a learning loop stands. -/
inductive Stage where
  | scanning
  /-- Inside a learn, with the acceptor that it has still to remove. -/
  | learning (leaving : Option Nat)

/-- A learning loop that has not ended. -/
structure Loop where
  it : Option Addr
  stage : Stage

/-- A node in the middle of a handler, with the loops that are open, the innermost first. -/
structure Config where
  node : Node
  loops : List Loop

/-- Whether the innermost loop, if any, is inside a learn. -/
def Lets : List Loop → Prop
  | [] => True
  | loop :: _ => ∃ leaving, loop.stage = .learning leaving

/-- The acceptor that a learn has to remove once the client was told. -/
def leavingOf (pax : Session) (val : Value) : Option Nat :=
  if val.dkind = .part ∨ val.dkind = .kill then
    (acceptorFind pax.alist val.extra).map Acceptor.paxid
  else none

/-- What the client hears of a chat that is learned, as soon as it is. -/
def heard (pax : Session) (val : Value) (req : Option Request) : List Effect :=
  match val.dkind, req, acceptorFind pax.alist val.reqid.id with
  | .chat, some req, some acc => [.chat req.data acc.desc]
  | _, _, _ => []

/--
What a learn does at once.

It marks the instance, a join enters the acceptor list, and the client hears a chat.
-/
def learnt (node : Node) (addr : Addr) (inst : Instance) (req : Option Request) : Node :=
  match inst.val.dkind, req with
  | .join, some req => enlist (noteLearn node addr inst) inst.hdr.inum req
  | _, _ =>
    { noteLearn node addr inst with
      out := (noteLearn node addr inst).out ++ heard node.pax inst.val req }

/-- A chat is learned whose sender is not on the list. -/
inductive Unsent (reached : Node) : Node → Prop where
  | learn {addr inst} (held : reached.inst? addr = some inst)
      (hole : inst.hdr.inum = reached.pax.ihole) (committed : inst.committed = true)
      (cached : inst.cached = true) (unlearned : inst.learned = false)
      (kind : inst.val.dkind = .chat)
      (gone : acceptorFind reached.pax.alist inst.val.reqid.id = none) :
      Unsent reached (noteLearn reached addr inst)

/-- A move that may be made from within a learn, or that belongs to a learning loop. -/
inductive Inner (start : Node) (event : Event) : Config → Config → Prop where
  | nest {node next loops} (lets : Lets loops) (act : Nest start event node next) :
      Inner start event ⟨node, loops⟩ ⟨next, loops⟩
  | enter {node loops addr inst} (lets : Lets loops) (cursor : node.pax.istart = some addr)
      (held : node.inst? addr = some inst) (hole : inst.hdr.inum = node.pax.ihole)
      (licensed : Licenses start event) :
      Inner start event ⟨node, loops⟩ ⟨node, ⟨some addr, .scanning⟩ :: loops⟩
  | learn {node loops addr inst} (held : node.inst? addr = some inst)
      (hole : inst.hdr.inum = node.pax.ihole) (committed : inst.committed = true)
      (cached : inst.cached = true) (unlearned : inst.learned = false)
      (known : requestNeedsCached inst.val.dkind = true →
        (learnRequest node.pax inst.val).isSome = true)
      (sent : inst.val.dkind = .chat →
        (acceptorFind node.pax.alist inst.val.reqid.id).isSome = true) :
      Inner start event ⟨node, ⟨some addr, .scanning⟩ :: loops⟩
        ⟨learnt node addr inst (learnRequest node.pax inst.val),
          ⟨some addr, .learning (leavingOf node.pax inst.val)⟩ :: loops⟩
  | delist {node loops it paxid} (other : paxid ≠ node.pax.selfId)
      (stays : node.pax.proposer ≠ some paxid) :
      Inner start event ⟨node, ⟨it, .learning (some paxid)⟩ :: loops⟩
        ⟨delist node paxid, ⟨it, .learning none⟩ :: loops⟩
  | depose {node loops it paxid next} (other : paxid ≠ node.pax.selfId)
      (led : node.pax.proposer = some paxid) (replaces : Replaces (delist node paxid) next) :
      Inner start event ⟨node, ⟨it, .learning (some paxid)⟩ :: loops⟩
        ⟨next, ⟨it, .learning none⟩ :: loops⟩
  | next {node loops addr follow} (link : node.pax.ilist.next addr = some follow) :
      Inner start event ⟨node, ⟨some addr, .learning none⟩ :: loops⟩
        ⟨node.bumpIhole, ⟨follow, .scanning⟩ :: loops⟩
  | last {node loops} :
      Inner start event ⟨node, ⟨none, .scanning⟩ :: loops⟩
        ⟨node.setIstart (node.pax.ilist.last.map Cell.addr), loops⟩
  | gap {node loops addr inst} (held : node.inst? addr = some inst)
      (skipped : inst.hdr.inum ≠ node.pax.ihole) :
      Inner start event ⟨node, ⟨some addr, .scanning⟩ :: loops⟩
        ⟨node.setIstart (node.pax.ilist.prev addr), loops⟩
  | rest {node loops addr inst} (held : node.inst? addr = some inst)
      (hole : inst.hdr.inum = node.pax.ihole) (unfinished : inst.unfinished) :
      Inner start event ⟨node, ⟨some addr, .scanning⟩ :: loops⟩
        ⟨node.setIstart (some addr), loops⟩

/-- One move of a handler. -/
inductive Move (start : Node) (event : Event) : Config → Config → Prop where
  | inner {config after} (inner : Inner start event config after) : Move start event config after
  | top {node next} (act : Top start event node next) : Move start event ⟨node, []⟩ ⟨next, []⟩

/--
How the state in which a handler stops relates to the last move it made.

The learn of a chat without a sender is no move, as its assertion fails before the loop goes on.
-/
structure Halts (reason : Stop) (reached halted : Node) : Prop where
  out : halted.out = reached.out ∨ reason = .failed .learnSender
  past : reason = .failed .commitPastHole → ∃ cell ∈ reached.pax.ilist.cells,
    cell.inst.unfinished ∧ cell.inum < reached.pax.ihole
  starved : reason = .failed .learnCached → ∃ addr inst, reached.inst? addr = some inst ∧
    inst.cached = true ∧ inst.learned = false ∧ ¬ Supplied reached.pax inst.val
  unsent : reason = .failed .learnSender → Unsent reached halted
  office : isProposer reached.pax = true → isProposer halted.pax = true
  /-- The source only goes beyond the list from the cursor that a prepare has cached. -/
  linked : reason = .unlinked → ∃ prep addr, reached.pax.prep = some prep ∧
    prep.istart = some addr ∧ reached.pax.ilist.onList addr = false

/-- Moves lead a handler from its state to its result, or to where it stops. -/
def Leads (move : Config → Config → Prop) (loops after : List Loop) (node : Node)
    (result : Result) : Prop :=
  match result with
  | .ok next => Relation.ReflTransGen move ⟨node, loops⟩ ⟨next, after⟩
  | .stop reason halted => ∃ reached, Relation.ReflTransGen move ⟨node, loops⟩ reached ∧
      Halts reason reached.node halted

end Motmot
