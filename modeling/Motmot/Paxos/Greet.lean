import Motmot.Paxos.Request

/-! Starting a session, and the initiation of new participants. -/

namespace Motmot

/-- A session with every field zero, as `session_new` allocates it. -/
def sessionNew (sessionId : Uuid) : Session :=
  { sessionId := sessionId, selfId := 0, reqId := 0, proposer := none, ballot := ⟨0, 0⟩
    genHigh := 0, prep := none, syncId := 0, syncPrev := 0, sync := none, liveCount := 0
    alist := [], adefer := [], clist := [], ilist := { cells := [], limbo := [], brk := 0 }
    idefer := [], rcache := [], ibase := 0, ihole := 0, istart := none, nextHandle := 0 }

/-- The value of the join that opens a session. -/
def startValue : Value := { dkind := .join, reqid := ⟨1, 1⟩, extra := 0 }

/-- The artificial commit that opens a session. -/
def startInstance (sessionId : Uuid) : Instance :=
  { hdr := { session := sessionId, ballot := ⟨1, 1⟩, opcode := .decree, inum := 1 }
    committed := true, cached := true, learned := true, votes := 1, rejects := 0
    val := startValue }

/-- Starts up the protocol with ourselves as the proposer. -/
def paxosStart (sessionId : Uuid) (desc : Bytes) : Node :=
  { pax :=
      { sessionNew sessionId with
        selfId := 1, reqId := 1, proposer := some 1, ballot := ⟨1, 1⟩, genHigh := 1
        liveCount := 1
        alist := [{ paxid := 1, peer := none, desc := desc }]
        ilist :=
          { cells := [{ addr := 0, inst := startInstance sessionId }], limbo := [], brk := 1 }
        rcache := [{ val := startValue, data := desc }]
        ibase := 1
        -- Learning starts at the next instance.
        ihole := 2
        istart := some 0 }
    out := []
    script := [] }

/-- Registers our connection to a new acceptor and transfers our state, or decrees a part. -/
def continueWelcome (fuel : Nat) (node : Node) (chan : Option PeerId) (acc : Acceptor) : Result :=
  let attached := attachChannel node acc.paxid chan
  match chan with
  | none => proposerDecreePart (paxosCommit fuel) attached acc false
  | some peer =>
    let pax := attached.pax
    paxosSend attached { acc with peer := some peer }
      { hdr := headerInit pax .welcome acc.paxid
        body := .welcome pax.sessionId pax.ibase (pax.alist.map acceptorPack)
          (pax.ilist.cells.map fun cell => instancePack cell.inst) }

/-- Unpacks the acceptors of a welcome; we connect to all but ourselves and the proposer. -/
def welcomeAcceptors (source : PeerId) (hdr : Header) : Node → List PackedAcceptor → Node
  | node, [] => node
  | node, packed :: rest =>
    let acc := acceptorUnpack packed
    if acc.paxid = hdr.ballot.id then
      let bound := node.setAlist (node.pax.alist ++ [{ acc with peer := some source }])
      welcomeAcceptors source hdr
        ((bound.setProposer acc.paxid).setLiveCount (bound.pax.liveCount + 1)) rest
    else
      let listed := node.setAlist (node.pax.alist ++ [acc])
      let greeted := if acc.paxid ≠ node.pax.selfId then listed.connect .ackWelcome acc else listed
      welcomeAcceptors source hdr greeted rest

/-- Unpacks the instances of a welcome into consecutive allocations. -/
def welcomeCells : Addr → List PackedInstance → List Cell
  | _, [] => []
  | addr, packed :: rest =>
    { addr := addr, inst := instanceUnpack packed } :: welcomeCells (addr + 1) rest

/--
Finds the hole of a welcomed log, taking the commits before it as learned.

The scan carries the element before the current one, where `none` is the list head.
-/
def welcomeScan : Option Addr → Nat → List Cell → List Cell × Nat × Option Addr
  | prev, hole, [] => ([], hole, prev)
  | prev, hole, cell :: rest =>
    if cell.inum ≠ hole then (cell :: rest, hole, prev)
    else if !cell.inst.committed then (cell :: rest, hole, some cell.addr)
    else
      let (marked, last, start) := welcomeScan (some cell.addr) (hole + 1) rest
      ({ cell with inst.cached := true, inst.learned := true } :: marked, last, start)

/-- Is welcomed to the system: the session is created from the state of the sender. -/
def acceptorAckWelcome (source : PeerId) (hdr : Header) (session : Uuid) (ibase : Nat)
    (alist : List PackedAcceptor) (ilist : List PackedInstance) : Node :=
  let entered : Node :=
    { pax :=
        { sessionNew session with
          ballot := hdr.ballot, selfId := hdr.inum, genHigh := hdr.ballot.gen, ibase := ibase
          -- We are live.
          liveCount := 1 }
      out := [.enter]
      script := [] }
  let peopled := welcomeAcceptors source hdr entered alist
  let (cells, ihole, istart) := welcomeScan none ibase (welcomeCells 0 ilist)
  { peopled with
    pax.ilist := { cells := cells, limbo := [], brk := ilist.length }
    pax.ihole := ihole
    pax.istart := istart }

/-- Registers our initial connection to another acceptor. -/
def continueAckWelcome (node : Node) (chan : Option PeerId) (acc : Acceptor) : Result :=
  let attached := attachChannel node acc.paxid chan
  match chan with
  | none => .ok attached
  | some peer => paxosHello attached { acc with peer := some peer }

/-- Attaches the source of a hello to an acceptor, which may demote the proposer. -/
def helloAttach (node : Node) (source : PeerId) (hdr : Header) (acc : Acceptor) : Result :=
  if acc.peer.isNone then
    let attached :=
      (node.setPeer acc.paxid (some source)).setLiveCount (node.pax.liveCount + 1)
    match attached.pax.proposer with
    | none => attached.undefined
    | some proposer =>
      if acc.paxid < proposer then
        let yielded := if isProposer attached.pax then attached.setPrep none else attached
        .ok (yielded.setProposer acc.paxid)
      else .ok attached
  else if hdr.inum < node.pax.selfId then
    -- Both ends reconnected, and the channel made by the higher-ranked one is kept.
    .ok ((peerDestroy node acc.peer).setPeer acc.paxid (some source))
  else .ok node

/-- Takes over the ballot of a hello that comes from the proposer. -/
def helloBallot (node : Node) (hdr : Header) : Result :=
  match node.pax.proposer with
  | none => node.undefined
  | some proposer => if hdr.inum = proposer then .ok (node.setBallot hdr.ballot) else .ok node

/-- Records the identity of a fellow acceptor. -/
def paxosAckHello (node : Node) (source : PeerId) (hdr : Header) : Result :=
  -- A prepared proposer ignores everyone higher-ranked.
  if isProposer node.pax && node.pax.prep.isNone && hdr.inum < node.pax.selfId then .ok node
  else
    match acceptorFind node.pax.alist hdr.inum with
    | none =>
      -- Its join is not learned yet, so the hello is deferred.
      .ok (node.setAdefer (acceptorInsert node.pax.adefer
        { paxid := hdr.inum, peer := some source, desc := [] }))
    | some acc => (helloAttach node source hdr acc).andThen fun node => helloBallot node hdr

end Motmot
