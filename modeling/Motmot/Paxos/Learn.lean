import Motmot.Paxos.Decree

/-! Commits, and the loop that learns them in order. -/

namespace Motmot

/-- Asks the proposer for a commit we are missing. -/
def acceptorRetry (node : Node) (hole : Nat) : Result :=
  paxosSendToProposer node { hdr := headerInit node.pax .retry hole, body := .empty }

/-- Asks the originator of a request for its data, or everyone if we have lost the originator. -/
def paxosRetrieve (node : Node) (inst : Instance) : Result :=
  let msg : Msg :=
    { hdr := headerInit node.pax .retrieve inst.hdr.inum
      body := .retrieve node.pax.selfId inst.val }
  match acceptorFind node.pax.alist inst.val.reqid.id with
  | none => .ok (paxosBroadcast node msg)
  | some acc => if acc.peer.isNone then .ok (paxosBroadcast node msg) else paxosSend node acc msg

/-- The calls that the client makes from one callback, in order. -/
def clientCalls (commit : Commit) : Node → List ClientCall → Result
  | node, [] => .ok node
  | node, call :: rest =>
    (paxosRequest commit node call).andThen fun node => clientCalls commit node rest

/-- Lets the client act from a callback, which may issue requests on the session. -/
def invoke (commit : Commit) (node : Node) : Result :=
  match node.script with
  | [] => .ok node
  | visit :: rest =>
    (clientCalls commit { node with script := rest } visit.calls).andThen fun node =>
      -- The current session is global, and whatever the client left there is not restored.
      if visit.back = .here then .ok node else .stop (.away visit.back) node

/-- Invokes a callback of the client. -/
def callback (commit : Commit) (node : Node) (effect : Effect) : Result :=
  invoke commit (node.emit effect)

/-- Initiates a connection to a new acceptor, by a callback like the others. -/
def proposerWelcome (commit : Commit) (node : Node) (acc : Acceptor) : Result :=
  invoke commit (node.connect .welcome acc)

/-- Learns a chat: the sender must be an acceptor. -/
def learnChat (commit : Commit) (node : Node) (req : Request) : Result :=
  match acceptorFind node.pax.alist req.val.reqid.id with
  | none => node.fail .learnSender
  | some acc => callback commit node (.chat req.data acc.desc)

/-- The acceptor that a join makes, with the channel of a deferred hello if there was one. -/
def joinedAcceptor (pax : Session) (inum : Nat) (req : Request) : Acceptor :=
  { paxid := inum, peer := (acceptorFind pax.adefer inum).bind Acceptor.peer, desc := req.data }

/-- Puts a new acceptor on the list, and completes the hello that we deferred for it. -/
def enlist (node : Node) (inum : Nat) (req : Request) : Node :=
  let moved :=
    match acceptorFind node.pax.adefer inum with
    | some _ =>
      (node.setAdefer (node.pax.adefer.filter fun acc => acc.paxid ≠ inum)).setLiveCount
        (node.pax.liveCount + 1)
    | none => node
  moved.setAlist (acceptorInsert moved.pax.alist (joinedAcceptor node.pax inum req))

/-- Learns a join: the new acceptor enters the list, and the proposer welcomes it. -/
def learnJoin (commit : Commit) (node : Node) (inum : Nat) (req : Request) : Result :=
  let acc := joinedAcceptor node.pax inum req
  let joined := enlist node inum req
  (if isProposer joined.pax then proposerWelcome commit joined acc else .ok joined).andThen
    fun node => callback commit node (.join req.data acc.desc)

/-- Takes an acceptor off the list, and does the accounting if it was still live. -/
def delist (node : Node) (paxid : Nat) : Node :=
  let removed := node.setAlist (node.pax.alist.filter fun acc => acc.paxid ≠ paxid)
  if ((acceptorFind node.pax.alist paxid).bind Acceptor.peer).isSome then
    removed.setLiveCount (unsignedPred removed.pax.liveCount)
  else removed

/-- Learns a part or a kill of an acceptor. -/
def learnPart (commit : Commit) (node : Node) (paxid : Nat) : Result :=
  match acceptorFind node.pax.alist paxid with
  -- We may part twice, and the second time there is nobody to remove.
  | none => .ok node
  | some acc =>
    (callback commit node (.part acc.desc)).andThen fun node =>
      if paxid = node.pax.selfId then paxosEnd node
      else
        let peer := (acceptorFind node.pax.alist paxid).bind Acceptor.peer
        let removed := delist node paxid
        match removed.pax.proposer with
        | none => removed.undefined
        | some proposer =>
          -- A parted proposer is replaced, and if the choice falls on us we prepare.
          let elected := if paxid = proposer then resetProposer removed else removed
          (if paxid = proposer && isProposer elected.pax then proposerPrepare commit elected true
            else .ok elected).andThen fun node => .ok (peerDestroy node peer)

/-- Marks an instance learned. -/
def markLearned (inst : Instance) : Instance := { inst with learned := true }

/-- Marks the learn. -/
def noteLearn (node : Node) (addr : Addr) (inst : Instance) : Node :=
  (node.emit (.learn inst.hdr.inum inst.val)).modify addr markLearned

/-- Does something useful with the value of a commit. -/
def paxosLearn (commit : Commit) (node : Node) (addr : Addr) (inst : Instance)
    (req : Option Request) : Result :=
  let marked := noteLearn node addr inst
  match inst.val.dkind, req with
  | .null, _ => .ok marked
  | .chat, some req => learnChat commit marked req
  | .join, some req => learnJoin commit marked inst.hdr.inum req
  | .part, _ | .kill, _ => learnPart commit marked inst.val.extra
  | .chat, none | .join, none => marked.undefined

/-- The request of a value that needs one, which a cached instance is guaranteed to have. -/
def learnRequest (pax : Session) (val : Value) : Option Request :=
  if requestNeedsCached val.dkind then requestFind pax.rcache val.reqid else none

/-- Learns contiguous commits from an iterator on, where `none` is the list head. -/
def learnLoop (commit : Commit) : Nat → Node → Option Addr → Result
  | 0, node, _ => .stop .diverged node
  -- At the end of the list the cursor rests on the last existing instance.
  | _ + 1, node, none => .ok (node.setIstart (node.pax.ilist.last.map Cell.addr))
  | fuel + 1, node, some addr =>
    match node.inst? addr with
    | none => node.undefined
    | some inst =>
      -- A skipped number leaves the cursor on the last instance before the hole.
      if inst.hdr.inum ≠ node.pax.ihole then .ok (node.setIstart (node.pax.ilist.prev addr))
      else if !inst.committed || !inst.cached then .ok (node.setIstart (some addr))
      else if inst.learned then node.fail .learnOnce
      else
        let req := learnRequest node.pax inst.val
        if requestNeedsCached inst.val.dkind && req.isNone then node.fail .learnCached
        else
          (paxosLearn commit node addr inst req).andThen fun node =>
            match node.pax.ilist.next addr with
            | none => node.undefined
            | some follow => learnLoop commit fuel node.bumpIhole follow

/-- Points the cursor at the instance that fills the hole, then learns from there. -/
def commitHole (commit : Commit) (fuel : Nat) (node : Node) : Result :=
  match node.pax.istart with
  | none => node.undefined
  | some start =>
    match node.inst? start with
    | none => node.undefined
    | some inst =>
      let target := if inst.hdr.inum ≠ node.pax.ihole then node.pax.ilist.next start
        else some (some start)
      match target with
      | some (some start) =>
        match node.inst? start with
        | none => node.undefined
        | some inst =>
          let moved := node.setIstart (some start)
          if inst.hdr.inum ≠ moved.pax.ihole then moved.fail .commitAtHole
          else learnLoop commit fuel moved (some start)
      | _ => node.undefined

/-- A commit past the hole: the proposer waits, and an acceptor asks for what it is missing. -/
def commitAhead (node : Node) : Result :=
  if isProposer node.pax then .ok node
  else
    match node.pax.istart.bind node.inst? with
    | none => node.undefined
    | some start =>
      -- A hole that is committed waits for a resend, and anything else is retried.
      if start.hdr.inum = node.pax.ihole && start.committed then
        if start.cached then node.fail .commitHoleUncached else .ok node
      else acceptorRetry node node.pax.ihole

/-- Marks an instance committed. -/
def markCommitted (inst : Instance) : Instance := { inst with committed := true }

/-- Marks an instance cached. -/
def markCached (inst : Instance) : Instance := { inst with cached := true }

/-- Commits the value of an instance, where `commit` serves the commits nested in its learns. -/
def commitWith (commit : Commit) (fuel : Nat) (node : Node) (cell : Cell) : Result :=
  let inst := cell.inst
  let committed := node.modify cell.addr markCommitted
  if requestNeedsCached inst.val.dkind
      && (requestFind committed.pax.rcache inst.val.reqid).isNone then
    -- The request is missing, so the rest waits for its data to be resent.
    paxosRetrieve committed inst
  else
    let cached := committed.modify cell.addr markCached
    if inst.hdr.inum < cached.pax.ihole then cached.fail .commitPastHole
    else if inst.hdr.inum ≠ cached.pax.ihole then commitAhead cached
    else commitHole commit fuel cached

/-- Commits the value of an instance and learns what has become contiguous. -/
def paxosCommit : Nat → Commit
  | 0, node, _ => .stop .diverged node
  | fuel + 1, node, cell => commitWith (paxosCommit fuel) fuel node cell

end Motmot
