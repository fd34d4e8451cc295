import Motmot.Proofs.Paxos.Enrolment
import Motmot.Proofs.Paxos.Stall

/-! Learning a value when the client does nothing from its callbacks. -/

namespace Motmot

/-- Whether an effect sends an `OP_RETRY`. -/
def Effect.isRetry : Effect → Bool
  | .send _ msg => msg.hdr.opcode = .retry
  | _ => false

/-- The `OP_RETRY` messages that a session has sent. -/
def Node.retries (node : Node) : List Effect := node.out.filter Effect.isRetry

/-- Who takes part after a value was learned. -/
def seated (node : Node) (inst : Instance) : Node :=
  match inst.val.dkind, learnRequest node.pax inst.val with
  | .join, some req => enlist node inst.hdr.inum req
  | .part, _ | .kill, _ =>
    match acceptorFind node.pax.alist inst.val.extra with
    | none => node
    | some _ =>
      let removed := delist node inst.val.extra
      -- Our own part ends the session.
      if inst.val.extra = node.pax.selfId then node
      else if node.pax.proposer = some inst.val.extra then resetProposer removed else removed
  | _, _ => node

/-- The value of an instance can be learned among those who take part. -/
def Admissible (node : Node) (inst : Instance) : Prop :=
  match inst.val.dkind with
  | .null | .join => True
  -- The sender must be an acceptor.
  | .chat => (acceptorFind node.pax.alist inst.val.reqid.id).isSome = true
  -- Somebody has to be the proposer, and a prepare that this leads to has to be the only one.
  | .part | .kill =>
    acceptorFind node.pax.alist inst.val.extra = none ∨
    inst.val.extra = node.pax.selfId ∨
    node.pax.proposer.isSome = true ∧
      (node.pax.proposer = some inst.val.extra →
        isProposer (seated node inst).pax = true → node.pax.prep = none)

/-- Instances can be learned one after the other. -/
def Admits : Node → List Instance → Prop
  | _, [] => True
  | node, inst :: rest => Admissible node inst ∧ Admits (seated node inst) rest

/-- Two sessions of the same node have the same participants and requests. -/
structure Alike (x y : Session) : Prop where
  alist : x.alist = y.alist
  adefer : x.adefer = y.adefer
  selfId : x.selfId = y.selfId
  proposer : x.proposer = y.proposer
  rcache : x.rcache = y.rcache
  /-- A prepare is of no interest to a proposer. -/
  prep : isProposer x = true ∨ x.prep = y.prep

/-- Who is the proposer is told by the participants. -/
theorem Alike.isProposer {x y : Session} (alike : Alike x y) : isProposer x = isProposer y := by
  simp [Motmot.isProposer, alike.proposer, alike.selfId]

/-- Enlisting is told by the participants and the requests. -/
theorem enlist_alike {x y : Node} (alike : Alike x.pax y.pax) (inum : Nat) (req : Request) :
    Alike (enlist x inum req).pax (enlist y inum req).pax := by
  obtain ⟨alist, adefer, selfId, proposer, rcache, prep⟩ := alike
  unfold enlist
  -- The two find the same hello that waits, or none.
  rw [adefer]
  cases acceptorFind y.pax.adefer inum <;>
    exact ⟨by simp [Node.setAlist, Node.setLiveCount, Node.setAdefer, joinedAcceptor, alist,
        adefer],
      by simp [Node.setAlist, Node.setLiveCount, Node.setAdefer, adefer],
      selfId, proposer, rcache, prep⟩

@[simp] theorem delist_proposer (node : Node) (paxid : Nat) :
    (delist node paxid).pax.proposer = node.pax.proposer :=
  congrArg Core.proposer (delist_core node paxid)

@[simp] theorem delist_prep (node : Node) (paxid : Nat) :
    (delist node paxid).pax.prep = node.pax.prep :=
  congrArg Core.prep (delist_core node paxid)

@[simp] theorem resetProposer_prep (node : Node) :
    (resetProposer node).pax.prep = node.pax.prep := by
  unfold resetProposer
  split <;> rfl

/-- So is taking somebody off the list. -/
theorem delist_alike {x y : Node} (alike : Alike x.pax y.pax) (paxid : Nat) :
    Alike (delist x paxid).pax (delist y paxid).pax := by
  -- Taking somebody off writes these lists and a count that is not compared.
  have beside : ∀ node : Node, (delist node paxid).pax.alist =
      node.pax.alist.filter (fun acc => acc.paxid ≠ paxid) ∧
      (delist node paxid).pax.adefer = node.pax.adefer ∧
      (delist node paxid).pax.rcache = node.pax.rcache := by
    intro node
    unfold delist
    split <;> simp [Node.setAlist, Node.setLiveCount]
  -- Each field is told by the same field before.
  constructor
  case alist => rw [(beside x).1, (beside y).1, alike.alist]
  case adefer => rw [(beside x).2.1, (beside y).2.1, alike.adefer]
  case rcache => rw [(beside x).2.2, (beside y).2.2, alike.rcache]
  case selfId => rw [delist_selfId, delist_selfId, alike.selfId]
  case proposer => simpa using alike.proposer
  case prep =>
    simpa [Motmot.isProposer, delist_selfId] using alike.prep

/-- And so is the choice of a proposer. -/
theorem resetProposer_alike {x y : Node} (alike : Alike x.pax y.pax)
    (prep : x.pax.prep = y.pax.prep) : Alike (resetProposer x).pax (resetProposer y).pax := by
  obtain ⟨alist, adefer, selfId, proposer, rcache, -⟩ := alike
  -- The two choose alike, since they have the same list.
  have live : firstLive x.pax = firstLive y.pax := by simp [firstLive, alist, selfId]
  unfold resetProposer
  rw [live]
  split
  · exact ⟨alist, adefer, selfId, rfl, rcache, Or.inr prep⟩
  · exact ⟨alist, adefer, selfId, proposer, rcache, Or.inr prep⟩

/-- What is done beside the log: nothing is learned and nothing asked for. -/
structure Aside (node next : Node) : Prop where
  ilist : next.pax.ilist = node.pax.ilist
  ihole : next.pax.ihole = node.pax.ihole
  rcache : next.pax.rcache = node.pax.rcache
  selfId : next.pax.selfId = node.pax.selfId
  script : next.script = node.script
  learns : next.learns = node.learns
  retries : next.retries = node.retries

/-- Doing nothing is beside the log. -/
theorem Aside.refl (node : Node) : Aside node node := ⟨rfl, rfl, rfl, rfl, rfl, rfl, rfl⟩

/-- Two things beside the log are one. -/
theorem Aside.trans {node mid next : Node} (first : Aside node mid) (second : Aside mid next) :
    Aside node next where
  ilist := second.ilist.trans first.ilist
  ihole := second.ihole.trans first.ihole
  rcache := second.rcache.trans first.rcache
  selfId := second.selfId.trans first.selfId
  script := second.script.trans first.script
  learns := second.learns.trans first.learns
  retries := second.retries.trans first.retries

/-- Effects other than learns and retries. -/
theorem Aside.emit (node : Node) (effect : Effect) (learned : effect.learned = none)
    (retry : effect.isRetry = false) : Aside node (node.emit effect) := by
  constructor <;> simp [Node.emit, Node.learns, Node.retries, learned, retry]

/-- A broadcast other than a retry. -/
theorem Aside.broadcast (node : Node) (msg : Msg) (opcode : msg.hdr.opcode ≠ .retry) :
    Aside node (paxosBroadcast node msg) := by
  -- What goes to the acceptors are sends, which are neither learns nor retries.
  have silent : ∀ accs : List Acceptor,
      (accs.filterMap fun acc => acc.peer.map (Effect.send · msg)).filterMap Effect.learned =
        [] := by
    intro accs
    apply List.filterMap_eq_nil_iff.mpr
    intro effect mem
    obtain ⟨acc, -, sent⟩ := List.mem_filterMap.mp mem
    obtain ⟨peer, -, rfl⟩ := Option.map_eq_some_iff.mp sent
    rfl
  have other : ∀ accs : List Acceptor,
      (accs.filterMap fun acc => acc.peer.map (Effect.send · msg)).filter Effect.isRetry = [] := by
    intro accs
    apply List.filter_eq_nil_iff.mpr
    intro effect mem
    obtain ⟨acc, -, sent⟩ := List.mem_filterMap.mp mem
    obtain ⟨peer, -, rfl⟩ := Option.map_eq_some_iff.mp sent
    simpa [Effect.isRetry] using opcode
  constructor <;> simp [paxosBroadcast, broadcastTo, Node.learns, Node.retries, silent, other]

/-- While a prepare is running, parts are only put off. -/
theorem decreeDropped_deferring (commit : Commit) (accs : List Acceptor) (node : Node)
    (preparing : node.pax.prep.isSome = true) : ∃ count deferred,
    decreeDropped commit node accs =
      .ok { node with pax.reqId := count, pax.idefer := deferred } := by
  -- Each part is counted and put at the end of what is deferred.
  induction accs generalizing node with
  | nil => exact ⟨node.pax.reqId, node.pax.idefer, rfl⟩
  | cons acc rest ih =>
    unfold decreeDropped
    split
    · exact ih node preparing
    · -- The part goes to the end of what is deferred.
      have puts : proposerDecreePart commit node acc (acc.paxid < node.pax.selfId) =
          .ok (node.bumpReqId.setIdefer (node.pax.idefer ++
            [partInstance node.bumpReqId.pax acc.paxid (acc.paxid < node.pax.selfId)])) := by
        have still : node.bumpReqId.pax.prep.isSome = true := preparing
        simp only [proposerDecreePart, decreeOrDefer, still, if_true]
        rfl
      obtain ⟨count, deferred, same⟩ := ih (node.bumpReqId.setIdefer (node.pax.idefer ++
        [partInstance node.bumpReqId.pax acc.paxid (acc.paxid < node.pax.selfId)])) preparing
      refine ⟨count, deferred, ?_⟩
      rw [puts, Outcome.andThen_ok, same]
      rfl

/-- A prepare that is the only one begins, unless too few acceptors are left. -/
theorem proposerPrepare_silent (commit : Commit) (node : Node) :
    (node.pax.prep = none ∧ ∃ halted, proposerPrepare commit node true = .stop .ended halted) ∨
    (node.pax.prep = none ∧ ∃ next, proposerPrepare commit node true = .ok next ∧
      Aside node next ∧ next.pax.alist = node.pax.alist ∧ next.pax.adefer = node.pax.adefer ∧
      next.pax.proposer = node.pax.proposer) ∨
    (node.pax.prep ≠ none ∧ ∃ reason halted,
      proposerPrepare commit node true = .stop reason halted) := by
  -- A prepare fails while another runs, ends the session with too few, or begins.
  unfold proposerPrepare
  cases idle : node.pax.prep with
  | some prep =>
    right; right
    exact ⟨by simp, .failed .prepareNotPreparing, node, by simp [Node.fail]⟩
  | none =>
    simp only [Option.isSome_none, Bool.false_eq_true, if_false]
    by_cases few : node.pax.liveCount < majority node.pax
    · left
      rw [if_pos few]
      exact ⟨trivial, _, rfl⟩
    · right; left
      refine ⟨trivial, ?_⟩
      rw [if_neg few]
      obtain ⟨count, deferred, same⟩ :=
        decreeDropped_deferring commit (beginPrepare node).pax.alist (beginPrepare node) rfl
      simp only [if_true, same, Outcome.andThen_ok]
      refine ⟨_, rfl, ?_, rfl, rfl, rfl⟩
      have begun : Aside node { beginPrepare node with
          pax.reqId := count, pax.idefer := deferred } := ⟨rfl, rfl, rfl, rfl, rfl, rfl, rfl⟩
      exact begun.trans (.broadcast _ _ (by simp [prepareMsg]))

/-- Enlisting is beside the log. -/
theorem enlist_aside (node : Node) (inum : Nat) (req : Request) :
    Aside node (enlist node inum req) := by
  unfold enlist
  cases acceptorFind node.pax.adefer inum <;> exact ⟨rfl, rfl, rfl, rfl, rfl, rfl, rfl⟩

/-- Taking somebody off the list is beside the log. -/
theorem delist_aside (node : Node) (paxid : Nat) : Aside node (delist node paxid) := by
  unfold delist
  split <;> constructor <;> simp [Node.setLiveCount, Node.setAlist, Node.learns, Node.retries]

/-- Choosing a proposer is beside the log. -/
theorem resetProposer_aside (node : Node) : Aside node (resetProposer node) := by
  unfold resetProposer
  split <;> exact ⟨rfl, rfl, rfl, rfl, rfl, rfl, rfl⟩

/-- Closing a channel is beside the log. -/
theorem peerDestroy_aside (node : Node) (peer : Option PeerId) :
    Aside node (peerDestroy node peer) := by
  cases peer with
  | none => exact .refl node
  | some peer => exact .emit node _ rfl rfl

@[simp] theorem peerDestroy_pax (node : Node) (peer : Option PeerId) :
    (peerDestroy node peer).pax = node.pax := by
  cases peer <;> rfl

/-- A client that does nothing leaves a callback without effect. -/
theorem callback_silent (commit : Commit) {node : Node} (silent : node.script = [])
    (effect : Effect) : callback commit node effect = .ok (node.emit effect) := by
  simp [callback, invoke, Node.emit, silent]

/-- What learning a value leaves. -/
structure Absorbs (node : Node) (addr : Addr) (inst : Instance) (next : Node) : Prop where
  ilist : next.pax.ilist = node.pax.ilist.modify addr markLearned
  ihole : next.pax.ihole = node.pax.ihole
  script : next.script = node.script
  learns : next.learns = node.learns ++ [inst.hdr.inum]
  retries : next.retries = node.retries
  alike : Alike next.pax (seated node inst).pax

/-- What is done beside the log after the mark of a learn. -/
theorem Absorbs.of_aside {node next : Node} {addr : Addr} {inst : Instance}
    (aside : Aside (noteLearn node addr inst) next)
    (alike : Alike next.pax (seated node inst).pax) :
    Absorbs node addr inst next where
  ilist := aside.ilist
  ihole := aside.ihole
  script := aside.script
  -- What is told is the learn, and nothing behind it is one.
  learns := by
    rw [aside.learns]
    simp [noteLearn, Node.learns, Node.emit, Node.modify, Node.setIlist, Effect.learned]
  retries := by
    rw [aside.retries]
    simp [noteLearn, Node.retries, Node.emit, Node.modify, Node.setIlist, Effect.isRetry]
  alike := alike

/-- How learning a value ends: with the session, as it should, or because it was not admissible. -/
def LearnEnds (node : Node) (addr : Addr) (inst : Instance) (result : Result) : Prop :=
  (∃ halted, result = .stop .ended halted) ∨
  (Admissible node inst ∧ ∃ next, result = .ok next ∧ Absorbs node addr inst next) ∨
  (¬ Admissible node inst ∧ ∃ reason halted, result = .stop reason halted)

/-- A chat is learned if its sender is an acceptor. -/
theorem learnChat_silent (commit : Commit) {node : Node} {addr : Addr} {inst : Instance}
    {req : Request} (silent : node.script = []) (kind : inst.val.dkind = .chat)
    (same : req.val.reqid = inst.val.reqid) :
    LearnEnds node addr inst (learnChat commit (noteLearn node addr inst) req) := by
  -- The sender is looked up among the acceptors, and the chat goes to the client.
  have unseated : seated node inst = node := by simp [seated, kind]
  right
  unfold learnChat
  rw [same]
  cases found : acceptorFind (noteLearn node addr inst).pax.alist inst.val.reqid.id with
  | none =>
    have missing : acceptorFind node.pax.alist inst.val.reqid.id = none := found
    right
    exact ⟨by simp [Admissible, kind, missing], _, _, rfl⟩
  | some acc =>
    have there : acceptorFind node.pax.alist inst.val.reqid.id = some acc := found
    left
    have marked_ : (noteLearn node addr inst).script = [] := silent
    refine ⟨by simp [Admissible, kind, there], _, callback_silent commit marked_ _, ?_⟩
    apply Absorbs.of_aside (.emit _ _ rfl rfl)
    rw [unseated]
    exact ⟨rfl, rfl, rfl, rfl, rfl, Or.inr rfl⟩

/-- A join is always learned. -/
theorem learnJoin_silent (commit : Commit) {node : Node} {addr : Addr} {inst : Instance}
    {req : Request} (silent : node.script = []) (kind : inst.val.dkind = .join)
    (held : learnRequest node.pax inst.val = some req) :
    LearnEnds node addr inst
      (learnJoin commit (noteLearn node addr inst) inst.hdr.inum req) := by
  have joined : seated node inst = enlist node inst.hdr.inum req := by simp [seated, kind, held]
  right; left
  refine ⟨by simp [Admissible, kind], ?_⟩
  -- The mark of the learn does not concern the participants.
  have alike : Alike (enlist (noteLearn node addr inst) inst.hdr.inum req).pax
      (enlist node inst.hdr.inum req).pax := by
    have same : Alike (noteLearn node addr inst).pax node.pax :=
      ⟨rfl, rfl, rfl, rfl, rfl, Or.inr rfl⟩
    exact enlist_alike same _ _
  have aside := enlist_aside (noteLearn node addr inst) inst.hdr.inum req
  have still : (enlist (noteLearn node addr inst) inst.hdr.inum req).script = [] :=
    aside.script.trans silent
  unfold learnJoin
  simp only
  split
  · -- The proposer asks for a connection to the new acceptor first.
    have welcomes : ∀ acc, proposerWelcome commit
        (enlist (noteLearn node addr inst) inst.hdr.inum req) acc =
        .ok ((enlist (noteLearn node addr inst) inst.hdr.inum req).connect .welcome acc) := by
      intro acc
      simp [proposerWelcome, invoke, Node.connect, Node.emit, still]
    have asked : ∀ acc, Aside (enlist (noteLearn node addr inst) inst.hdr.inum req)
        ((enlist (noteLearn node addr inst) inst.hdr.inum req).connect .welcome acc) := by
      intro acc
      constructor <;> simp [Node.connect, Node.emit, Node.learns, Node.retries, Effect.learned,
        Effect.isRetry]
    rw [welcomes, Outcome.andThen_ok]
    have there := (asked (joinedAcceptor (noteLearn node addr inst).pax inst.hdr.inum req)).script
    refine ⟨_, callback_silent commit (there.trans still) _, ?_⟩
    apply Absorbs.of_aside (aside.trans ((asked _).trans (.emit _ _ rfl rfl)))
    rw [joined]
    exact ⟨alike.alist, alike.adefer, alike.selfId, alike.proposer, alike.rcache, alike.prep⟩
  · rw [Outcome.andThen_ok]
    refine ⟨_, callback_silent commit still _, .of_aside (aside.trans (.emit _ _ rfl rfl)) ?_⟩
    rw [joined]
    exact alike

/-- Behind the part of the proposer another one is chosen, who prepares if that is the session. -/
theorem elect_silent (commit : Commit) {node removed : Node} {addr : Addr} {inst : Instance}
    {peer : Option PeerId} (aside : Aside (noteLearn node addr inst) removed)
    (alike : Alike (resetProposer removed).pax (seated node inst).pax)
    (prep : removed.pax.prep = node.pax.prep) :
    let result := (if isProposer (resetProposer removed).pax then
        proposerPrepare commit (resetProposer removed) true
      else .ok (resetProposer removed)).andThen fun node => .ok (peerDestroy node peer)
    (∃ halted, result = .stop .ended halted) ∨
    ((isProposer (seated node inst).pax = true → node.pax.prep = none) ∧
      ∃ next, result = .ok next ∧ Absorbs node addr inst next) ∨
    (¬ (isProposer (seated node inst).pax = true → node.pax.prep = none) ∧
      ∃ reason halted, result = .stop reason halted) := by
  -- The first live acceptor takes over, and prepares if it is the session itself.
  intro result
  have gone := aside.trans (resetProposer_aside removed)
  have ours := alike.isProposer
  have idle : (resetProposer removed).pax.prep = node.pax.prep := by simp [prep]
  cases turn : isProposer (resetProposer removed).pax with
  | false =>
    -- Somebody else leads, so nothing is prepared here.
    right; left
    rw [turn] at ours
    refine ⟨by simp [← ours], _, by simp only [result, turn]; rfl,
      .of_aside (gone.trans (peerDestroy_aside _ peer)) ?_⟩
    rw [peerDestroy_pax]
    exact alike
  | true =>
    rw [turn] at ours
    simp only [result, turn, if_true]
    rcases proposerPrepare_silent commit (resetProposer removed) with
      ⟨-, halted, ends⟩ | ⟨none_, next, begins, besides, alist, adefer, proposer_⟩ |
      ⟨taken, reason, halted, ends⟩
    · left
      rw [ends]
      exact ⟨_, rfl⟩
    · right; left
      rw [begins, Outcome.andThen_ok]
      rw [idle] at none_
      refine ⟨by simp [none_], _, rfl,
        .of_aside ((gone.trans besides).trans (peerDestroy_aside _ _)) ?_⟩
      rw [peerDestroy_pax]
      have ours_ : isProposer next.pax = true := by
        rw [← turn]
        simp [isProposer, proposer_, besides.selfId]
      exact ⟨alist.trans alike.alist, adefer.trans alike.adefer, besides.selfId.trans alike.selfId,
        proposer_.trans alike.proposer, besides.rcache.trans alike.rcache, Or.inl ours_⟩
    · -- The prepare that is running fails the assertion of the new one.
      right; right
      rw [ends]
      rw [idle] at taken
      refine ⟨?_, _, _, rfl⟩
      simp [← ours, taken]

/-- A part is learned, ends the session, or has nobody to lead after it. -/
theorem learnPart_silent (commit : Commit) {node : Node} {addr : Addr} {inst : Instance}
    (silent : node.script = []) (kind : inst.val.dkind = .part ∨ inst.val.dkind = .kill) :
    LearnEnds node addr inst (learnPart commit (noteLearn node addr inst) inst.val.extra) := by
  -- Whether the part can be learned and who takes part after it depend on whom it is about.
  have admissible : Admissible node inst ↔
      (acceptorFind node.pax.alist inst.val.extra = none ∨ inst.val.extra = node.pax.selfId ∨
        node.pax.proposer.isSome = true ∧ (node.pax.proposer = some inst.val.extra →
          isProposer (seated node inst).pax = true → node.pax.prep = none)) := by
    rcases kind with kind | kind <;> simp [Admissible, kind]
  have seats : seated node inst = match acceptorFind node.pax.alist inst.val.extra with
      | none => node
      | some _ =>
        let removed := delist node inst.val.extra
        if inst.val.extra = node.pax.selfId then node
        else if node.pax.proposer = some inst.val.extra then resetProposer removed
        else removed := by
    rcases kind with kind | kind <;> simp [seated, kind]
  unfold LearnEnds
  rw [admissible]
  unfold learnPart
  cases found : acceptorFind node.pax.alist inst.val.extra with
  | none =>
    -- The acceptor was parted before.
    have found' : acceptorFind (noteLearn node addr inst).pax.alist inst.val.extra = none := found
    right; left
    refine ⟨Or.inl rfl, noteLearn node addr inst, by simp only [found'], .of_aside (.refl _) ?_⟩
    rw [seats, found]
    exact ⟨rfl, rfl, rfl, rfl, rfl, Or.inr rfl⟩
  | some acc =>
    have found' : acceptorFind (noteLearn node addr inst).pax.alist inst.val.extra = some acc :=
      found
    have still : (noteLearn node addr inst).script = [] := silent
    simp only [found', callback_silent commit still, Outcome.andThen_ok]
    generalize told : (noteLearn node addr inst).emit (.part acc.desc) = mid
    have pax : mid.pax = { node.pax with ilist := node.pax.ilist.modify addr markLearned } := by
      rw [← told]
      rfl
    have aside : Aside (noteLearn node addr inst) mid := told ▸ .emit _ _ rfl rfl
    by_cases own : inst.val.extra = node.pax.selfId
    · -- Our own part ends the session.
      left
      rw [if_pos (by rw [pax]; exact own)]
      exact ⟨_, rfl⟩
    · rw [if_neg (by rw [pax]; exact own)]
      simp only [found, own, if_false] at seats
      -- The part leaves the two nodes with the same participants.
      have alike : Alike mid.pax node.pax := by
        rw [pax]
        exact ⟨rfl, rfl, rfl, rfl, rfl, Or.inr rfl⟩
      have removed := delist_alike alike inst.val.extra
      have proposed : (delist mid inst.val.extra).pax.proposer = node.pax.proposer :=
        (congrArg Core.proposer (delist_core mid _)).trans alike.proposer
      have gone := aside.trans (delist_aside mid inst.val.extra)
      rw [proposed]
      cases held : node.pax.proposer with
      | none =>
        right; right
        exact ⟨by simp [own], _, _, rfl⟩
      | some proposer =>
        simp only
        by_cases lost : inst.val.extra = proposer
        · -- The proposer is the one that parts.
          have same : node.pax.proposer = some inst.val.extra := by rw [held, lost]
          rw [if_pos same] at seats
          simp only [lost, if_true, decide_true, Bool.true_and]
          rw [← lost]
          have elected := resetProposer_alike removed (by simp [pax])
          rw [← seats] at elected
          have prep : (delist mid inst.val.extra).pax.prep = node.pax.prep := by simp [pax]
          rcases elect_silent commit gone elected prep with ended | ⟨idle, absorbed⟩ | ⟨busy, stuck⟩
          · exact Or.inl ended
          · exact Or.inr (Or.inl ⟨Or.inr (Or.inr ⟨rfl, fun _ => idle⟩), absorbed⟩)
          · refine Or.inr (Or.inr ⟨?_, stuck⟩)
            rintro (none_ | self | ⟨-, waits⟩)
            · contradiction
            · exact own self
            · exact busy (waits trivial)
        · -- The proposer stays.
          have other : node.pax.proposer ≠ some inst.val.extra := by
            rw [held]
            intro same
            exact lost (Option.some.inj same).symm
          rw [if_neg other] at seats
          right; left
          simp only [lost, decide_false, Bool.false_and, Bool.false_eq_true, if_false,
            Outcome.andThen_ok]
          have apart : ¬ proposer = inst.val.extra := fun same => lost same.symm
          refine ⟨by simp [apart], _, rfl, .of_aside (gone.trans (peerDestroy_aside _ _)) ?_⟩
          rw [peerDestroy_pax, seats]
          exact removed

/-- How learning a value ends when the client does nothing. -/
theorem paxosLearn_silent (commit : Commit) {node : Node} {addr : Addr} {inst : Instance}
    (silent : node.script = []) (known : requestNeedsCached inst.val.dkind = true →
      (requestFind node.pax.rcache inst.val.reqid).isSome = true) :
    LearnEnds node addr inst
      (paxosLearn commit node addr inst (learnRequest node.pax inst.val)) := by
  -- One case for each kind of value; those that carry data have them cached.
  unfold paxosLearn
  cases kind : inst.val.dkind with
  | null =>
    right; left
    refine ⟨by simp [Admissible, kind], noteLearn node addr inst, by simp, .of_aside (.refl _) ?_⟩
    have same : seated node inst = node := by simp [seated, kind]
    rw [same]
    exact ⟨rfl, rfl, rfl, rfl, rfl, Or.inr rfl⟩
  | part => exact learnPart_silent commit silent (Or.inl kind)
  | kill => exact learnPart_silent commit silent (Or.inr kind)
  | chat =>
    have there := known (by simp [kind, requestNeedsCached])
    obtain ⟨req, found⟩ := Option.isSome_iff_exists.mp there
    have held : learnRequest node.pax inst.val = some req := by
      simp [learnRequest, kind, requestNeedsCached, found]
    rw [held]
    exact learnChat_silent commit silent kind (SortedList.findFwd_mem found).2
  | join =>
    have there := known (by simp [kind, requestNeedsCached])
    obtain ⟨req, found⟩ := Option.isSome_iff_exists.mp there
    have held : learnRequest node.pax inst.val = some req := by
      simp [learnRequest, kind, requestNeedsCached, found]
    rw [held]
    exact learnJoin_silent commit silent kind held

/-- Who takes part after a value was learned is told by who took part before. -/
theorem seated_alike {x y : Node} (alike : Alike x.pax y.pax) (inst : Instance) :
    Alike (seated x inst).pax (seated y inst).pax := by
  -- A part is the case with choices, and both sides make the same ones.
  have parts : ∀ paxid, Alike
      (match acceptorFind x.pax.alist paxid with
        | none => x
        | some _ =>
          let removed := delist x paxid
          if paxid = x.pax.selfId then x
          else if x.pax.proposer = some paxid then resetProposer removed else removed).pax
      (match acceptorFind y.pax.alist paxid with
        | none => y
        | some _ =>
          let removed := delist y paxid
          if paxid = y.pax.selfId then y
          else if y.pax.proposer = some paxid then resetProposer removed else removed).pax := by
    intro paxid
    rw [alike.alist, alike.selfId, alike.proposer]
    cases acceptorFind y.pax.alist paxid with
    | none => exact alike
    | some acc =>
      simp only
      split
      · exact alike
      · rename_i other
        have removed := delist_alike alike paxid
        split
        · rename_i lost
          -- It is not us that are parted, so both prepares are the same.
          have same : x.pax.prep = y.pax.prep := by
            rcases alike.prep with ours | same
            · rw [alike.isProposer] at ours
              simp only [isProposer, lost, decide_eq_true_eq, Option.some.injEq] at ours
              exact absurd ours other
            · exact same
          exact resetProposer_alike removed (by simpa using same)
        · exact removed
  have requests : learnRequest x.pax inst.val = learnRequest y.pax inst.val := by
    simp [learnRequest, alike.rcache]
  unfold seated
  rw [requests]
  cases inst.val.dkind with
  | null => exact alike
  | chat => exact alike
  | join =>
    cases learnRequest y.pax inst.val with
    | none => exact alike
    | some req => exact enlist_alike alike _ req
  | part => exact parts _
  | kill => exact parts _

/-- Who takes part is beside the log. -/
theorem seated_aside (node : Node) (inst : Instance) : Aside node (seated node inst) := by
  -- A part is the case with choices, and none of them touches the log.
  have parts : ∀ paxid, Aside node
      (match acceptorFind node.pax.alist paxid with
        | none => node
        | some _ =>
          let removed := delist node paxid
          if paxid = node.pax.selfId then node
          else if node.pax.proposer = some paxid then resetProposer removed else removed) := by
    intro paxid
    cases acceptorFind node.pax.alist paxid with
    | none => exact .refl node
    | some acc =>
      have removed := delist_aside node paxid
      simp only
      split
      · exact .refl node
      · split
        · exact removed.trans (resetProposer_aside _)
        · exact removed
  unfold seated
  cases inst.val.dkind with
  | null => exact .refl node
  | chat => exact .refl node
  | join =>
    cases learnRequest node.pax inst.val with
    | none => exact .refl node
    | some req => exact enlist_aside _ _ req
  | part => exact parts _
  | kill => exact parts _

/-- What can be learned is told by who takes part. -/
theorem admissible_alike {x y : Node} (alike : Alike x.pax y.pax) (inst : Instance) :
    Admissible x inst ↔ Admissible y inst := by
  -- Only a part looks at more than the acceptors: at who is the proposer and whether it prepares.
  have ours := (seated_alike alike inst).isProposer
  have parts : (acceptorFind x.pax.alist inst.val.extra = none ∨
      inst.val.extra = x.pax.selfId ∨ x.pax.proposer.isSome = true ∧
        (x.pax.proposer = some inst.val.extra →
          isProposer (seated x inst).pax = true → x.pax.prep = none)) ↔
      (acceptorFind y.pax.alist inst.val.extra = none ∨
      inst.val.extra = y.pax.selfId ∨ y.pax.proposer.isSome = true ∧
        (y.pax.proposer = some inst.val.extra →
          isProposer (seated y inst).pax = true → y.pax.prep = none)) := by
    rw [alike.alist, alike.selfId, alike.proposer, ours]
    rcases alike.prep with proposer | same
    · -- A proposer that parts somebody else remains the proposer.
      rw [alike.isProposer] at proposer
      have held : y.pax.proposer = some y.pax.selfId := by simpa [isProposer] using proposer
      rw [held]
      constructor
      all_goals
        rintro (gone | own | -)
        · exact Or.inl gone
        · exact Or.inr (Or.inl own)
        · by_cases own : inst.val.extra = y.pax.selfId
          · exact Or.inr (Or.inl own)
          · exact Or.inr (Or.inr ⟨rfl, fun same => absurd (Option.some.inj same).symm own⟩)
    · rw [same]
  unfold Admissible
  cases inst.val.dkind with
  | null => exact Iff.rfl
  | join => exact Iff.rfl
  | chat => rw [alike.alist]
  | part => exact parts
  | kill => exact parts

/-- What can be learned in a row is told by who takes part. -/
theorem admits_alike {x y : Node} (alike : Alike x.pax y.pax) (insts : List Instance) :
    Admits x insts ↔ Admits y insts := by
  induction insts generalizing x y with
  | nil => exact Iff.rfl
  | cons inst rest ih =>
    simp only [Admits, admissible_alike alike inst, ih (seated_alike alike inst)]

end Motmot
