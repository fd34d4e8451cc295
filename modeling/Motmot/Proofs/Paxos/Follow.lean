import Motmot.Proofs.Paxos.Script

/-! Commits, and everything that a learn may lead to, follow the moves. -/

namespace Motmot

variable {start : Node} {event : Event}

/-- A handler halts where it made its last move, unless it fails on a commit or a learn. -/
theorem Halts.refl {reason : Stop}
    (other : reason ≠ .failed .commitPastHole ∧ reason ≠ .failed .learnCached ∧
      reason ≠ .failed .learnSender ∧ reason ≠ .unlinked) (node : Node) :
    Halts reason node node where
  out := Or.inl rfl
  past := fun same => absurd same other.1
  starved := fun same => absurd same other.2.1
  unsent := fun same => absurd same other.2.2.1
  office := id
  linked := fun same => absurd same other.2.2.2

namespace Leads

variable {move : Config → Config → Prop} {loops mids after : List Loop} {node mid : Node}
  {result : Result}

/-- A handler that stops where it stands makes no move. -/
theorem halt {reason : Stop}
    (other : reason ≠ .failed .commitPastHole ∧ reason ≠ .failed .learnCached ∧
      reason ≠ .failed .learnSender ∧ reason ≠ .unlinked) :
    Leads move loops after node (.stop reason node) :=
  ⟨_, .refl, .refl other node⟩

/-- A handler that stops in a state that differs only beside its effects. -/
theorem haltLike {reason : Stop} {halted : Node}
    (other : reason ≠ .failed .commitPastHole ∧ reason ≠ .failed .learnCached ∧
      reason ≠ .failed .learnSender ∧ reason ≠ .unlinked)
    (out : halted.out = node.out)
    (office : isProposer node.pax = true → isProposer halted.pax = true) :
    Leads move loops after node (.stop reason halted) :=
  ⟨_, .refl, Or.inl out, fun same => absurd same other.1,
    fun same => absurd same other.2.1, fun same => absurd same other.2.2.1, office,
    fun same => absurd same other.2.2.2⟩

/-- A handler that returns where it stands makes no move. -/
theorem done : Leads move loops loops node (.ok node) := .refl

/-- Moves may be made in front of a handler. -/
theorem prepend (path : Relation.ReflTransGen move ⟨node, loops⟩ ⟨mid, mids⟩)
    (rest : Leads move mids after mid result) : Leads move loops after node result := by
  cases result with
  | ok next => exact path.trans rest
  | stop reason halted =>
    obtain ⟨reached, moves, halts⟩ := rest
    exact ⟨reached, path.trans moves, halts⟩

/-- A single move in front of a handler. -/
theorem step (first : move ⟨node, loops⟩ ⟨mid, mids⟩) (rest : Leads move mids after mid result) :
    Leads move loops after node result :=
  prepend (.single first) rest

/-- Handlers compose. -/
theorem andThen {next : Node → Result} (first : Leads move loops mids node result)
    (second : ∀ mid, Relation.ReflTransGen move ⟨node, loops⟩ ⟨mid, mids⟩ →
      Leads move mids after mid (next mid)) :
    Leads move loops after node (result.andThen next) := by
  cases result with
  | ok mid => exact prepend first (second mid first)
  | stop reason halted => exact first

/-- What is led by some moves is led by more of them. -/
theorem mono {more : Config → Config → Prop}
    (included : ∀ config after, move config after → more config after)
    (leads : Leads move loops after node result) : Leads more loops after node result := by
  cases result with
  | ok next => exact leads.lift id included
  | stop reason halted =>
    obtain ⟨reached, moves, halts⟩ := leads
    exact ⟨reached, moves.lift id included, halts⟩

/-- An outer move in front of a handler. -/
theorem outer (lets : Lets loops) (act : Outer start event node mid)
    (rest : Leads (Inner start event) loops after mid result) :
    Leads (Inner start event) loops after node result :=
  step (.nest lets (.outer act)) rest

/-- A handler that only makes an outer move. -/
theorem okOuter (lets : Lets loops) (act : Outer start event node mid) :
    Leads (Inner start event) loops loops node (.ok mid) :=
  outer lets act done

end Leads

section Sends

variable {node mid : Node} {msg : Msg} (prior : Outer start event node mid)
  (side : msg.side = true) (known : Sourced start event node [] msg.body)
include prior side known

/-- A send of a side message is an outer move, or it goes through a missing channel. -/
theorem paxosSend_outer (acc : Acceptor) :
    (∃ next, paxosSend mid acc msg = .ok next ∧ Outer start event node next ∧ next.pax = mid.pax) ∨
      paxosSend mid acc msg = .stop .undefined mid := by
  unfold paxosSend
  split
  · exact Or.inl ⟨_, rfl, prior.emit (.send _ _ side known), rfl⟩
  · exact Or.inr rfl

/-- A send of a side message to the proposer is an outer move, or it goes astray. -/
theorem paxosSendToProposer_outer :
    (∃ next, paxosSendToProposer mid msg = .ok next ∧ Outer start event node next ∧
        next.pax = mid.pax) ∨
      paxosSendToProposer mid msg = .stop .undefined mid := by
  -- The proposer may be unknown or unlisted, and then the send fails.
  unfold paxosSendToProposer
  split
  · exact Or.inl ⟨mid, rfl, prior, rfl⟩
  · split
    · exact paxosSend_outer prior side known _
    · exact Or.inr rfl

/-- A send of a side message follows the moves. -/
theorem paxosSend_follows {loops : List Loop} (lets : Lets loops) (acc : Acceptor) :
    Leads (Inner start event) loops loops node (paxosSend mid acc msg) := by
  rcases paxosSend_outer prior side known acc with ⟨next, sent, outer, -⟩ | lost
  · rw [sent]
    exact .okOuter lets outer
  · rw [lost]
    exact .outer lets prior (.halt (by simp))

/-- A send of a side message to the proposer follows the moves. -/
theorem paxosSendToProposer_follows {loops : List Loop} (lets : Lets loops) :
    Leads (Inner start event) loops loops node (paxosSendToProposer mid msg) := by
  rcases paxosSendToProposer_outer prior side known with ⟨next, sent, outer, -⟩ | lost
  · rw [sent]
    exact .okOuter lets outer
  · rw [lost]
    exact .outer lets prior (.halt (by simp))

end Sends

/-- A send to the proposer goes over one channel or none, or it goes astray. -/
theorem paxosSendToProposer_sends (node : Node) (msg : Msg) :
    (∃ peers : List PeerId, paxosSendToProposer node msg =
        .ok { node with out := node.out ++ peers.map (Effect.send · msg) }) ∨
      paxosSendToProposer node msg = .stop .undefined node := by
  -- What is sent goes over the channel of the proposer, if there is one.
  unfold paxosSendToProposer paxosSend
  split
  · exact Or.inl ⟨[], by simp⟩
  · split
    · split
      · rename_i peer _
        exact Or.inl ⟨[peer], rfl⟩
      · exact Or.inr rfl
    · exact Or.inr rfl

/-- Destroying the peers of a list of acceptors only closes channels. -/
theorem destroyPeers (start : Node) (event : Event) (accs : List Acceptor) (node : Node) :
    ∃ effects, (accs.foldl (fun node acc => peerDestroy node acc.peer) node) =
        { node with out := node.out ++ effects } ∧
      ∀ before : Node, ∀ effect ∈ effects, Side start event before [] effect := by
  induction accs generalizing node with
  -- The close of each peer is added to those before it.
  | nil => exact ⟨[], by simp⟩
  | cons acc rest ih =>
    obtain ⟨effects, folded, sides⟩ := ih (peerDestroy node acc.peer)
    rw [List.foldl_cons, folded]
    cases acc.peer with
    | none => exact ⟨effects, rfl, sides⟩
    | some peer =>
      refine ⟨.close peer :: effects, by simp [peerDestroy, Node.emit], ?_⟩
      intro before effect mem
      rcases List.mem_cons.mp mem with rfl | mem
      · exact .close peer
      · exact sides before effect mem

/-- Ending the session closes its channels and tells the client. -/
theorem paxosEnd_follows {loops after : List Loop} {base node : Node} (lets : Lets loops)
    (out : node.out = base.out)
    (office : isProposer base.pax = true → isProposer node.pax = true) :
    Leads (Inner start event) loops after base (paxosEnd node) := by
  -- The channels of both lists are closed, and then the client is told that we left.
  obtain ⟨effects, closed, sides⟩ := destroyPeers start event
    (node.pax.alist ++ node.pax.adefer) node
  unfold paxosEnd
  rw [closed]
  refine .outer lets ((Outer.refl base).tell (effects ++ [.leave]) ?_)
    (.haltLike (by simp) ?_ office)
  · intro effect mem
    rcases List.mem_append.mp mem with mem | mem
    · exact sides base effect mem
    · obtain rfl := List.mem_singleton.mp mem
      exact .leave
  · simp [Node.emit, out]

/-- A commit function that may be used, and follows the moves on every unfinished element. -/
structure Commits (start : Node) (event : Event) (commit : Commit) : Prop where
  licensed : Licenses start event
  follows : ∀ {loops : List Loop} {node : Node} {cell : Cell}, Lets loops →
    node.pax.ilist.WellFormed → Scripted start node → cell ∈ node.pax.ilist.cells →
      cell.inst.unfinished →
    Leads (Inner start event) loops loops node (commit node cell)

section Decrees

variable {commit : Commit} {loops : List Loop} (lets : Lets loops)
include lets

/-- A commit that the proposer makes follows the moves. -/
theorem proposerCommit_follows (commits : Commits start event commit) {node : Node} {cell : Cell}
    (wf : node.pax.ilist.WellFormed) (scripted : Scripted start node)
    (mem : cell ∈ node.pax.ilist.cells) (uncommitted : cell.inst.committed = false)
    (enough : majority node.pax ≤ cell.inst.votes) :
    Leads (Inner start event) loops loops node (proposerCommit commit node cell) := by
  refine .step (.nest lets (.announce mem uncommitted enough commits.licensed)) ?_
  refine commits.follows lets (announceCommit_wellFormed wf mem) scripted ?_
    (Or.inl uncommitted)
  exact (wf.mem_modify_linked mem markCommit).mpr (Or.inl rfl)

/-- Once a decree is announced, it is committed at once when we alone are a majority. -/
theorem proposerDecree_follows {node : Node}
    (commits : majority node.pax ≤ 1 → Commits start event commit)
    (wf : node.pax.ilist.WellFormed) (scripted : Scripted start node) (inst : Instance) :
    Leads (Inner start event) loops loops (announceDecree node inst)
      (proposerDecree commit node inst) := by
  -- A majority of one commits at once, and anything more waits for accepts.
  unfold proposerDecree
  simp only
  split
  · rename_i enough
    have announced := announceDecree_wellFormed wf inst
    have polity : majority (announceDecree node inst).pax = majority node.pax := by
      obtain ⟨_, _, same⟩ := instanceInsertAndUpstart_eq node (decreeOf node.pax inst)
      exact congrArg (fun node => majority node.pax) same
    have few : majority node.pax ≤ 1 := by
      rw [← polity]
      exact enough
    refine proposerCommit_follows lets (commits few) announced
      (scripted.keep (announceDecree_script node inst)) ?_ rfl enough
    -- The decree is the element that was just inserted.
    show _ ∈ (instanceInsertAndUpstart node (decreeOf node.pax inst)).pax.ilist.cells
    rw [instanceInsertAndUpstart_ilist]
    exact (wf.mem_insert (decreeOf_free wf inst)).mpr (Or.inl rfl)
  · exact .done

/-- A decree that may be deferred follows the moves. -/
theorem decreeOrDefer_follows {node mid : Node} {inst : Instance}
    (commits : majority mid.pax ≤ 1 → Commits start event commit)
    (wf : node.pax.ilist.WellFormed) (scripted : Scripted start node)
    (prior : Outer start event node mid)
    (rightful : isProposer mid.pax = true ∨ mid.pax.core = start.pax.core ∧
      ∃ acc, Continues start.pax event .welcome acc none)
    (wish : Wish start event node mid inst.val) :
    Leads (Inner start event) loops loops node (decreeOrDefer commit mid inst) := by
  unfold decreeOrDefer
  split
  · -- While we prepare the decree is deferred.
    rename_i preparing
    exact .step (.nest lets (.defer prior preparing wish)) .done
  · -- Otherwise it is made at once, and may be learned on the spot.
    rename_i prepared
    have prepared : mid.pax.prep = none := by simpa using prepared
    exact .step (.nest lets (.decree prior prepared rightful wish))
      (proposerDecree_follows lets commits (prior.wellFormed wf) (prior.scripted scripted) inst)

omit lets in
/-- What is decreed of somebody is a part or a kill. -/
theorem partInstance_dkind {pax : Session} {paxid : Nat} {force : Bool} :
    (partInstance pax paxid force).val.dkind = .part ∨
      (partInstance pax paxid force).val.dkind = .kill := by
  cases force
  · exact Or.inl rfl
  · exact Or.inr rfl

/-- A decree of a part follows the moves. -/
theorem proposerDecreePart_follows {node : Node}
    (commits : majority node.pax ≤ 1 → Commits start event commit)
    (wf : node.pax.ilist.WellFormed) (scripted : Scripted start node) (acc : Acceptor)
    (force : Bool)
    (rightful : isProposer node.pax = true ∨ node.pax.core = start.pax.core ∧
      ∃ acc, Continues start.pax event .welcome acc none) :
    Leads (Inner start event) loops loops node (proposerDecreePart commit node acc force) :=
  decreeOrDefer_follows lets commits wf scripted (.bumpReqId node) rightful
    (.own rfl rfl (.part partInstance_dkind))

/-- The parts of dropped acceptors are only deferred while a prepare is running. -/
theorem decreeDropped_follows (start : Node) (event : Event) (commit : Commit)
    (accs : List Acceptor) {node : Node} (preparing : node.pax.prep.isSome = true) :
    ∃ last, decreeDropped commit node accs = .ok last ∧ last.pax.prep = node.pax.prep ∧
      Relation.ReflTransGen (Inner start event) ⟨node, loops⟩ ⟨last, loops⟩ := by
  -- The prepare is running, so every part is put off.
  induction accs generalizing node with
  | nil => exact ⟨node, rfl, rfl, .refl⟩
  | cons acc rest ih =>
    unfold decreeDropped
    split
    · exact ih preparing
    · -- Each part goes to the end of the list of deferred instances.
      have counted : node.bumpReqId.pax.prep.isSome = true := preparing
      simp only [proposerDecreePart, decreeOrDefer, counted, if_true, Outcome.andThen_ok]
      generalize made : partInstance node.bumpReqId.pax acc.paxid _ = inst
      have wish : Wish start event node node.bumpReqId inst.val := made ▸ .own rfl rfl (.part partInstance_dkind)
      have move : Inner start event ⟨node, loops⟩
          ⟨node.bumpReqId.setIdefer (node.bumpReqId.pax.idefer ++ [inst]), loops⟩ :=
        .nest lets (.defer (.bumpReqId node) counted wish)
      have still : (node.bumpReqId.setIdefer
          (node.bumpReqId.pax.idefer ++ [inst])).pax.prep.isSome = true := preparing
      obtain ⟨last, returned, prep, path⟩ := ih still
      exact ⟨last, returned, prep, path.head move⟩

omit lets in
/-- A prepare follows the moves from a state that the election left the log of. -/
theorem proposerPrepare_follows {move : Config → Config → Prop} {before after : List Loop}
    (letsBefore : Lets before) (letsAfter : Lets after)
    (included : ∀ config after, Inner start event config after → move config after)
    {base node : Node} (oldProposer : Bool)
    (out : node.out = base.out)
    (office : isProposer base.pax = true → isProposer node.pax = true)
    (begins : node.pax.prep = none → majority node.pax ≤ node.pax.liveCount →
      move ⟨base, before⟩ ⟨beginPrepare node, after⟩) :
    Leads move before after base (proposerPrepare commit node oldProposer) := by
  -- A prepare ends the session, or it begins and is broadcast.
  unfold proposerPrepare
  split
  · exact .haltLike (by simp) out office
  · rename_i idle
    split
    · exact (paxosEnd_follows letsBefore out office).mono included
    · rename_i enough
      refine .step (begins (by simpa using idle) (by omega)) ?_
      -- Whether or not parts were deferred, the prepare is still the one that began.
      have broadcast : ∀ last, last.pax.prep = some (newPrep node.pax) →
          Leads (Inner start event) after after last (.ok (paxosBroadcast last
            (prepareMsg last.pax (newPrep node.pax).ballot))) :=
        fun last same => .step (.nest letsAfter (.prepare same)) .done
      have preparing : (beginPrepare node).pax.prep.isSome = true := rfl
      split
      · obtain ⟨last, returned, prep, path⟩ := decreeDropped_follows letsAfter start event commit
          (beginPrepare node).pax.alist preparing
        simp only [returned, Outcome.andThen_ok]
        exact (Leads.prepend path (broadcast last prep)).mono included
      · exact (broadcast _ rfl).mono included

/-- A request of the client follows the moves. -/
theorem paxosRequest_follows {node : Node} {call : ClientCall}
    (commits : isProposer node.pax = true → Commits start event commit)
    (wf : node.pax.ilist.WellFormed) (scripted : Scripted start node)
    (called : Calls start event call) :
    Leads (Inner start event) loops loops node (paxosRequest commit node call) := by
  unfold paxosRequest
  split
  · exact .halt (by simp)
  · rename_i proposer _
    simp only
    -- The request is counted, cached when it carries data, and sent.
    generalize made : ({ val := { dkind := call.dkind, reqid := _, extra := 0 }
                         data := call.data } : Request) = req
    have made : req = requestOf node.pax.selfId (node.pax.reqId + 1) call := made.symm
    generalize kept_eq : (if requestNeedsCached call.dkind = true
      then node.bumpReqId.setRcache (requestInsert node.bumpReqId.pax.rcache req)
      else node.bumpReqId) = kept
    obtain ⟨cache, keeps, rfl⟩ : ∃ cache, (cache = node.pax.rcache ∨
        cache = requestInsert node.pax.rcache req) ∧ kept = node.bumpReqId.setRcache cache := by
      rw [← kept_eq]
      split
      · exact ⟨_, Or.inr rfl, rfl⟩
      · exact ⟨_, Or.inl rfl, rfl⟩
    -- Over whichever channels it is sent, the decree is made with the count as it is now.
    generalize packed : ({ hdr := headerInit node.pax .request proposer
                           body := .request req } : Msg) = msg
    have issued : ∀ peers : List PeerId, Outer start event node
        { node.bumpReqId.setRcache cache with
          out := node.out ++ peers.map (Effect.send · msg) } := by
      intro peers
      rw [← packed]
      exact .issue called made keeps _ rfl peers
    have unsent : { node.bumpReqId.setRcache cache with
        out := node.out ++ ([] : List PeerId).map (Effect.send · msg) } =
          node.bumpReqId.setRcache cache := by simp [Node.bumpReqId, Node.setRcache]
    have finish : ∀ peers : List PeerId, Leads (Inner start event) loops loops node
        (if isProposer (node.bumpReqId.setRcache cache).pax = true then
          proposerDecreeRequest commit { node.bumpReqId.setRcache cache with
            out := node.out ++ peers.map (Effect.send · msg) } req
        else .ok { node.bumpReqId.setRcache cache with
          out := node.out ++ peers.map (Effect.send · msg) }) := by
      intro peers
      split
      · rename_i proposer
        refine decreeOrDefer_follows lets (fun _ => commits proposer) wf scripted (issued peers)
          (Or.inl proposer) (.own rfl ?_ (.call called (congrArg Request.val made)))
        rw [made]
        rfl
      · exact .okOuter lets (issued peers)
    -- A client that has left the office still sends to everybody, a follower to its proposer.
    split
    · have sent : paxosBroadcast (node.bumpReqId.setRcache cache) msg =
          { node.bumpReqId.setRcache cache with out := node.out ++
            (node.pax.alist.filterMap Acceptor.peer).map (Effect.send · msg) } := by
        rw [List.map_filterMap]
        rfl
      rw [sent, Outcome.andThen_ok]
      exact finish _
    · split
      · rw [Outcome.andThen_ok]
        simpa only [unsent] using finish []
      · rcases paxosSendToProposer_sends (node.bumpReqId.setRcache cache) msg with
          ⟨peers, returned⟩ | lost
        · rw [returned, Outcome.andThen_ok]
          exact finish peers
        · rw [lost, Outcome.andThen_stop]
          exact .outer lets (unsent ▸ issued []) (.halt (by simp))

end Decrees

end Motmot
