import Mathlib.Logic.Function.Iterate
import Motmot.Paxos.Sessions
import Motmot.Proofs.Paxos.Enrolment
import Motmot.Proofs.Paxos.Bids
import Motmot.Proofs.Paxos.Silence
import Motmot.Proofs.Paxos.Lagging

/-! What the loss of a connection leaves of its peer in the sessions of a process. -/

namespace Motmot

section Own

variable {start : Node} {event : Event} {commit : Commit}

/-- Our own part is never learned to the end: it ends the session. -/
theorem learnPart_own (commits : Commits start event commit) {node : Node} {paxid : Nat}
    (wf : node.pax.ilist.WellFormed) (scripted : Scripted start node)
    (who : node.pax.selfId = start.pax.selfId) (own : paxid = node.pax.selfId)
    (listed : (acceptorFind node.pax.alist paxid).isSome = true) (next : Node) :
    learnPart commit node paxid ≠ .ok next := by
  intro returned
  obtain ⟨acc, found⟩ := Option.isSome_iff_exists.mp listed
  simp only [learnPart, found] at returned
  obtain ⟨mid, told, rest⟩ := Outcome.andThen_eq_ok.mp returned
  -- The client may act from the callback, but we remain who we are.
  have leads := @callback_follows start event commit commits [] lets_nil node wf scripted _
    (.part acc.desc)
  rw [told] at leads
  have same : mid.pax.selfId = start.pax.selfId := by
    have kept : ∀ {config after : Config}, Relation.ReflTransGen (Inner start event) config after →
        config.node.pax.selfId = start.pax.selfId → after.node.pax.selfId = start.pax.selfId := by
      intro config after path self
      induction path with
      | refl => exact self
      | tail _ move ih => exact Move.selfId (.inner move) ih
    exact kept leads who
  rw [if_pos (by rw [own, who, same])] at rest
  simp [paxosEnd] at rest

/-- A commit of our own part that returns leaves the participants alone: it was not learned. -/
theorem commitHole_own {node : Node} {cell : Cell} {next : Node}
    (commits : Commits start event commit) (fuel : Nat) (wf : node.pax.ilist.WellFormed)
    (scripted : Scripted start node)
    (who : node.pax.selfId = start.pax.selfId) (mem : cell ∈ node.pax.ilist.cells)
    (hole : cell.inum = node.pax.ihole) (kind : cell.inst.val.dkind = .part)
    (own : cell.inst.val.extra = node.pax.selfId)
    (listed : (acceptorFind node.pax.alist cell.inst.val.extra).isSome = true)
    (returned : commitHole commit fuel node = .ok next) : next.pax.roster = node.pax.roster := by
  -- Wherever the loop starts, what it finds at the hole is the part or not committed.
  have loop : ∀ first inst, node.inst? first = some inst → inst.hdr.inum = node.pax.ihole →
      learnLoop commit fuel (node.setIstart (some first)) (some first) = .ok next →
      next.pax.roster = node.pax.roster := by
    intro first inst held number returned
    cases fuel with
    | zero => simp [learnLoop] at returned
    | succ fuel =>
      have held' : (node.setIstart (some first)).inst? first = some inst := held
      have number' : ¬ inst.hdr.inum ≠ (node.setIstart (some first)).pax.ihole :=
        not_not_intro number
      simp only [learnLoop, held', number', if_false] at returned
      split at returned
      · cases returned
        rfl
      · rename_i finished
        have ready : inst.committed = true ∧ inst.cached = true := by simpa using finished
        have onList := wf.onList_of_committed held ready.1
        have memFirst := wf.mem_of_inst? held onList
        have same := wf.inum_inj memFirst mem (number.trans hole.symm)
        obtain ⟨rfl, rfl⟩ : first = cell.addr ∧ inst = cell.inst := by
          rw [← same]
          exact ⟨rfl, rfl⟩
        split at returned
        · simp at returned
        · split at returned
          · simp at returned
          · obtain ⟨mid, learnt, -⟩ := Outcome.andThen_eq_ok.mp returned
            simp only [paxosLearn, kind] at learnt
            have wfMarked : (noteLearn (node.setIstart (some cell.addr)) cell.addr
                cell.inst).pax.ilist.WellFormed :=
              wf.modify_linked mem rfl fun _ => ready
            exact absurd learnt
              (learnPart_own commits wfMarked scripted who own listed mid)
  -- The commit aims the cursor at the hole, and then enters the loop.
  unfold commitHole at returned
  split at returned
  · simp at returned
  · rename_i last cursor
    split at returned
    · simp at returned
    · rename_i inst held
      simp only at returned
      split at returned
      · rename_i first target
        split at returned
        · simp at returned
        · rename_i found located
          split at returned
          · simp at returned
          · rename_i number
            exact loop first found located (not_not.mp number) returned
      · simp at returned

end Own

/-- The commit of our own part that returns leaves the participants alone. -/
theorem commitOwnPart_roster {node sent next : Node} {cell : Cell} (fuel : Nat)
    (announced : sent.pax.ilist.WellFormed) (mem : cell ∈ sent.pax.ilist.cells)
    (polity : sent.pax.polity = node.pax.polity) (script : sent.script = node.script)
    (proposer : isProposer node.pax = true) (kind : cell.inst.val.dkind = .part)
    (extra : cell.inst.val.extra = node.pax.selfId)
    (found : (acceptorFind node.pax.alist node.pax.selfId).isSome = true)
    (returned : paxosCommit fuel (announceCommit sent cell)
      { cell with inst := markCommit cell.inst } = .ok next) :
    next.pax.roster = node.pax.roster := by
  -- The instance is marked at the hole, and none of it touches the participants.
  have commits : ∀ fuel, Commits node (.drop 0) (paxosCommit fuel) :=
    fun fuel => paxosCommit_commits fuel (.leads proposer rfl)
  have wfNoted := announceCommit_wellFormed announced mem
  have memNoted : ({ cell with inst := markCommit cell.inst } : Cell) ∈
      (announceCommit sent cell).pax.ilist.cells :=
    (announced.mem_modify_linked mem markCommit).mpr (Or.inl rfl)
  have polityNoted : (announceCommit sent cell).pax.polity = node.pax.polity := polity
  have scripted : Scripted node (announceCommit sent cell) := fun visit mem => script ▸ mem
  have kind : (markCommit cell.inst).val.dkind = .part := kind
  have extra : (markCommit cell.inst).val.extra = node.pax.selfId := extra
  generalize announceCommit sent cell = noted at wfNoted memNoted polityNoted scripted returned
  generalize markCommit cell.inst = packed at kind extra memNoted returned
  obtain ⟨selfNoted, proposerNoted, rosterNoted⟩ := Polity.mk.inj polityNoted
  have leads : isProposer noted.pax = true := by
    rw [isProposer, proposerNoted, selfNoted]
    exact proposer
  -- The commit marks the instance, and may come to learn it.
  cases fuel with
  | zero => simp [paxosCommit] at returned
  | succ fuel =>
    have needless : requestNeedsCached packed.val.dkind = false := by
      rw [kind]
      rfl
    simp only [paxosCommit, commitWith, needless, Bool.false_and, Bool.false_eq_true,
      if_false] at returned
    have finished := finishCommit_wellFormed wfNoted memNoted
    have memFinished :
        ({ addr := cell.addr, inst := markCached (markCommitted packed) } : Cell) ∈
        (finishCommit noted cell.addr).pax.ilist.cells := by
      have once := (wfNoted.mem_modify_linked memNoted markCommitted).mpr (Or.inl rfl)
      have wfOnce := modify_markCommitted_wellFormed wfNoted memNoted
      exact (wfOnce.mem_modify_linked once markCached).mpr (Or.inl rfl)
    change (if packed.hdr.inum < (finishCommit noted cell.addr).pax.ihole then _
      else if packed.hdr.inum ≠ (finishCommit noted cell.addr).pax.ihole then
        commitAhead (finishCommit noted cell.addr)
      else commitHole (paxosCommit fuel) fuel (finishCommit noted cell.addr)) = .ok next
      at returned
    have rosterFinished : (finishCommit noted cell.addr).pax.roster = node.pax.roster :=
      rosterNoted
    split at returned
    · simp at returned
    · split at returned
      · -- Past the hole a proposer asks nobody.
        have still : isProposer (finishCommit noted cell.addr).pax = true := leads
        rw [commitAhead, if_pos still] at returned
        cases returned
        exact rosterFinished
      · rename_i here
        have whole := commitHole_own (commits fuel) fuel finished scripted selfNoted memFinished
          (not_not.mp here) kind (extra.trans selfNoted.symm) ?_ returned
        · exact whole.trans rosterFinished
        · have alist : noted.pax.alist = node.pax.alist := congrArg Roster.alist rosterNoted
          show (acceptorFind noted.pax.alist packed.val.extra).isSome = true
          rw [alist, extra]
          exact found

/-- Who is alone on its list finds only itself there. -/
theorem own_of_alone {pax : Session} {paxid : Nat} (alone : pax.alist.length ≤ 1)
    (self : ∃ me ∈ pax.alist, me.paxid = pax.selfId)
    (listed : ∃ other ∈ pax.alist, other.paxid = paxid) : paxid = pax.selfId := by
  -- A list of one element holds only that one.
  obtain ⟨me, memMe, mine⟩ := self
  obtain ⟨other, memOther, named⟩ := listed
  obtain ⟨one, whole⟩ := List.length_eq_one_iff.mp
    (Nat.le_antisymm alone (List.length_pos_of_mem memMe))
  rw [whole] at memMe memOther
  rw [← named, ← mine, List.mem_singleton.mp memMe, List.mem_singleton.mp memOther]

/-- The decree of a part that returns leaves the participants alone. -/
theorem proposerDecreePart_roster {node next : Node} {acc : Acceptor} (fuel : Nat)
    (wf : node.pax.ilist.WellFormed) (proposer : isProposer node.pax = true)
    (self : ∃ me ∈ node.pax.alist, me.paxid = node.pax.selfId)
    (listed : ∃ other ∈ node.pax.alist, other.paxid = acc.paxid) (ranked : Ranked node.pax.alist)
    (returned : proposerDecreePart (paxosCommit fuel) node acc false = .ok next) :
    next.pax.roster = node.pax.roster := by
  -- The part is put off, or decreed; only a lone member commits it at once.
  unfold proposerDecreePart decreeOrDefer at returned
  simp only at returned
  split at returned
  · cases returned
    rfl
  · have wfBumped : node.bumpReqId.pax.ilist.WellFormed := wf
    generalize made : partInstance node.bumpReqId.pax acc.paxid false = inst at returned
    have polity := announceDecree_polity node.bumpReqId inst
    have roster : (announceDecree node.bumpReqId inst).pax.roster = node.pax.roster :=
      congrArg Polity.roster polity
    unfold proposerDecree at returned
    simp only at returned
    split at returned
    · rename_i enough
      -- We are alone on the list, so the part is our own, and is committed at once.
      have alone : node.pax.alist.length ≤ 1 := by
        have alist : (announceDecree node.bumpReqId inst).pax.alist = node.pax.alist :=
          congrArg Roster.alist roster
        have enough : majority (announceDecree node.bumpReqId inst).pax ≤ 1 := enough
        rw [majority, alist] at enough
        omega
      have own := own_of_alone alone self listed
      have found : (acceptorFind node.pax.alist node.pax.selfId).isSome = true := by
        obtain ⟨me, mem, mine⟩ := self
        rw [ranked.find_isSome, ← mine]
        exact List.mem_map_of_mem mem
      have mem : (⟨nextAddr node.bumpReqId, decreeOf node.bumpReqId.pax inst⟩ : Cell) ∈
          (announceDecree node.bumpReqId inst).pax.ilist.cells := by
        show _ ∈ (instanceInsertAndUpstart node.bumpReqId _).pax.ilist.cells
        rw [instanceInsertAndUpstart_ilist]
        exact (wfBumped.mem_insert (decreeOf_free wfBumped inst)).mpr (Or.inl rfl)
      refine commitOwnPart_roster fuel (announceDecree_wellFormed wfBumped inst) mem polity
        (announceDecree_script node.bumpReqId inst) proposer ?_ ?_ found returned
      · show inst.val.dkind = .part
        rw [← made]
        rfl
      · show inst.val.extra = node.pax.selfId
        rw [← made]
        exact own
    · cases returned
      exact roster

/-- A prepare that begins leaves the participants alone. -/
theorem proposerPrepare_roster (commit : Commit) {node next : Node}
    (returned : proposerPrepare commit node true = .ok next) :
    next.pax.roster = node.pax.roster := by
  unfold proposerPrepare at returned
  split at returned
  · simp at returned
  · -- The parts of the dropped acceptors are deferred, so none of them is carried out yet.
    split at returned
    · simp [paxosEnd] at returned
    · obtain ⟨count, deferred, same⟩ :=
        decreeDropped_deferring commit (beginPrepare node).pax.alist (beginPrepare node) rfl
      simp only [if_true, same, Outcome.andThen_ok] at returned
      cases returned
      rfl

variable {node next : Node} {source : PeerId}

/-- What follows the loss of an acceptor leaves the participants alone. -/
theorem lost_roster {acc : Acceptor} (fuel : Nat) (wf : node.pax.ilist.WellFormed)
    (ranked : Ranked node.pax.alist) (self : ∃ me ∈ node.pax.alist, me.paxid = node.pax.selfId)
    (listed : ∃ other ∈ node.pax.alist, other.paxid = acc.paxid)
    (returned : (if isProposer node.pax then proposerDecreePart (paxosCommit fuel) node acc false
      else
        match node.pax.proposer with
        | none => node.undefined
        | some proposer =>
          if acc.paxid = proposer then
            if isProposer (resetProposer node).pax then
              proposerPrepare (paxosCommit fuel) (resetProposer node) true
            else .ok (resetProposer node)
          else .ok node) = .ok next) : next.pax.roster = node.pax.roster := by
  -- Neither an election nor a prepare changes who takes part.
  have chosen : (resetProposer node).pax.roster = node.pax.roster := by
    unfold resetProposer
    split <;> rfl
  split at returned
  · rename_i proposer
    exact proposerDecreePart_roster fuel wf proposer self listed ranked returned
  · split at returned
    · simp at returned
    · split at returned
      · split at returned
        · exact (proposerPrepare_roster _ returned).trans chosen
        · cases returned
          exact chosen
      · cases returned
        rfl

/-- The session in which an acceptor has just lost its channel. -/
def detached (node : Node) (source : PeerId) (paxid : Nat) : Node :=
  let closed := (node.emit (.close source)).setPeer paxid none
  closed.setLiveCount (unsignedPred closed.pax.liveCount)

/-- What a new live count leaves of the participants. -/
theorem setLiveCount_roster (node : Node) (count : Nat) : (node.setLiveCount count).pax.roster =
    { node.pax.roster with liveCount := count } := rfl

/-- What the lost channel leaves of the participants. -/
theorem detached_roster (node : Node) (source : PeerId) (paxid : Nat) :
    (detached node source paxid).pax.roster =
      { (node.setPeer paxid none).pax.roster with
        liveCount := unsignedPred node.pax.liveCount } :=
  setLiveCount_roster _ _

/-- Only the acceptor that has lost its channel is another one. -/
theorem detached_alist (node : Node) (source : PeerId) (paxid : Nat) :
    (detached node source paxid).pax.alist = (node.setPeer paxid none).pax.alist :=
  congrArg Roster.alist (detached_roster node source paxid)

/-- The loss of a connection detaches the first acceptor that has it, and does nothing else. -/
theorem paxosDropConnection_roster (fuel : Nat) (wf : node.pax.ilist.WellFormed)
    (kept : node.pax.roster.Kept node.pax.selfId)
    (returned : paxosDropConnection fuel node source = .ok next) :
    node.pax.holds source = false ∧ next = node ∨
    ∃ acc, node.pax.alist.find? (fun acc => acc.peer = some source) = some acc ∧
      next.pax.roster = (detached node source acc.paxid).pax.roster := by
  unfold paxosDropConnection at returned
  split at returned
  · rename_i missing
    left
    refine ⟨?_, (Outcome.ok.inj returned).symm⟩
    simpa [Session.holds] using missing
  · rename_i acc found
    right
    refine ⟨acc, found, ?_⟩
    -- Nobody is listed twice, so only the one acceptor loses its channel.
    have mem := List.mem_of_find?_eq_some found
    obtain ⟨lower, upper, whole, cleared⟩ := setPeer_alist kept.ranked mem none
    have core : (detached node source acc.paxid).pax.core = node.pax.core := by
      rw [detached, setLiveCount_core, setPeer_core, emit_core]
    have selfId : (detached node source acc.paxid).pax.selfId = node.pax.selfId :=
      congrArg Core.selfId core
    have ilist : (detached node source acc.paxid).pax.ilist = node.pax.ilist :=
      congrArg Core.ilist core
    have alist : (detached node source acc.paxid).pax.alist =
        lower ++ { acc with peer := none } :: upper := by
      rw [detached_alist]
      exact cleared
    have ids : (detached node source acc.paxid).pax.alist.map Acceptor.paxid =
        node.pax.alist.map Acceptor.paxid := by
      rw [alist, whole]
      simp
    have ranked : Ranked (detached node source acc.paxid).pax.alist := by
      have order : (node.pax.alist.map Acceptor.paxid).Pairwise (· < ·) :=
        List.pairwise_map.mpr kept.ranked
      rw [← ids] at order
      exact List.pairwise_map.mp order
    have self : ∃ me ∈ (detached node source acc.paxid).pax.alist,
        me.paxid = (detached node source acc.paxid).pax.selfId := by
      obtain ⟨me, memMe, mine⟩ := kept.listed
      have listed : node.pax.selfId ∈
          (detached node source acc.paxid).pax.alist.map Acceptor.paxid := by
        rw [ids, ← mine]
        exact List.mem_map_of_mem memMe
      obtain ⟨other, memOther, named⟩ := List.mem_map.mp listed
      exact ⟨other, memOther, named.trans selfId.symm⟩
    have listed : ∃ other ∈ (detached node source acc.paxid).pax.alist,
        other.paxid = acc.paxid := by
      rw [alist]
      exact ⟨{ acc with peer := none }, by simp, by simp⟩
    have wfDetached : (detached node source acc.paxid).pax.ilist.WellFormed := by
      rw [ilist]
      exact wf
    exact lost_roster fuel wfDetached ranked self listed returned

/-- An event brings a message of a peer. -/
def Event.isFrom (event : Event) (source : PeerId) : Prop := ∃ msg, event = .message source msg

/-- A session in play, whatever its client does from its coming callbacks. -/
def InPlay (node : Node) : Prop :=
  ∃ base begun first script, node = { base with script := script } ∧
    Begins Welcome.Peopled begun first ∧ Runs (fun _ _ => True) begun base

/-- No hello of a peer is waiting for its join. -/
def Roster.Free (source : PeerId) (roster : Roster) : Prop :=
  ∀ acc ∈ roster.adefer, acc.peer ≠ some source

/-- The same participants have the same hellos waiting. -/
theorem Roster.Free.congr {pax other : Session} (free : pax.roster.Free source)
    (same : other.polity = pax.polity) : other.roster.Free source := by
  have roster : other.roster = pax.roster := congrArg Polity.roster same
  rw [roster]
  exact free

/-- Only its hello makes a peer wait. -/
theorem Opens.free {start : Node} {event : Event} {roster : Roster}
    (opens : Opens start event roster) (gone : ¬ event.isFrom source)
    (ranked : Ranked start.pax.adefer) (free : start.pax.roster.Free source) :
    roster.Free source := by
  -- A hello is a message, and the peer has none left to send.
  cases opens with
  | same => exact free
  | @attach _ acc chan => cases chan <;> exact free
  | greet => exact free
  | replace => exact free
  | @wait other hdr body asked =>
    intro acc mem
    rcases ranked.mem_insert mem with mem | rfl
    · exact free acc mem
    · rintro ⟨⟩
      exact gone ⟨_, asked⟩
  | lose _ found =>
    rw [setLiveCount_roster]
    exact free

/-- A join takes hellos off their list. -/
theorem enlist_free {node : Node} (free : node.pax.roster.Free source) (inum : Nat)
    (req : Request) : (enlist node inum req).pax.roster.Free source := by
  unfold enlist
  split
  · exact fun acc mem => free acc (List.mem_filter.mp mem).1
  · exact free

/-- A part is not about hellos. -/
theorem delist_free {node : Node} (free : node.pax.roster.Free source) (paxid : Nat) :
    (delist node paxid).pax.roster.Free source := by
  unfold delist
  split
  · rw [setLiveCount_roster]
    exact free
  · exact free

/-- No move makes a peer wait but on an event that brings its message. -/
theorem Move.free {start : Node} {event : Event} {config after : Config}
    (move : Move start event config after) (gone : ¬ event.isFrom source)
    (ranked : Ranked start.pax.adefer) (init : start.pax.roster.Free source)
    (free : config.node.pax.roster.Free source) :
    after.node.pax.roster.Free source := by
  -- The lists change by what the event does, and by joins and parts, which make nobody wait.
  cases move with
  | top act =>
    rcases act.polity with same | turns
    · exact free.congr same
    · exact turns.opens.1.free gone ranked init
  | inner move =>
    cases move with
    | nest _ act => exact free.congr act.polity
    | enter => exact free
    | @learn node _ addr inst =>
      rcases learnt_polity node addr inst (learnRequest node.pax inst.val) with same | ⟨req, same⟩
      · exact free.congr same
      · have roster : (learnt node addr inst (learnRequest node.pax inst.val)).pax.roster =
            (enlist node inst.hdr.inum req).pax.roster := congrArg Polity.roster same
        show Roster.Free source (learnt node addr inst (learnRequest node.pax inst.val)).pax.roster
        rw [roster]
        exact enlist_free free inst.hdr.inum req
    | delist => exact delist_free free _
    | depose _ _ replaces =>
      rw [replaces.roster]
      exact delist_free free _
    | next => exact free
    | last => exact free
    | gap => exact free
    | rest => exact free

/-- A handler keeps the lists, with ourselves among them. -/
theorem Handles.kept {event : Event} (handles : Handles node event (.ok next))
    (wf : node.pax.ilist.WellFormed) (kept : node.pax.roster.Kept node.pax.selfId) :
    next.pax.roster.Kept next.pax.selfId := by
  -- The invariant has the lists in order, and the session under its name.
  have manned := (@Handles.invariant _ _ _ (Manned node) handles wf (fun _ => ⟨rfl, kept⟩)
    fun {script config after} move _ manned => by
      have next := @Manned.move { node with script := script } event config after
        ⟨manned.self, manned.kept⟩ move kept
      exact ⟨next.self, next.kept⟩).1 next rfl
  have who : next.pax.selfId = node.pax.selfId := manned.self
  rw [who]
  exact manned.kept

/-- A destroyed peer does not come to wait. -/
theorem Runs.free {after : Node} (run : Runs (fun _ event => ¬ event.isFrom source) next after)
    (wf : next.pax.ilist.WellFormed) (kept : next.pax.roster.Kept next.pax.selfId)
    (free : next.pax.roster.Free source) : after.pax.roster.Free source := by
  -- Over the run, the peer is free after each handler if it was before.
  have all := @Runs.invariant _ _ _ (fun node => node.pax.ilist.WellFormed ∧
    node.pax.roster.Kept node.pax.selfId ∧ node.pax.roster.Free source) run ⟨wf, kept, free⟩ ?_
  · exact all.2.2
  · intro node event next gone handles ⟨wf, kept, free⟩
    refine ⟨handles.wellFormed wf, handles.kept wf kept, ?_⟩
    exact (@Handles.invariant _ _ _ (fun config => config.node.pax.roster.Free source) handles wf
      (fun _ => free) fun move _ still => move.free gone kept.deferred free still).1 next rfl

/-- Whether an acceptor refers to a peer. -/
def Acceptor.refers (source : PeerId) (acc : Acceptor) : Bool := acc.peer = some source

/-- What the loss of a peer is to leave of a session that is still alive. -/
structure Forgets (source : PeerId) (node next : Node) : Prop where
  alist : ∀ acc ∈ next.pax.alist, acc.peer ≠ some source
  adefer : ∀ acc ∈ next.pax.adefer, acc.peer ≠ some source
  /-- The live count goes down by one for each acceptor that referred to the peer. -/
  count : next.pax.liveCount =
    Nat.iterate unsignedPred (node.pax.alist.countP (Acceptor.refers source)) node.pax.liveCount
  spares : (∀ acc ∈ node.pax.alist ++ node.pax.adefer, acc.peer ≠ some source) → next = node
  /-- No join that is learned later comes with the destroyed peer. -/
  later : ∀ after, Runs (fun _ event => ¬ event.isFrom source) next after →
    ∀ inum req, (joinedAcceptor after.pax inum req).peer ≠ some source

/-- A session has a peer for one listed acceptor at most, and for no hello that waits. -/
def HeldOnce (source : PeerId) (node : Node) : Prop :=
  node.pax.alist.countP (Acceptor.refers source) ≤ 1 ∧
    ∀ acc ∈ node.pax.adefer, acc.peer ≠ some source

instance (source : PeerId) (node : Node) : Decidable (HeldOnce source node) :=
  inferInstanceAs (Decidable (_ ∧ _))

/-- Nobody who refers to a peer is counted when nobody does. -/
theorem countP_refers_eq_zero {list : List Acceptor} :
    list.countP (Acceptor.refers source) = 0 ↔ ∀ acc ∈ list, acc.peer ≠ some source := by
  rw [List.countP_eq_zero]
  simp [Acceptor.refers]

/-- A session forgets a lost peer exactly when it has it once, for a listed acceptor. -/
theorem forgets_iff {fuel : Nat} (playing : InPlay node)
    (returned : paxosDropConnection fuel node source = .ok next) :
    Forgets source node next ↔ HeldOnce source node := by
  -- The run gives the shape of the state, and the handler detaches one acceptor.
  obtain ⟨base, begun, first, script, rfl, begins, run⟩ := playing
  have rolls := run.rolls begins
  have wf : ({ base with script := script } : Node).pax.ilist.WellFormed := rolls.wellFormed
  have kept : ({ base with script := script } : Node).pax.roster.Kept base.pax.selfId := rolls.kept
  generalize node_ : ({ base with script := script } : Node) = node at wf kept returned ⊢
  have who : base.pax.selfId = node.pax.selfId := by rw [← node_]
  rw [who] at kept
  have handles : Handles node (.drop source) (.ok next) := ⟨fuel, node.script, returned⟩
  -- Once no hello of the peer waits, none will.
  have later : next.pax.roster.Free source → ∀ after,
      Runs (fun _ event => ¬ event.isFrom source) next after →
        ∀ inum req, (joinedAcceptor after.pax inum req).peer ≠ some source := by
    intro free after run inum req
    have still : after.pax.roster.Free source :=
      run.free (handles.wellFormed wf) (handles.kept wf kept) free
    intro same
    obtain ⟨acc, found, held⟩ := Option.bind_eq_some_iff.mp same
    exact still acc (SortedList.findFwd_mem found).1 held
  rcases paxosDropConnection_roster fuel wf kept returned with ⟨misses, rfl⟩ | ⟨acc, found, roster⟩
  · -- The session has no acceptor with the peer and is left as it is.
    have none_ : ∀ acc ∈ next.pax.alist, acc.peer ≠ some source := by
      simpa [Session.holds] using misses
    have zero := countP_refers_eq_zero.mpr none_
    constructor
    · intro forgets
      exact ⟨by omega, forgets.adefer⟩
    · rintro ⟨-, free⟩
      exact ⟨none_, free, by rw [zero, Function.iterate_zero, id], fun _ => rfl, later free⟩
  · have mem := List.mem_of_find?_eq_some found
    have held : acc.peer = some source := by simpa using List.find?_some found
    obtain ⟨lower, upper, whole, cleared⟩ := setPeer_alist kept.ranked mem none
    have alist : next.pax.alist = lower ++ { acc with peer := none } :: upper := by
      have same : next.pax.alist = (detached node source acc.paxid).pax.alist :=
        congrArg Roster.alist roster
      rw [same, detached_alist]
      exact cleared
    have adefer : next.pax.adefer = node.pax.adefer := by
      have same := congrArg Roster.adefer roster
      rw [detached_roster] at same
      exact same
    have count : next.pax.liveCount = unsignedPred node.pax.liveCount := by
      have same := congrArg Roster.liveCount roster
      rw [detached_roster] at same
      exact same
    have total : node.pax.alist.countP (Acceptor.refers source) =
        lower.countP (Acceptor.refers source) + upper.countP (Acceptor.refers source) + 1 := by
      rw [whole, List.countP_append, List.countP_cons_of_pos (by simp [Acceptor.refers, held])]
      omega
    constructor
    · -- The scan ends at the first acceptor, so any other one keeps the peer.
      intro forgets
      have rest := countP_refers_eq_zero.mpr forgets.alist
      rw [alist, List.countP_append, List.countP_cons] at rest
      refine ⟨by omega, ?_⟩
      rw [← adefer]
      exact forgets.adefer
    · -- The one acceptor that had the peer is the one that the scan finds.
      rintro ⟨once, free⟩
      constructor
      case alist =>
        apply countP_refers_eq_zero.mp
        rw [alist, List.countP_append, List.countP_cons_of_neg (by simp [Acceptor.refers])]
        omega
      case adefer =>
        rw [adefer]
        exact free
      case count =>
        have one : node.pax.alist.countP (Acceptor.refers source) = 1 := by omega
        rw [one, count, Function.iterate_one]
      case spares => exact fun spared => absurd held (spared acc (List.mem_append_left _ mem))
      case later =>
        apply later
        show ∀ acc ∈ next.pax.adefer, _
        rw [adefer]
        exact free

/-- A drop that returns has gone through every session. -/
theorem dropSessions_each {fuel : Nat} {gone : Bool} {sessions nexts : List Node}
    (returned : dropSessions fuel source gone sessions = .ok nexts) :
    List.Forall₂ (fun node next => paxosDropConnection fuel node source = .ok next)
      sessions nexts := by
  -- The fold stops at the first failure, so every drop has returned.
  induction sessions generalizing gone nexts with
  | nil =>
    cases returned
    exact .nil
  | cons node rest ih =>
    unfold dropSessions at returned
    split at returned
    · simp at returned
    · split at returned
      · rename_i next runs
        obtain ⟨others, dropped, same⟩ := Outcome.andThen_eq_ok.mp returned
        cases same
        exact .cons runs (ih dropped)
      · simp at returned
      · simp at returned

/--
The sessions of a process forget a lost peer exactly when each of them has it once at most, and for
no hello that waits for its join.
-/
theorem drop_forgets_iff {fuel : Nat} {sessions nexts : List Node}
    (playing : ∀ node ∈ sessions, InPlay node)
    (returned : paxosDropConnections fuel sessions source = .ok nexts) :
    List.Forall₂ (Forgets source) sessions nexts ↔ ∀ node ∈ sessions, HeldOnce source node := by
  have each := dropSessions_each returned
  clear returned
  -- By induction on the sessions, each of which handles the loss by itself.
  induction each with
  | nil => simp
  | @cons node next sessions nexts runs _ ih =>
    have head := forgets_iff (playing node List.mem_cons_self) runs
    have tail := ih fun other mem => playing other (List.mem_cons_of_mem _ mem)
    rw [List.forall₂_cons, List.forall_mem_cons, head]
    exact and_congr_right fun _ => tail

/-- The second of the three has forgotten the first, which it prepares without. -/
theorem drop_forgets_successor :
    List.Forall₂ (Forgets 1) [successor.connected] [successor.preparing] := by
  -- The second connects to the third, so that it outlives the loss of the first.
  have connects : Handles successor.node (.connected 0 (some 3)) (.ok successor.connected) :=
    ⟨20, [], by decide +kernel⟩
  have peopled : successor.Peopled := ⟨by decide, by decide⟩
  have playing : InPlay successor.connected :=
    ⟨successor.connected, successor.node, _, [], by rfl, .welcome successor peopled,
      .step .refl trivial connects⟩
  have returned : paxosDropConnections 20 [successor.connected] 1 = .ok [successor.preparing] := by
    decide +kernel
  refine (drop_forgets_iff ?_ returned).mpr ?_
  · simpa using playing
  · decide +kernel

/--
A lost peer is kept for an acceptor whose join is not learned yet, and attached when it is.

The fourth has greeted the third, which has learned nothing of its join, and they lose each other.
-/
theorem drop_remembered : ∃ sys, System.Reachable sys ∧
    (∃ node ∈ (sys.process [3]).node, ⟨4, some 11, []⟩ ∈ node.pax.adefer ∧
      paxosDropConnections 20 [node] 11 = .ok [node]) ∧
    ∃ next ∈ sys.play [.steps [.eof 5 true, .deliver 1 true, .deliver 1 true, .deliver 1 true]],
      (next.channels[5]?.map fun chan => chan.snd.closed) = some true ∧
      ∃ node ∈ (next.process [3]).node, ⟨4, some 11, [4]⟩ ∈ node.pax.alist :=
  System.exists_played
    (System.assemble [[1], [2], [3]] ++
      -- The fourth joins and gets to know the others, but the third learns nothing of the join.
      [.steps [.client [1] { dkind := .join, data := [4] }, .deliver 0 true, .deliver 0 true,
          .deliver 0 false, .complete 0 true, .deliver 3 true, .complete 0 true, .complete 0 true,
          .deliver 0 true, .deliver 4 true, .deliver 5 true, .cut 5]])
    (by decide +kernel)

end Motmot
