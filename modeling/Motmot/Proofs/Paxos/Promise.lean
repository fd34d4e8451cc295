import Motmot.Proofs.Paxos.Commit

/-! A promise follows the moves: its votes are merged, and a majority makes us the proposer. -/

namespace Motmot

variable {start : Node} {event : Event}

/-- A handler of an event follows the moves from one state on. -/
abbrev Follows (start : Node) (event : Event) (node : Node) (result : Result) : Prop :=
  Leads (Move start event) [] [] node result

namespace Follows

variable {node mid : Node} {result : Result}

/-- What a learning loop may do, a handler may do. -/
theorem inner (leads : Leads (Inner start event) [] [] node result) :
    Follows start event node result :=
  leads.mono fun _ _ => .inner

/-- A move of the handler itself. -/
theorem top (act : Top start event node mid) (rest : Follows start event mid result) :
    Follows start event node result :=
  Leads.step (.top act) rest

/-- An outer move of the handler. -/
theorem outer (act : Outer start event node mid) (rest : Follows start event mid result) :
    Follows start event node result :=
  Leads.step (.inner (.nest trivial (.outer act))) rest

/-- A handler that only makes an outer move. -/
theorem okOuter (act : Outer start event node mid) : Follows start event node (.ok mid) :=
  outer act .done

/-- The beginning of a handler. -/
theorem prior (act : Prior start event mid) (stays : ¬ Deposes start.pax event)
    (keeps : ¬ Yields start.pax event) (rest : Follows start event mid result) :
    Follows start event start result :=
  top (.beside act stays keeps) rest

/-- A handler that is at its end with its beginning. -/
theorem okPrior (act : Prior start event mid) (stays : ¬ Deposes start.pax event)
    (keeps : ¬ Yields start.pax event) : Follows start event start (.ok mid) :=
  prior act stays keeps .done

end Follows

/-- Being the proposer with no prepare running. -/
def Prepared (pax : Session) : Prop := isProposer pax = true ∧ pax.prep = none

instance (pax : Session) : Decidable (Prepared pax) := inferInstanceAs (Decidable (_ ∧ _))

/-- Being the proposer of a prepare that a majority has acknowledged. -/
def Winning (prep : Prep) (pax : Session) : Prop :=
  isProposer pax = true ∧ pax.prep = some prep ∧ pax.ballot = prep.ballot

/-- A core determines whether its session is prepared. -/
theorem Prepared.congr {pax next : Session} (core : next.core = pax.core)
    (prepared : Prepared pax) : Prepared next :=
  ⟨(isProposer_congr core).trans prepared.1, (congrArg Core.prep core).trans prepared.2⟩

/-- Unpacking a vote follows its step. -/
theorem unpackScratch_unpacks {node : Node} {scratch : Option Addr} (vote : PackedInstance)
    (spare : ∀ addr, scratch = some addr →
      node.pax.ilist.onList addr = false ∧ addr < node.pax.ilist.brk) :
    Unpacks vote node (unpackScratch node scratch vote).1 (unpackScratch node scratch vote).2 := by
  cases scratch with
  | none => exact .fresh
  | some addr => exact .reused (spare addr rfl).1 (spare addr rfl).2

/--
A partial merge is one of the votes in front.

It only goes beyond the list from a cursor that is not on the list.
-/
def MergesSome (node : Node) (cursor : Option Addr) (votes : List PackedInstance)
    (result : Result) : Prop :=
  match result with
  | .ok next => Merges node votes next
  | .stop reason halted => (reason ≠ .failed .commitPastHole ∧ reason ≠ .failed .learnCached ∧
      reason ≠ .failed .learnSender) ∧
      (reason = .unlinked → ∃ it, cursor = some it ∧ node.pax.ilist.onList it = false) ∧
      ∃ done, done <+: votes ∧ Merges node done halted

/-- A step in front of a merge, from a cursor on the list to one on the list. -/
theorem MergesSome.cons {vote : PackedInstance} {node mid : Node} {votes : List PackedInstance}
    {it next : Addr} {result : Result} (step : VoteStep vote node mid)
    (keeps : node.pax.ilist.onList it = true → mid.pax.ilist.onList next = true)
    (rest : MergesSome mid (some next) votes result) :
    MergesSome node (some it) (vote :: votes) result := by
  -- The merge goes on, or it stops with what it has merged so far.
  cases result with
  | ok next => exact Merges.cons step rest
  | stop reason halted =>
    obtain ⟨other, linked, done, before, merges⟩ := rest
    refine ⟨other, ?_, vote :: done, List.cons_prefix_cons.mpr ⟨rfl, before⟩,
      Merges.cons step merges⟩
    intro unlinked
    obtain ⟨reached, same, off⟩ := linked unlinked
    obtain rfl : next = reached := Option.some.inj same
    refine ⟨it, rfl, ?_⟩
    by_contra on
    rw [keeps (by simpa using on)] at off
    contradiction

/-- A merge that stops behind the unpacking of a vote. -/
theorem MergesSome.halt {vote : PackedInstance} {node mid : Node} {votes : List PackedInstance}
    {it : Addr} {reason : Stop} (step : VoteStep vote node mid)
    (other : reason ≠ .failed .commitPastHole ∧ reason ≠ .failed .learnCached ∧
      reason ≠ .failed .learnSender)
    (linked : reason = .unlinked → node.pax.ilist.onList it = false) :
    MergesSome node (some it) (vote :: votes) (.stop reason mid) :=
  ⟨other, fun same => ⟨it, rfl, linked same⟩, [vote],
    List.cons_prefix_cons.mpr ⟨rfl, List.nil_prefix⟩, .cons step (.nil mid)⟩

/-- The votes of a promise follow their steps, with the scratch always outside the list. -/
theorem mergeVotes_merges (votes : List PackedInstance) {node : Node} {it : Addr}
    {scratch : Option Addr} (wf : node.pax.ilist.WellFormed)
    (spare : ∀ addr, scratch = some addr →
      node.pax.ilist.onList addr = false ∧ addr < node.pax.ilist.brk) :
    MergesSome node (some it) votes (mergeVotes node it scratch votes) := by
  -- The induction is on the votes, each of which is unpacked and then finds its place.
  induction votes generalizing node it scratch with
  | nil => exact Merges.nil node
  | cons vote votes ih =>
    have unpacks := unpackScratch_unpacks vote spare
    unfold mergeVotes
    generalize unpackScratch node scratch vote = unpacked at unpacks ⊢
    obtain ⟨mid, addr⟩ := unpacked
    simp only at unpacks ⊢
    obtain ⟨wfMid, cells, off, bound⟩ := unpacks.spec wf
    split
    · exact .halt (.keep unpacks) (by simp) (by simp)
    · exact .halt (.keep unpacks) (by simp) (by simp)
    · rename_i reached walked
      -- A walk from the list ends on the list.
      have stays : node.pax.ilist.onList it = true → mid.pax.ilist.onList reached = true := by
        intro on
        refine Ilist.onList_of_getInstanceGlb walked ?_
        rw [Ilist.onList, cells]
        exact on
      have strays : mid.pax.ilist.onList reached = false → node.pax.ilist.onList it = false := by
        intro away
        by_contra on
        rw [stays (by simpa using on)] at away
        contradiction
      split
      · exact .halt (.keep unpacks) (by simp) (by simp)
      · rename_i inst held
        split
        · -- The closest instance is lower, so the vote is linked behind it.
          rename_i lower
          split
          · rename_i away
            exact .halt (.keep unpacks) (by simp) fun _ => strays (by simpa using away)
          · rename_i on
            have on : mid.pax.ilist.onList reached = true := by simpa using on
            obtain ⟨front, place, upper, whole, rfl, -, past⟩ :=
              wfMid.getInstanceGlb_spec walked on
            have mem : place ∈ mid.pax.ilist.cells := by simp [whole]
            obtain rfl : place.inst = inst := by
              simpa [Node.inst?, wfMid.inst?_of_mem mem] using held
            have step : VoteStep vote node
                (linkScratch mid place.addr ⟨addr, voteInstance vote⟩) :=
              .link unpacks whole lower past
            refine .cons step (fun _ => ?_) (ih (step.wellFormed wf) (by simp))
            rw [linkScratch_ilist]
            refine Ilist.onList_iff.mpr ⟨place, ?_, rfl⟩
            simp [Ilist.insertAfter_cells wfMid whole]
        · rename_i notLower
          split
          · -- An uncommitted instance of a lower ballot makes room for the vote.
            rename_i outranked
            split
            · rename_i away
              exact .halt (.keep unpacks) (by simp) fun _ => strays (by simpa using away)
            · rename_i on
              have on : mid.pax.ilist.onList reached = true := by simpa using on
              obtain ⟨front, place, upper, whole, rfl, below, past⟩ :=
                wfMid.getInstanceGlb_spec walked on
              have mem : place ∈ mid.pax.ilist.cells := by simp [whole]
              obtain rfl : place.inst = inst := by
                simpa [Node.inst?, wfMid.inst?_of_mem mem] using held
              have rank : place.inst.committed = false ∧
                  ballotCompare vote.hdr.ballot place.inst.hdr.ballot = .gt := by
                simpa using outranked
              have same : place.inum = vote.hdr.inum := by
                have : ¬ place.inum < vote.hdr.inum := notLower
                omega
              have step : VoteStep vote node
                  (mid.setIlist (mid.pax.ilist.swap place ⟨addr, voteInstance vote⟩)) :=
                .swap unpacks mem same rank.1 rank.2
              refine .cons step (fun _ => ?_) (ih (step.wellFormed wf) ?_)
              · exact Ilist.onList_iff.mpr ⟨_, (wfMid.mem_swap mem).mpr (Or.inl rfl), rfl⟩
              · -- The instance that moved out is the next scratch.
                intro spareAddr equal
                obtain rfl : place.addr = spareAddr := by simpa using equal
                refine ⟨?_, wfMid.linked place mem⟩
                by_contra still
                obtain ⟨cell, memCell, equal⟩ := Ilist.onList_iff.mp (by simpa using still)
                rcases (wfMid.mem_swap mem).mp memCell with rfl | ⟨old, differ⟩
                · rw [Ilist.onList_iff.mpr ⟨place, mem, equal.symm⟩] at off
                  simp at off
                · exact differ (wfMid.addr_inj old mem equal)
          · -- The log keeps what it has, and the vote is the next scratch.
            refine .cons (.keep unpacks) stays (ih wfMid ?_)
            intro spareAddr equal
            obtain rfl : addr = spareAddr := by simpa using equal
            exact ⟨off, bound⟩

/-- The votes of a promise follow their steps from the cursor of the prepare. -/
theorem mergePromise_merges {node : Node} (cursor : Option Addr) (votes : List PackedInstance)
    (wf : node.pax.ilist.WellFormed) :
    MergesSome node cursor votes (mergePromise node cursor votes) := by
  unfold mergePromise
  split
  · exact Merges.nil node
  · exact ⟨by simp, by simp, [], List.nil_prefix, Merges.nil node⟩
  · exact mergeVotes_merges _ wf (by simp)

/-- A cursor is on the list, unless the one that the prepare has cached is not. -/
def Rooted (node : Node) (prep : Prep) (it : Addr) : Prop :=
  node.pax.ilist.onList it = true ∨
    ∃ addr, prep.istart = some addr ∧ node.pax.ilist.onList addr = false

/-- The loop starts from the cursor that the prepare has cached. -/
theorem Rooted.cached {node : Node} {prep : Prep} {it : Addr} (cached : prep.istart = some it) :
    Rooted node prep it := by
  cases on : node.pax.ilist.onList it with
  | true => exact Or.inl on
  | false => exact Or.inr ⟨it, cached, on⟩

/-- Decreeing again whatever is not committed keeps us winning. -/
theorem redecree_follows (fuel : Nat) {node : Node} {prep : Prep} {it : Addr} {inum : Nat}
    (wf : node.pax.ilist.WellFormed) (winning : Winning prep node.pax)
    (rooted : Rooted node prep it)
    (ahead : node.pax.ihole ≤ inum) (completes : ∃ prep, Completes start.pax event prep) :
    Follows start event node (redecree fuel node it inum) ∧
      ∀ next, redecree fuel node it inum = .ok next → Winning prep next.pax := by
  -- Each round passes over a number, fills it or decrees it again.
  induction fuel generalizing node it inum with
  | zero => exact ⟨.halt (by simp), by simp [redecree]⟩
  | succ fuel ih =>
    unfold redecree
    split
    · exact ⟨.halt (by simp), by simp⟩
    · exact ⟨.halt (by simp), by simp⟩
    · rename_i it walked
      have rooted : Rooted node prep it := rooted.imp (Ilist.onList_of_getInstanceGlb walked) id
      split
      · exact ⟨.halt (by simp), by simp⟩
      · rename_i inst held
        split
        · rename_i lower
          split
          · refine ⟨.done, ?_⟩
            rintro next ⟨⟩
            exact winning
          · rename_i notLast
            split
            · -- Only the cursor of the prepare leads to an instance that is not on the list.
              rename_i away
              have off : node.pax.ilist.onList it = false := by simpa using away
              obtain ⟨addr, cached, gone⟩ := rooted.resolve_left (by simp [off])
              refine ⟨⟨_, .refl, Or.inl rfl, by simp, by simp, by simp, id, fun _ => ?_⟩, by simp⟩
              exact ⟨prep, addr, winning.2.1, cached, gone⟩
            · -- Nobody in the quorum has heard of this number.
              rename_i on
              have on : node.pax.ilist.onList it = true := by simpa using on
              obtain ⟨front, place, upper, whole, rfl, -, past⟩ := wf.getInstanceGlb_spec walked on
              have mem : place ∈ node.pax.ilist.cells := by simp [whole]
              obtain rfl : place.inst = inst := by
                simpa [Node.inst?, wf.inst?_of_mem mem] using held
              have inside : upper ≠ [] := by
                rintro rfl
                simp [Ilist.last, whole] at notLast
              simp only
              have act : Top start event node (redecreeInstance (fillNull node place.addr inum)
                  (nextAddr node) (nullInstance node.bumpReqId.pax inum)) :=
                .fill winning.1 winning.2.1 winning.2.2 whole lower past inside ahead
                  completes
              obtain ⟨istart, same⟩ := linkScratch_eq
                (node.bumpReqId.setIlist (node.bumpReqId.pax.ilist.alloc
                  (nullInstance node.bumpReqId.pax inum))) place.addr
                ⟨nextAddr node.bumpReqId, nullInstance node.bumpReqId.pax inum⟩
              have filled : fillNull node place.addr inum = _ := same
              have pax : (fillNull node place.addr inum).pax.selfId = node.pax.selfId ∧
                  (fillNull node place.addr inum).pax.reqId = node.bumpReqId.pax.reqId := by
                rw [filled]
                exact ⟨rfl, rfl⟩
              have null : nullInstance (fillNull node place.addr inum).pax inum =
                  nullInstance node.bumpReqId.pax inum := by
                unfold nullInstance
                rw [pax.1, pax.2]
                rfl
              rw [null]
              have still : Winning prep (redecreeInstance (fillNull node place.addr inum)
                  (nextAddr node) (nullInstance node.bumpReqId.pax inum)).pax := by
                rw [filled]
                exact winning
              have hole : (redecreeInstance (fillNull node place.addr inum)
                  (nextAddr node) (nullInstance node.bumpReqId.pax inum)).pax.ihole ≤ inum + 1 := by
                rw [filled]
                exact Nat.le_succ_of_le ahead
              have stays : Rooted (redecreeInstance (fillNull node place.addr inum)
                  (nextAddr node) (nullInstance node.bumpReqId.pax inum)) prep place.addr := by
                refine Or.inl ((Ilist.onList_modify _ _ _).trans ?_)
                refine Ilist.onList_iff.mpr ⟨place, ?_, rfl⟩
                simp [fillNull_cells wf inum whole]
              obtain ⟨leads, wins⟩ := ih (act.wellFormed wf) still stays hole
              exact ⟨.top act leads, wins⟩
        · rename_i notLower
          split
          · -- The quorum has seen this instance, and the vote we hold is the highest.
            rename_i uncommitted
            have act : Top start event node (redecreeInstance node it inst) :=
              .redecree winning.1 winning.2.1 winning.2.2 held (by simpa using uncommitted)
                (by omega) completes
            have still : Winning prep (redecreeInstance node it inst).pax := winning
            have stays : Rooted (redecreeInstance node it inst) prep it := by
              have same : ∀ addr, (redecreeInstance node it inst).pax.ilist.onList addr =
                  node.pax.ilist.onList addr := fun addr => Ilist.onList_modify _ _ _
              unfold Rooted
              simp only [same]
              exact rooted
            obtain ⟨leads, wins⟩ := ih (act.wellFormed wf) still stays (Nat.le_succ_of_le ahead)
            exact ⟨.top act leads, wins⟩
          · exact ih wf winning rooted (Nat.le_succ_of_le ahead)

/-- Learning, and whatever it leads to, leaves a prepared proposer prepared. -/
theorem Inner.prepared {config after : Config} (move : Inner start event config after)
    (prepared : Prepared config.node.pax) : Prepared after.node.pax := by
  -- Whatever learning leads to, it touches neither the office nor the prepare.
  cases move with
  | nest _ act =>
    cases act with
    | outer outer => exact prepared.congr outer.core
    | defer prior preparing =>
      -- Nothing is deferred without a prepare.
      have idle := (prepared.congr prior.core).2
      simp [idle] at preparing
    | @decree mid inst prior =>
      obtain ⟨_, _, same⟩ := instanceInsertAndUpstart_eq mid (decreeOf mid.pax inst)
      have before : Prepared mid.pax := prepared.congr prior.core
      show Prepared (instanceInsertAndUpstart mid (decreeOf mid.pax inst)).pax
      rw [same]
      exact before
    | announce => exact prepared
    | commit => exact prepared
    | cache => exact prepared
    | aim => exact prepared
    | prepare preparing => exact prepared
  | enter => exact prepared
  | @learn node _ addr inst =>
    unfold learnt
    split
    · exact Prepared.congr (enlist_core _ _ _) prepared
    · exact prepared
  | delist => exact prepared.congr (delist_core _ _)
  | depose other led =>
    -- The proposer that leaves is somebody else, so we are not the proposer.
    have mine := prepared.1
    simp only [isProposer, led, decide_eq_true_eq, Option.some.injEq] at mine
    exact absurd mine other
  | next => exact prepared
  | last => exact prepared
  | gap => exact prepared
  | rest => exact prepared

/-- A sequence of inner moves leaves a prepared proposer prepared. -/
theorem inner_prepared {config after : Config}
    (path : Relation.ReflTransGen (Inner start event) config after)
    (prepared : Prepared config.node.pax) : Prepared after.node.pax := by
  induction path with
  | refl => exact prepared
  | tail _ move ih => exact move.prepared ih

/-- A decree leaves a prepared proposer prepared. -/
theorem announceDecree_prepared {node : Node} (inst : Instance) (prepared : Prepared node.pax) :
    Prepared (announceDecree node inst).pax := by
  obtain ⟨_, _, same⟩ := instanceInsertAndUpstart_eq node (decreeOf node.pax inst)
  show Prepared (instanceInsertAndUpstart node (decreeOf node.pax inst)).pax
  rw [same]
  exact prepared

/-- The completion of a prepare may lead to commits. -/
theorem Completes.licensed (completes : ∃ prep, Completes start.pax event prep) :
    Licenses start event := by
  obtain ⟨_, leads, -, _, _, _, rfl, opcode, -⟩ := completes
  refine .leads leads ?_
  simp [Event.greets, opcode]

/-- The deferred decrees follow the moves. -/
theorem decreeDeferred_follows (fuel rounds : Nat) {node : Node}
    (wf : node.pax.ilist.WellFormed) (scripted : Scripted start node) (prepared : Prepared node.pax)
    (completes : ∃ prep, Completes start.pax event prep) :
    Follows start event node (decreeDeferred (paxosCommit fuel) rounds node) := by
  -- Each round decrees the first of those that wait.
  induction rounds generalizing node with
  | zero => exact .halt (by simp)
  | succ rounds ih =>
    unfold decreeDeferred
    split
    · exact .done
    · rename_i inst rest deferred
      have wfRest : (node.setIdefer rest).pax.ilist.WellFormed := wf
      have lets : Lets [] := trivial
      have decreed : Leads (Inner start event) [] [] _ _ :=
        proposerDecree_follows lets (fun _ => paxosCommit_commits fuel
          (Completes.licensed completes)) wfRest
          scripted inst
      have announced : Prepared (announceDecree (node.setIdefer rest) inst).pax :=
        announceDecree_prepared inst prepared
      refine Follows.top (.undefer prepared.1 prepared.2 deferred completes) ?_
      generalize proposerDecree (paxosCommit fuel) (node.setIdefer rest) inst = result at decreed ⊢
      cases result with
      | ok last =>
        -- The commit that the decree may lead to leaves us the proposer.
        have wfLast := inner_wellFormed decreed (announceDecree_wellFormed wfRest inst)
        exact .prepend (Leads.mono (fun _ _ => .inner) decreed)
          (ih wfLast (inner_scripted decreed (scripted.keep (announceDecree_script _ inst)))
            (inner_prepared decreed announced))
      | stop reason halted => exact .inner decreed

/-- The end of a prepare follows the moves. -/
theorem finishPrepare_follows (fuel : Nat) {node : Node} {prep begun : Prep} {source : PeerId}
    {hdr : Header} {body : Body} (wf : node.pax.ilist.WellFormed) (scripted : Scripted start node)
    (asked : event = .message source ⟨hdr, body⟩) (opcode : hdr.opcode = .promise)
    (proposer : isProposer node.pax = true) (preparing : node.pax.prep = some prep)
    (current : hdr.ballot = prep.ballot) (enough : majority node.pax ≤ prep.acks)
    (same : start.pax.prep = some begun) (acked : prep = { begun with acks := begun.acks + 1 })
    (ballot : node.pax.ballot = start.pax.ballot) (quorum : majority node.pax = majority start.pax)
    (leads : isProposer start.pax = true) :
    Follows start event node (finishPrepare fuel node prep) := by
  have completes : ∃ prep, Completes start.pax event prep := by
    refine ⟨begun, leads, same, source, hdr, body, asked, opcode, ?_, ?_⟩
    · rw [current, acked]
    · rw [acked] at enough
      rw [← quorum]
      exact enough
  -- The ballot is ours, the open instances are decreed again, and then what waited.
  refine Follows.top
    (.win asked opcode proposer preparing current enough same acked ballot quorum leads) ?_
  have won : Winning prep (node.setBallot prep.ballot).pax := ⟨proposer, preparing, rfl⟩
  unfold finishPrepare
  simp only
  split
  · exact .halt (by simp)
  · rename_i cursor cached
    have wfWon : (node.setBallot prep.ballot).pax.ilist.WellFormed := wf
    obtain ⟨leads, wins⟩ : Follows start event (node.setBallot prep.ballot)
        (redecree fuel (node.setBallot prep.ballot) cursor node.pax.ihole) ∧ _ :=
      redecree_follows fuel wfWon won (.cached cached) (Nat.le_refl _) completes
    change Follows start event _ ((redecree fuel (node.setBallot prep.ballot) cursor
      node.pax.ihole).andThen _)
    generalize redecree fuel (node.setBallot prep.ballot) cursor _ = result at leads wins ⊢
    cases result with
    | stop reason halted => exact leads
    | ok last =>
      have winning := wins last rfl
      have wfLast : last.pax.ilist.WellFormed := move_wellFormed leads wf
      rw [Outcome.andThen_ok]
      exact .prepend leads (Follows.top (.settle winning.1 winning.2.1 winning.2.2 completes)
        (decreeDeferred_follows fuel fuel wfLast (move_scripted leads scripted) ⟨winning.1, rfl⟩
          completes))

/-- A promise follows the moves. -/
theorem proposerAckPromise_follows (fuel : Nat) {source : PeerId} {hdr : Header} {body : Body}
    (wf : start.pax.ilist.WellFormed) (asked : event = .message source ⟨hdr, body⟩)
    (opcode : hdr.opcode = .promise) (proposer : isProposer start.pax = true) :
    Follows start event start (proposerAckPromise fuel start ⟨hdr, body⟩) := by
  -- The votes are merged, the answer is counted, and the last one ends the prepare.
  unfold proposerAckPromise
  split
  · exact .done
  · rename_i prep preparing
    split
    · exact .done
    · rename_i agrees
      have current : hdr.ballot = prep.ballot :=
        (ppairCompare_eq_eq.mp (not_not.mp agrees)).symm
      split
      · rename_i count votes packed
        obtain rfl : body = .votes count votes := packed
        split
        · exact .halt (by simp)
        · have merged := mergePromise_merges prep.istart votes wf
          generalize mergePromise start prep.istart votes = result at merged ⊢
          cases result with
          | stop reason halted =>
            obtain ⟨other, linked, done, before, merges⟩ := merged
            by_cases unlinked : reason = .unlinked
            · -- The cursor of the prepare was not on the list to begin with.
              obtain ⟨addr, cached, off⟩ := linked unlinked
              obtain ⟨ilist, istart, rfl⟩ := Merges.eq merges
              exact ⟨_, .refl, Or.inl rfl, fun same => absurd same other.1,
                fun same => absurd same other.2.1, fun same => absurd same other.2.2, id,
                fun _ => ⟨prep, addr, preparing, cached, off⟩⟩
            · exact .top (.merge asked opcode proposer preparing current before merges)
                (.halt ⟨other.1, other.2.1, other.2.2, unlinked⟩)
          | ok mid =>
            have wfMid : mid.pax.ilist.WellFormed := Merges.wellFormed merged wf
            have act : Top start event start mid :=
              .merge asked opcode proposer preparing current List.prefix_rfl merged
            -- The promise is acknowledged once its votes are in.
            obtain ⟨ilist, istart, same⟩ := Merges.eq merged
            have kept : mid.pax.prep = some prep := by rw [same]; exact preparing
            have still : isProposer mid.pax = true := by rw [same]; exact proposer
            have ballot : mid.pax.ballot = start.pax.ballot := by rw [same]
            have quorum : majority mid.pax = majority start.pax := by rw [same]; rfl
            rw [Outcome.andThen_ok]
            refine Follows.top act
              (Follows.top (.ack asked opcode proposer kept preparing current) ?_)
            simp only
            split
            · exact .done
            · rename_i enough
              exact finishPrepare_follows fuel wfMid (act.scripted (.refl start)) asked opcode
                still rfl current
                (Nat.le_of_not_lt enough) preparing rfl ballot quorum proposer
      · exact .halt (by simp)

end Motmot
