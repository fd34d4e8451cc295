import Motmot.Proofs.Paxos.Promise

/-! Every handler of a session follows the moves. -/

namespace Motmot

variable {start : Node} {event : Event}

/-- Outside of any loop there is nothing that moves have to wait for. -/
theorem lets_nil : Lets [] := trivial

section Proposer

variable {source : PeerId} {hdr : Header} {body : Body}

/-- An accept follows the moves. -/
theorem proposerAckAccept_follows (fuel : Nat) (wf : start.pax.ilist.WellFormed)
    (asked : event = .message source ⟨hdr, body⟩) (opcode : hdr.opcode = .accept)
    (proposer : isProposer start.pax = true) :
    Follows start event start (proposerAckAccept fuel start hdr) := by
  -- The vote is counted, and the majority commits.
  unfold proposerAckAccept
  split
  · exact .halt (by simp)
  · rename_i agrees
    have current : hdr.ballot = start.pax.ballot := ppairCompare_eq_eq.mp (not_not.mp agrees)
    split
    · exact .halt (by simp)
    · rename_i cell found
      have act : Top start event start (start.modify cell.addr countVote) :=
        .vote asked opcode proposer current found
      simp only
      split
      · exact .top act .done
      · rename_i uncommitted
        split
        · -- The vote makes a majority.
          rename_i enough
          obtain ⟨mem, -⟩ := wf.find_eq_some.mp found
          have licensed : Licenses start event := by
            refine .leads proposer ?_
            simp [Event.greets, asked, opcode]
          refine .top act (.inner (proposerCommit_follows lets_nil
            (paxosCommit_commits fuel licensed) (act.wellFormed wf) (.refl start) ?_
              ((Bool.not_eq_true _).mp uncommitted) enough))
          exact (wf.mem_modify_linked mem countVote).mpr (Or.inl rfl)
        · exact .top act .done

/-- A rejection follows the moves. -/
theorem proposerAckReject_follows {node : Node} (wf : node.pax.ilist.WellFormed)
    (asked : event = .message source ⟨hdr, body⟩)
    (opcode : hdr.opcode = .reject ∨ hdr.opcode = .refuse)
    (proposer : isProposer start.pax = true) :
    Follows start event node (proposerAckReject node hdr) := by
  -- The reject is counted; a rejected part may lead to an attempt, another decree to a broadcast.
  unfold proposerAckReject
  split
  · exact .halt (by simp)
  · rename_i agrees
    have current : hdr.ballot = node.pax.ballot := ppairCompare_eq_eq.mp (not_not.mp agrees)
    split
    · exact .halt (by simp)
    · rename_i cell found
      obtain ⟨mem, same⟩ := wf.find_eq_some.mp found
      refine .top (.reject asked opcode proposer current found) ?_
      have counted : { cell with inst := countReject cell.inst } ∈
          (node.modify cell.addr countReject).pax.ilist.cells :=
        (wf.mem_modify_linked mem countReject).mpr (Or.inl rfl)
      simp only
      split
      · exact .done
      · rename_i uncommitted
        split
        · exact .done
        · split
          · exact .halt (by simp)
          · rename_i part
            split
            · -- A majority claims to reach the acceptor, so we try to.
              split
              · exact .halt (by simp)
              · split
                · exact .halt (by simp)
                · exact .okOuter (.connect ⟨by simp, by simp, by simp⟩)
            · split
              · rename_i tied
                obtain ⟨lost, everyone⟩ : (countReject cell.inst).votes <
                    majority (node.modify cell.addr countReject).pax ∧
                    (countReject cell.inst).votes + (countReject cell.inst).rejects =
                      (node.modify cell.addr countReject).pax.liveCount := by simpa using tied
                have number : hdr.inum = Cell.inum { cell with inst := countReject cell.inst } :=
                  same.symm
                have act : Top start event (node.modify cell.addr countReject) _ :=
                  .rebroadcast asked opcode proposer current number counted
                    ((Bool.not_eq_true _).mp uncommitted) (not_not.mp part) lost everyone
                exact .top act .done
              · exact .done

/-- A retry follows the moves. -/
theorem proposerAckRetry_follows (asked : event = .message source ⟨hdr, body⟩)
    (opcode : hdr.opcode = .retry) (proposer : isProposer start.pax = true) :
    Follows start event start (proposerAckRetry start hdr) := by
  unfold proposerAckRetry
  -- Only a committed instance is sent again, as a recommit.
  split
  · exact .halt (by simp)
  · rename_i cell found
    split
    · rename_i committed
      exact .top (.recommit asked opcode proposer found committed) .done
    · exact .done

/-- A truncation up to a bound follows the moves. -/
theorem truncateTo_follows {node : Node} {bound : Nat} (prior : Outer start event start node)
    (truncates : start.pax.ibase ≤ bound → Truncates start.pax event bound) :
    Follows start event start
      (if bound < node.pax.ibase then node.fail .truncateForward
        else .ok ((ilistTruncatePrefix (paxosBroadcast { node with pax.ibase := bound }
          { hdr := { hdr with opcode := .truncate }, body := .paxid bound }) bound).setSync
            none)) := by
  -- A bound below the base is refused by the assertion.
  split
  · exact .outer prior (.halt (by simp))
  · rename_i forward
    -- The bound is told to everybody before the list is cut.
    have sent : Outer start event start (paxosBroadcast node
        { hdr := { hdr with opcode := .truncate }, body := .paxid bound }) :=
      prior.broadcast rfl (by trivial)
    have ibase : node.pax.ibase = start.pax.ibase := congrArg Core.ibase prior.core
    have act := Top.truncate (.of_outer sent) (truncates (by omega))
    exact .outer sent (Follows.top act (Follows.okOuter (Outer.setSync _ none)))

/-- A reply to a sync follows the moves. -/
theorem proposerAckLast_follows {last : Nat} (asked : event = .message source ⟨hdr, .paxid last⟩)
    (opcode : hdr.opcode = .last) :
    Follows start event start (proposerAckLast start hdr last) := by
  -- The reply is counted, and the last one truncates the log.
  unfold proposerAckLast
  split
  · exact .done
  · split
    · exact .halt (by simp)
    · rename_i sync running
      simp only
      split
      · -- Everybody has answered; the sync is noted, and nothing of it concerns the log.
        rename_i complete
        have noted : ∀ bound, Outer start event start
            ({ (start.setSync (some { sync with acks := sync.acks + 1 })).setSync
              (some { sync with last := bound, acks := sync.acks + 1 }) with
                pax.syncPrev := bound } : Node) :=
          fun _ => .write rfl rfl rfl rfl (fun _ => id) (fun _ => id) rfl
        exact truncateTo_follows (noted (syncBound start.pax sync last)) fun forward =>
          Or.inr ⟨source, hdr, last, sync, asked, opcode, running, complete, rfl, forward⟩
      · exact .okOuter (.setSync _ _)

/-- A redirect follows the moves. -/
theorem proposerAckRedirect_follows (fuel : Nat) (asked : event = .message source ⟨hdr, body⟩)
    (opcode : hdr.opcode = .redirect) (proposer : isProposer start.pax = true) :
    Follows start event start (proposerAckRedirect fuel start ⟨hdr, body⟩) := by
  -- The refusal is counted, and a majority of them has us connect or prepare again.
  unfold proposerAckRedirect
  split
  · exact .halt (by simp)
  · split
    · exact .done
    · rename_i prep preparing
      split
      · split
        · exact .done
        · refine .top (.redirect asked opcode proposer preparing) ?_
          simp only
          split
          · -- A majority names someone higher-ranked, whom we try to reach.
            split
            · exact .halt (by simp)
            · split
              · exact .halt (by simp)
              · exact .okOuter (.connect ⟨by simp, by simp, fun _ => rfl⟩)
          · split
            · refine proposerPrepare_follows lets_nil lets_nil (fun _ _ => .inner) false rfl id
                fun _ enough => .top ?_
              exact .rebegin (Or.inl ⟨prep, source, hdr, body, preparing, proposer, asked, opcode,
                rfl, rfl⟩) enough
            · exact .done
      · exact .halt (by simp)

/-- A kill of a sender follows the moves. -/
theorem proposerForceKill_follows (fuel : Nat) (wf : start.pax.ilist.WellFormed)
    (proposer : isProposer start.pax = true) (busy : event.greets = false) (source : PeerId) :
    Follows start event start (proposerForceKill fuel start source) := by
  unfold proposerForceKill
  -- Only a sender who is listed is parted with.
  split
  · exact .inner (proposerDecreePart_follows lets_nil
      (fun _ => paxosCommit_commits fuel (.leads proposer busy)) wf (.refl start) _ _
        (Or.inl proposer))
  · exact .done

/-- A request to the proposer follows the moves. -/
theorem proposerAckRequest_follows (fuel : Nat) {req : Request} (wf : start.pax.ilist.WellFormed)
    (asked : event = .message source ⟨hdr, .request req⟩) (opcode : hdr.opcode = .request)
    (proposer : isProposer start.pax = true) :
    Follows start event start (proposerAckRequest fuel start hdr req) := by
  -- A request from somebody who outranks us parts the one that it is about.
  have commits : Commits start event (paxosCommit fuel) := by
    refine paxosCommit_commits fuel (.leads proposer ?_)
    simp [Event.greets, asked, opcode]
  unfold proposerAckRequest
  split
  · split
    · exact .halt (by simp)
    · exact .inner (proposerDecreePart_follows lets_nil (fun _ => commits) wf (.refl start) _ _
        (Or.inl proposer))
  · rename_i rightly
    have rightly : hdr.inum ≤ start.pax.selfId := Nat.le_of_not_lt rightly
    have kept : Outer start event start (start.setRcache (requestInsert start.pax.rcache req)) :=
      (Outer.refl start).cacheRequest (.brought ⟨source, hdr, asked⟩)
    simp only
    split
    · exact .inner (decreeOrDefer_follows lets_nil (fun _ => commits) wf (.refl start) kept
        (Or.inl proposer)
        (.brought source hdr req asked opcode rightly rfl rfl rfl))
    · exact .inner (decreeOrDefer_follows lets_nil (fun _ => commits) wf (.refl start) (.refl start)
        (Or.inl proposer)
        (.brought source hdr req asked opcode rightly rfl rfl rfl))

end Proposer

section Acceptor

variable {source : PeerId} {hdr : Header} {body : Body}

/-- A redirect that we send follows the moves. -/
theorem acceptorRedirect_follows : Follows start event start
    (acceptorRedirect start source hdr) := by
  unfold acceptorRedirect
  split
  · exact .halt (by simp)
  · exact .okOuter ((Outer.refl start).emit (.send _ _ rfl (by trivial)))

/-- A prepare follows the moves. -/
theorem acceptorAckPrepare_follows (asked : event = .message source ⟨hdr, body⟩)
    (opcode : hdr.opcode = .prepare) (acceptor : isProposer start.pax = false) :
    Follows start event start (acceptorAckPrepare start source hdr) := by
  -- A ballot that is not newer is redirected, and so is one over another channel.
  unfold acceptorAckPrepare
  split
  · exact acceptorRedirect_follows
  · rename_i newer
    split
    · exact .halt (by simp)
    · rename_i acc found
      split
      · exact acceptorRedirect_follows
      · -- The promise goes to the channel that the prepare came over.
        rename_i bound
        have bound : acc.peer = some source := not_not.mp bound
        have act : Top start event start (acceptorPromise start hdr).state :=
          .promise asked opcode acceptor (not_not.mp newer) found bound
        have returned : acceptorPromise start hdr = .ok (acceptorPromise start hdr).state := by
          unfold acceptorPromise paxosSendToProposer paxosSend
          have sworn : proposerAcc ((start.setBallot hdr.ballot).setGenHigh hdr.ballot.gen).pax =
            some acc := found
          simp only [sworn, bound]
          split <;> rfl
        rw [returned]
        exact .top act .done

/-- The answer to a decree follows the moves. -/
theorem acceptorAccept_follows {mid : Node} (stores : Top start event start mid)
    (accepts : ∀ peer, Top start event start
      (mid.emit (.send peer { hdr := { hdr with opcode := .accept }, body := .empty }))) :
    Follows start event start (acceptorAccept mid hdr) := by
  unfold acceptorAccept paxosSendToProposer
  -- By whether the session knows a proposer to answer, and has a channel to it.
  split
  · exact .top stores .done
  · split
    · unfold paxosSend
      split
      · exact .top (accepts _) .done
      · exact .top stores (.halt (by simp))
    · exact .top stores (.halt (by simp))

/-- A decree that is not a part of a live acceptor follows the moves. -/
theorem acceptDecree_follows {val : Value} (asked : event = .message source ⟨hdr, .value val⟩)
    (opcode : hdr.opcode = .decree) (acceptor : isProposer start.pax = false)
    (current : hdr.ballot = start.pax.ballot) :
    Follows start event start (acceptDecree start hdr val) := by
  -- A decree that is accepted is stored first.
  have accepts : ∀ mid, Stores hdr val start mid →
      Follows start event start (acceptorAccept mid hdr) := fun mid stores =>
    acceptorAccept_follows (.store asked opcode acceptor current stores)
      fun _ => .accept asked opcode acceptor current stores
  -- The number is free, committed with the same value, or held by a lower vote.
  unfold acceptDecree
  split
  · rename_i absent
    exact accepts _ (.fresh absent)
  · rename_i cell found
    split
    · rename_i committed
      split
      · rename_i same
        obtain ⟨kind, reqid⟩ : cell.inst.val.dkind = val.dkind ∧
          cell.inst.val.reqid = val.reqid := by simpa using same
        exact accepts _ (.held found committed kind reqid)
      · exact .halt (by simp)
    · rename_i uncommitted
      split
      · rename_i rank
        exact accepts _ (.adopted found (by simpa using uncommitted) rank)
      · exact .done

/-- A decree follows the moves. -/
theorem acceptorAckDecree_follows {val : Value}
    (asked : event = .message source ⟨hdr, .value val⟩) (opcode : hdr.opcode = .decree)
    (acceptor : isProposer start.pax = false) :
    Follows start event start (acceptorAckDecree start hdr val) := by
  -- A part of somebody who is live to us is rejected, and anything else is accepted.
  unfold acceptorAckDecree
  split
  · exact .done
  · rename_i agrees
    have current : hdr.ballot = start.pax.ballot := ppairCompare_eq_eq.mp (not_not.mp agrees)
    have accepts := acceptDecree_follows asked opcode acceptor current
    split
    · exact .halt (by simp)
    · split
      · exact .halt (by simp)
      · split
        · split
          · exact .halt (by simp)
          · split
            · -- The acceptor to be parted is live to us.
              exact .inner (paxosSendToProposer_follows (.refl start) rfl (by trivial) lets_nil)
            · exact accepts
        · exact accepts

/-- A commit of a number that the list lacks follows the moves. -/
theorem commitFresh_follows (fuel : Nat) {val : Value} (wf : start.pax.ilist.WellFormed)
    (asked : event = .message source ⟨hdr, .value val⟩)
    (opcode : hdr.opcode = .commit ∨ hdr.opcode = .recommit)
    (acceptor : isProposer start.pax = false) (absent : start.pax.ilist.find hdr.inum = none) :
    Follows start event start
      (paxosCommit fuel (instanceInsertAndUpstart start (freshInstance hdr val))
        ⟨nextAddr start, freshInstance hdr val⟩) := by
  -- The instance is inserted first, and the commit goes on from there.
  have act := Top.commitFresh asked opcode acceptor absent
  have licensed : Licenses start event := .finishes asked (by tauto)
  refine .top act (.inner ((paxosCommit_commits fuel licensed).follows lets_nil
    (act.wellFormed wf) (act.scripted (.refl start)) ?_ (Or.inl rfl)))
  rw [instanceInsertAndUpstart_ilist]
  exact (wf.mem_insert (wf.find_eq_none.mp absent)).mpr (Or.inl rfl)

/-- A commit follows the moves. -/
theorem acceptorAckCommit_follows (fuel : Nat) {val : Value} (wf : start.pax.ilist.WellFormed)
    (asked : event = .message source ⟨hdr, .value val⟩) (opcode : hdr.opcode = .commit)
    (acceptor : isProposer start.pax = false) :
    Follows start event start (acceptorAckCommit fuel start hdr val) := by
  -- An instance that is there and open is committed over.
  unfold acceptorAckCommit
  split
  · rename_i absent
    exact commitFresh_follows fuel wf asked (Or.inl opcode) acceptor absent
  · rename_i cell found
    split
    · exact .done
    · rename_i uncommitted
      have uncommitted : cell.inst.committed = false := by simpa using uncommitted
      have act := Top.commitOver asked opcode acceptor found uncommitted
      obtain ⟨mem, -⟩ := wf.find_eq_some.mp found
      have licensed : Licenses start event := .finishes asked (by tauto)
      exact .top act (.inner ((paxosCommit_commits fuel licensed).follows lets_nil
        (act.wellFormed wf) (.refl start) ((wf.mem_modify_linked mem _).mpr (Or.inl rfl))
        (Or.inl uncommitted)))

/-- A recommit follows the moves. -/
theorem acceptorAckRecommit_follows (fuel : Nat) {val : Value} (wf : start.pax.ilist.WellFormed)
    (asked : event = .message source ⟨hdr, .value val⟩) (opcode : hdr.opcode = .recommit)
    (acceptor : isProposer start.pax = false) :
    Follows start event start (acceptorAckRecommit fuel start hdr val) := by
  -- An instance that is there and open is committed over.
  unfold acceptorAckRecommit
  split
  · rename_i absent
    exact commitFresh_follows fuel wf asked (Or.inr opcode) acceptor absent
  · rename_i cell found
    split
    · exact .done
    · rename_i uncommitted
      have uncommitted : cell.inst.committed = false := by simpa using uncommitted
      have act := Top.recommitOver asked opcode acceptor found uncommitted
      obtain ⟨mem, -⟩ := wf.find_eq_some.mp found
      have licensed : Licenses start event := .finishes asked (by tauto)
      exact .top act (.inner ((paxosCommit_commits fuel licensed).follows lets_nil
        (act.wellFormed wf) (.refl start) ((wf.mem_modify_linked mem _).mpr (Or.inl rfl))
        (Or.inl uncommitted)))

/-- A request to an acceptor follows the moves. -/
theorem acceptorAckRequest_follows {req : Request}
    (asked : event = .message source ⟨hdr, .request req⟩) :
    Follows start event start (acceptorAckRequest start source hdr req) := by
  -- The request is cached whether it is refused or not.
  have kept : Outer start event start (start.setRcache (requestInsert start.pax.rcache req)) :=
    (Outer.refl start).cacheRequest (.brought ⟨source, hdr, asked⟩)
  unfold acceptorAckRequest
  simp only
  split
  · unfold acceptorRefuse
    split
    · exact .outer kept (.halt (by simp))
    · exact .okOuter (kept.emit (.send _ _ rfl ⟨req.data, source, hdr, asked⟩))
  · exact .okOuter kept

/-- A refuse follows the moves. -/
theorem acceptorAckRefuse_follows (asked : event = .message source ⟨hdr, body⟩) :
    Follows start event start (acceptorAckRefuse start ⟨hdr, body⟩) := by
  -- A refuse of somebody else's prepare has us connect to whom it names.
  unfold acceptorAckRefuse
  split
  · exact .halt (by simp)
  · split
    · exact .done
    · split
      · exact .halt (by simp)
      · split
        · exact .halt (by simp)
        · split
          · rename_i orig val packed
            refine .okOuter (.connect ⟨?_, by simp, by simp⟩)
            rintro other ⟨⟩
            exact ⟨source, hdr, orig, by rw [asked]; exact packed ▸ rfl⟩
          · exact .halt (by simp)

/-- A truncation on the proposer's command follows the moves. -/
theorem acceptorAckTruncate_follows {ibase : Nat}
    (asked : event = .message source ⟨hdr, .paxid ibase⟩) (opcode : hdr.opcode = .truncate)
    (acceptor : isProposer start.pax = false) :
    Follows start event start (acceptorAckTruncate start ibase) :=
  .top (.truncate (.refl start) (Or.inl ⟨source, hdr, asked, opcode, acceptor⟩)) .done

/-- A sync follows the moves. -/
theorem acceptorAckSync_follows : Follows start event start (acceptorAckSync start hdr) := by
  unfold acceptorAckSync
  split
  · exact .inner (paxosSendToProposer_follows (.refl start) rfl (by trivial) lets_nil)
  · exact .done

end Acceptor

end Motmot
