import Motmot.Proofs.Paxos.Roster
import Motmot.System.Schedule

/-! A prepared proposer stays the proposer, as long as no late redirect is resolved against it. -/

namespace Motmot

variable {start : Node} {event : Event}

/-- An event that leaves a prepared proposer in office from some state of its handler on. -/
structure Holds (start : Node) (event : Event) : Prop where
  proposer : isProposer start.pax = true
  redirected : ∀ source hdr body, event = .message source ⟨hdr, body⟩ → hdr.opcode = .redirect →
    start.pax.prep = none
  greeted : ∀ source hdr body, event = .message source ⟨hdr, body⟩ → hdr.opcode = .hello →
    start.pax.prep = none
  resolved : ∀ acc chan, Continues start.pax event .ackRedirect acc chan →
    ¬ (acc.peer = none ∧ acc.paxid < start.pax.selfId)
  refused : ∀ val acc peer, Continues start.pax event (.ackRefuse val) acc (some peer) →
    start.pax.prep = none

/-- A hello under our own name sets the ballot of a proposer. -/
def Impersonates (pax : Session) (event : Event) (ballot : Ballot) : Prop :=
  ∃ source hdr body, event = .message source ⟨hdr, body⟩ ∧ hdr.opcode = .hello ∧
    hdr.inum = pax.selfId ∧ hdr.ballot = ballot

/-- The office and the ballot are told by the polity, the prepare and the ballot. -/
theorem Prepared.same {pax next : Session} (prepared : Prepared pax)
    (polity : next.polity = pax.polity) (prep : next.prep = pax.prep) : Prepared next := by
  -- The polity has both the name and the proposer.
  have self : next.selfId = pax.selfId := congrArg Polity.selfId polity
  have proposer : next.proposer = pax.proposer := congrArg Polity.proposer polity
  obtain ⟨leads, idle⟩ := prepared
  refine ⟨?_, prep.trans idle⟩
  unfold isProposer at *
  rw [proposer, self]
  exact leads

@[simp] theorem instanceInsertAndUpstart_prep (node : Node) (inst : Instance) :
    (instanceInsertAndUpstart node inst).pax.prep = node.pax.prep := by
  obtain ⟨_, _, same⟩ := instanceInsertAndUpstart_eq node inst
  rw [same]

@[simp] theorem instanceInsertAndUpstart_ballot (node : Node) (inst : Instance) :
    (instanceInsertAndUpstart node inst).pax.ballot = node.pax.ballot := by
  obtain ⟨_, _, same⟩ := instanceInsertAndUpstart_eq node inst
  rw [same]

/-- Moves from within a learn change neither the prepare nor the ballot. -/
theorem Nest.office {node next : Node} (act : Nest start event node next) :
    next.pax.prep = node.pax.prep ∧ next.pax.ballot = node.pax.ballot := by
  -- All of it is in the core, which only a decree reaches past.
  cases act with
  | outer outer => exact ⟨congrArg Core.prep outer.core, congrArg Core.ballot outer.core⟩
  | defer prior => exact ⟨congrArg Core.prep prior.core, congrArg Core.ballot prior.core⟩
  | @decree mid inst prior =>
    exact ⟨(instanceInsertAndUpstart_prep mid _).trans (congrArg Core.prep prior.core),
      (instanceInsertAndUpstart_ballot mid _).trans (congrArg Core.ballot prior.core)⟩
  | announce => exact ⟨rfl, rfl⟩
  | commit => exact ⟨rfl, rfl⟩
  | cache => exact ⟨rfl, rfl⟩
  | aim => exact ⟨rfl, rfl⟩
  | prepare => exact ⟨rfl, rfl⟩

/-- Moves of the handler itself leave a prepared proposer in office. -/
theorem Top.prepared {node next : Node} (act : Top start event node next)
    (holds : Holds start event) (prepared : Prepared node.pax) :
    Prepared next.pax ∧
      (next.pax.ballot = node.pax.ballot ∨ Impersonates start.pax event next.pax.ballot) := by
  -- The proposer has no prepare, so what asks for one does not happen.
  obtain ⟨leads, idle⟩ := prepared
  have preparing : ∀ {prep}, node.pax.prep ≠ some prep := by simp [idle]
  cases act with
  | beside prior =>
    exact ⟨.congr prior.core ⟨leads, idle⟩, Or.inl (congrArg Core.ballot prior.core)⟩
  | depose _ _ _ lost =>
    -- Only an acceptor loses a proposer.
    obtain ⟨_, _, _, _, acceptor, _⟩ := lost
    rw [holds.proposer] at acceptor
    contradiction
  -- An acceptor's moves are not a proposer's.
  | promise _ _ acceptor =>
    rw [holds.proposer] at acceptor
    contradiction
  | store _ _ acceptor =>
    rw [holds.proposer] at acceptor
    contradiction
  | accept _ _ acceptor =>
    rw [holds.proposer] at acceptor
    contradiction
  | commitFresh _ _ acceptor =>
    rw [holds.proposer] at acceptor
    contradiction
  | commitOver => exact ⟨⟨leads, idle⟩, Or.inl rfl⟩
  | recommitOver => exact ⟨⟨leads, idle⟩, Or.inl rfl⟩
  | vote => exact ⟨⟨leads, idle⟩, Or.inl rfl⟩
  | reject => exact ⟨⟨leads, idle⟩, Or.inl rfl⟩
  | rebroadcast => exact ⟨⟨leads, idle⟩, Or.inl rfl⟩
  | rewrite => exact ⟨⟨leads, idle⟩, Or.inl rfl⟩
  | merge _ _ _ begun => exact absurd begun preparing
  | ack _ _ _ begun => exact absurd begun preparing
  | win _ _ _ begun => exact absurd begun preparing
  | fill _ begun => exact absurd begun preparing
  | redecree _ begun => exact absurd begun preparing
  | settle _ begun => exact absurd begun preparing
  | @undefer node inst rest =>
    have same := announceDecree_polity (node.setIdefer rest) inst
    have prep := instanceInsertAndUpstart_prep (node.setIdefer rest) (decreeOf node.pax inst)
    have ballot := instanceInsertAndUpstart_ballot (node.setIdefer rest) (decreeOf node.pax inst)
    exact ⟨Prepared.same ⟨leads, idle⟩ same prep, Or.inl ballot⟩
  | redirect _ _ _ begun => exact absurd begun preparing
  | rebegin reason =>
    -- A new prepare is begun at a redirect, which the session is spared, or in place of a proposer
    -- lost.
    rcases reason with ⟨_, _, _, _, begun, _, asked, opcode, _⟩ |
      ⟨_, acc, continues, lost, higher⟩
    · rw [holds.redirected _ _ _ asked opcode] at begun
      contradiction
    · exact absurd ⟨lost, higher⟩ (holds.resolved _ _ continues)
  | yieldRedirect _ continues lost higher =>
    exact absurd ⟨lost, higher⟩ (holds.resolved _ _ continues)
  | yieldRefuse _ continues unprepared =>
    rw [holds.proposer, holds.refused _ _ _ continues] at unprepared
    simp at unprepared
  | helloYield _ asked opcode heeded _ _ current higher =>
    -- The hello of somebody higher-ranked is not heeded by a prepared proposer.
    have own : start.pax.proposer = some start.pax.selfId := by
      simpa [isProposer] using holds.proposer
    obtain rfl := Option.some.inj (own.symm.trans current)
    exact absurd ⟨holds.proposer, holds.greeted _ _ _ asked opcode, higher⟩ heeded
  | helloBallot _ asked opcode _ _ current =>
    have own : start.pax.proposer = some start.pax.selfId := by
      simpa [isProposer] using holds.proposer
    have named := Option.some.inj (current.symm.trans own)
    exact ⟨⟨leads, idle⟩, Or.inr ⟨_, _, _, asked, opcode, named, rfl⟩⟩
  | truncate => exact ⟨⟨leads, idle⟩, Or.inl rfl⟩
  | recommit => exact ⟨⟨leads, idle⟩, Or.inl rfl⟩
  | welcome => exact ⟨⟨leads, idle⟩, Or.inl rfl⟩

/-- Every move leaves a prepared proposer in office. -/
theorem Move.prepared {config after : Config} (move : Move start event config after)
    (holds : Holds start event) (prepared : Prepared config.node.pax) :
    Prepared after.node.pax ∧ (after.node.pax.ballot = config.node.pax.ballot ∨
      Impersonates start.pax event after.node.pax.ballot) := by
  -- The learning loop writes neither the proposer nor the prepare, except where somebody parts.
  cases move with
  | top act => exact act.prepared holds prepared
  | inner move =>
    cases move with
    | nest _ act => exact ⟨prepared.same act.polity act.office.1, Or.inl act.office.2⟩
    | enter => exact ⟨prepared, Or.inl rfl⟩
    | @learn node _ addr inst =>
      have core := learnt_core node addr inst (learnRequest node.pax inst.val)
      have self : (learnt node addr inst _).pax.selfId = node.pax.selfId :=
        congrArg Core.selfId core
      have proposer : (learnt node addr inst _).pax.proposer = node.pax.proposer :=
        congrArg Core.proposer core
      refine ⟨⟨?_, (congrArg Core.prep core).trans prepared.2⟩, Or.inl (congrArg Core.ballot core)⟩
      rw [isProposer, proposer, self]
      exact prepared.1
    | @delist node _ _ paxid =>
      exact ⟨.congr (delist_core _ _) prepared, Or.inl (congrArg Core.ballot (delist_core _ _))⟩
    | @depose node _ _ paxid _ other led =>
      -- A proposer is not the one who parts.
      have leads := prepared.1
      simp only [isProposer, led] at leads
      simp at leads
      exact absurd leads other
    | next => exact ⟨prepared, Or.inl rfl⟩
    | last => exact ⟨prepared, Or.inl rfl⟩
    | gap => exact ⟨prepared, Or.inl rfl⟩
    | rest => exact ⟨prepared, Or.inl rfl⟩

/--
Events that resolve no redirect against a prepared proposer, and do not greet it under its own name.

A redirect continuation runs long after the redirect, whatever has become of the prepare.
-/
structure Tenured (pax : Session) (event : Event) : Prop where
  resolved : Prepared pax → ∀ acc chan, Continues pax event .ackRedirect acc chan →
    ¬ (acc.peer = none ∧ acc.paxid < pax.selfId)
  greeted : Prepared pax → ∀ ballot, Impersonates pax event ballot → ballot = pax.ballot

/-- A prepared proposer that handles a tenured event stays in office under its ballot. -/
theorem Handles.prepared {node next : Node} (handles : Handles node event (.ok next))
    (tenured : Tenured node.pax event) (wf : node.pax.ilist.WellFormed)
    (prepared : Prepared node.pax) : Prepared next.pax ∧ next.pax.ballot = node.pax.ballot := by
  -- What a prepared proposer holds through one move it holds through all of them.
  refine (@Handles.invariant _ _ _ (fun config => Prepared config.node.pax ∧
    config.node.pax.ballot = node.pax.ballot) handles wf (fun _ => ⟨prepared, rfl⟩) ?_).1 next rfl
  rintro script config after move - ⟨holding, ballot⟩
  obtain ⟨held, kept⟩ := @Move.prepared { node with script := script } event config after move
    { proposer := prepared.1
      redirected := fun _ _ _ _ _ => prepared.2
      greeted := fun _ _ _ _ _ => prepared.2
      resolved := tenured.resolved prepared
      refused := fun _ _ _ _ => prepared.2 } holding
  -- Only a hello in the name of the proposer could change the ballot.
  refine ⟨held, ?_⟩
  rcases kept with same | impersonates
  · exact same.trans ballot
  · exact tenured.greeted prepared _ impersonates

/-- A prepare that a majority has acknowledged ends with its proposer in office. -/
theorem finishPrepare_prepared {fuel : Nat} {node next : Node} {prep : Prep}
    (wf : node.pax.ilist.WellFormed) (scripted : Scripted start node)
    (leads : isProposer node.pax = true) (preparing : node.pax.prep = some prep)
    (holds : Holds start event)
    (completes : ∃ prep, Completes start.pax event prep)
    (quiet : ∀ ballot, ¬ Impersonates start.pax event ballot)
    (finished : finishPrepare fuel node prep = .ok next) :
    Prepared next.pax ∧ next.pax.ballot = prep.ballot := by
  -- Both loops at the end of a prepare are made of moves, along which the invariants are known.
  unfold finishPrepare at finished
  simp only at finished
  split at finished
  · contradiction
  · rename_i cursor cached
    obtain ⟨last, redecreed, deferred⟩ := Outcome.andThen_eq_ok.mp finished
    have won : Winning prep (node.setBallot prep.ballot).pax := ⟨leads, preparing, rfl⟩
    have wfWon : (node.setBallot prep.ballot).pax.ilist.WellFormed := wf
    obtain ⟨path, wins⟩ : Follows start event (node.setBallot prep.ballot)
        (redecree fuel (node.setBallot prep.ballot) cursor node.pax.ihole) ∧ _ :=
      redecree_follows fuel wfWon won (.cached cached) (Nat.le_refl _) completes
    have redecreed : redecree fuel (node.setBallot prep.ballot) cursor node.pax.ihole = .ok last :=
      redecreed
    rw [redecreed] at path
    have winning := wins last redecreed
    have wfLast : last.pax.ilist.WellFormed := move_wellFormed path wf
    have office : Prepared (last.setPrep none).pax := ⟨winning.1, rfl⟩
    -- What was deferred is decreed by a prepared proposer.
    have follows : Follows start event (last.setPrep none) _ :=
      decreeDeferred_follows fuel fuel wfLast (move_scripted path scripted) office completes
    rw [deferred] at follows
    refine @moves_invariant start event (fun config => Prepared config.node.pax ∧
      config.node.pax.ballot = prep.ballot) ?_ _ _ follows wfLast ⟨office, winning.2.2⟩
    rintro config after move - ⟨holding, ballot⟩
    -- The rest of the handler is a run of moves by a proposer that is prepared.
    obtain ⟨held, kept⟩ := move.prepared holds holding
    refine ⟨held, ?_⟩
    rcases kept with same | impersonates
    · exact same.trans ballot
    · exact absurd impersonates (quiet _)

/-- The handler of a promise that completes a prepare merges its votes and ends the prepare. -/
theorem Handles.wins {node next : Node} {prep : Prep} (handles : Handles node event (.ok next))
    (completes : Completes node.pax event prep) (wf : node.pax.ilist.WellFormed) :
    ∃ fuel script votes mid, Merges { node with script := script } votes mid ∧
      finishPrepare fuel (mid.setPrep (some { prep with acks := prep.acks + 1 }))
        { prep with acks := prep.acks + 1 } = .ok next := by
  -- The promise is for the prepare that runs, and computes down to the merge of its votes.
  obtain ⟨proposer, preparing, source, ⟨session, ballot, _, inum⟩, body, rfl, rfl, rfl,
    enough⟩ := completes
  obtain ⟨fuel, script, handled⟩ := handles
  have handled : proposerAckPromise fuel { node with script := script }
      ⟨⟨session, prep.ballot, .promise, inum⟩, body⟩ = .ok next := by
    simpa only [handle, paxosDispatch, proposer, if_true, proposerDispatch] using handled
  have same : ballotCompare prep.ballot prep.ballot = .eq := ppairCompare_eq_eq.mpr rfl
  unfold proposerAckPromise at handled
  simp only [preparing, same, ne_eq, not_true_eq_false, if_false] at handled
  split at handled
  · rename_i count votes _
    split at handled
    · contradiction
    · obtain ⟨mid, merged, handled⟩ := Outcome.andThen_eq_ok.mp handled
      have wf : ({ node with script := script } : Node).pax.ilist.WellFormed := wf
      have merges := mergePromise_merges prep.istart votes wf
      rw [merged] at merges
      have merges : Merges { node with script := script } votes mid := merges
      obtain ⟨ilist, istart, same⟩ := merges.eq
      have quorum : majority mid.pax = majority node.pax := by rw [same]; rfl
      split at handled
      · -- The votes merged change nothing about the majority.
        rename_i few
        have few : prep.acks + 1 < majority mid.pax := few
        omega
      · exact ⟨fuel, script, votes, mid, merges, handled⟩
  · contradiction

/-- A promise that completes a prepare leaves a prepared proposer under its ballot. -/
theorem Handles.completes {node next : Node} {prep : Prep}
    (handles : Handles node event (.ok next)) (completes : Completes node.pax event prep)
    (wf : node.pax.ilist.WellFormed) : Prepared next.pax ∧ next.pax.ballot = prep.ballot := by
  -- The promise is no redirect and no hello, so whatever could unseat the proposer is not at hand.
  obtain ⟨fuel, script, votes, mid, merges, finished⟩ := handles.wins completes wf
  obtain ⟨proposer, preparing, source, hdr, body, rfl, opcode, ballot, enough⟩ := completes
  have quiet : ∀ ballot, ¬ Impersonates node.pax (.message source ⟨hdr, body⟩) ballot := by
    rintro _ ⟨_, _, _, asked, hello, -⟩
    cases asked
    rw [opcode] at hello
    contradiction
  have holds : Holds { node with script := script } (.message source ⟨hdr, body⟩) := by
    refine ⟨proposer, ?_, ?_, ?_, ?_⟩
    · rintro _ _ _ asked redirect
      cases asked
      rw [opcode] at redirect
      contradiction
    · rintro _ _ _ asked hello
      cases asked
      rw [opcode] at hello
      contradiction
    · rintro _ _ ⟨_, _, completed, -⟩
      contradiction
    · rintro _ _ _ ⟨_, _, completed, -⟩
      contradiction
  have wf : ({ node with script := script } : Node).pax.ilist.WellFormed := wf
  have wfMid : mid.pax.ilist.WellFormed := merges.wellFormed wf
  obtain ⟨ilist, istart, same⟩ := merges.eq
  have leads : isProposer mid.pax = true := by rw [same]; exact proposer
  have wfAcked : (mid.setPrep (some { prep with acks := prep.acks + 1 })).pax.ilist.WellFormed :=
    wfMid
  have ended : Prepared next.pax ∧
      next.pax.ballot = ({ prep with acks := prep.acks + 1 } : Prep).ballot :=
    finishPrepare_prepared wfAcked (by rw [same]; exact .refl _) leads rfl holds
      ⟨prep, proposer, preparing, _, _, _, rfl, opcode, ballot, enough⟩ quiet finished
  exact ended

/--
A prepared proposer stays the proposer, with no prepare running and under the same ballot, in a run
that resolves no redirect against it.

A session that was started has one, and so has one whose prepare a majority has acknowledged.
-/
theorem proposer_tenured {begun node : Node} {first : Nat}
    (begins : Begins (fun _ => True) begun first) (run : Runs (fun _ _ => True) begun node) :
    (∀ session desc, Prepared (paxosStart session desc).pax) ∧
      (∀ {event next prep}, Completes node.pax event prep → Handles node event (.ok next) →
        Prepared next.pax ∧ next.pax.ballot = prep.ballot) ∧
      (Prepared node.pax → ∀ later, Runs Tenured node later →
        Prepared later.pax ∧ later.pax.ballot = node.pax.ballot) := by
  -- The log is well formed at whatever point the tenure begins.
  have wf : node.pax.ilist.WellFormed :=
    @Runs.invariant _ _ _ (fun node => node.pax.ilist.WellFormed) run begins.wellFormed
      fun _ handles wf => handles.wellFormed wf
  refine ⟨fun _ _ => ⟨rfl, rfl⟩, fun completes handles => handles.completes completes wf, ?_⟩
  intro prepared later more
  have kept : later.pax.ilist.WellFormed ∧ Prepared later.pax ∧
      later.pax.ballot = node.pax.ballot := by
    refine @Runs.invariant _ _ _ (fun later => later.pax.ilist.WellFormed ∧
      Prepared later.pax ∧ later.pax.ballot = node.pax.ballot) more ⟨wf, prepared, rfl⟩ ?_
    rintro mid event next tenured handles ⟨wf, prepared, ballot⟩
    obtain ⟨held, kept⟩ := handles.prepared tenured wf prepared
    exact ⟨handles.wellFormed wf, held, kept.trans ballot⟩
  exact kept.2

/-- A proposer loses its office to connections that are made, and to hellos. -/
theorem Tenured.quiet {pax : Session} {event : Event}
    (apart : ∀ handle chan, event ≠ .connected handle chan)
    (quiet : ∀ source hdr body, event = .message source ⟨hdr, body⟩ → hdr.opcode ≠ .hello) :
    Tenured pax event where
  -- A continuation comes with a connection that is made.
  resolved := by
    rintro _ _ _ ⟨handle, _, completed, -⟩
    exact absurd completed (apart handle _)
  -- A greeting comes with a hello.
  greeted := by
    rintro _ _ ⟨source, hdr, body, asked, opcode, -⟩
    exact absurd opcode (quiet source hdr body asked)

/-- The promise of the third makes the second the proposer, and it stays so as it commits. -/
theorem proposer_tenured_successor :
    ¬ Prepared successor.preparing.pax ∧ Prepared successor.leading.pax ∧
      Prepared successor.remaining.pax ∧ successor.remaining.pax.ballot = ⟨2, 2⟩ := by
  -- The newcomer connects, loses its proposer and prepares.
  have begins : Begins (fun _ => True) successor.node _ := .welcome successor trivial
  have prepares : Runs (fun _ _ => True) successor.node successor.preparing :=
    (Runs.refl.step trivial successor.connects).step trivial successor.loses
  have completes : Completes successor.preparing.pax successor.promise
      { ballot := ⟨2, 2⟩, acks := 1, redirects := 0, istart := some 2 } :=
    ⟨by decide +kernel, by decide +kernel, 3, _, _, rfl, rfl, rfl, by decide +kernel⟩
  -- The prepare ends with the promise, which is where the tenure begins.
  obtain ⟨prepared, ballot⟩ :=
    (proposer_tenured begins prepares).2.1 completes successor.wins
  -- Accepts and resends are neither hellos nor continuations of a redirect.
  have accepted : ∀ pax inum, Tenured pax (successor.accept inum) := fun _ _ =>
    .quiet (by simp [successor.accept]) (by simp [successor.accept])
  have resent : ∀ pax, Tenured pax successor.resend := fun _ =>
    .quiet (by simp [successor.resend]) (by simp [successor.resend])
  have tenured : Runs Tenured successor.leading successor.remaining :=
    (((Runs.refl.step (accepted _ 5) successor.commits).step (resent _) successor.caches).step
      (accepted _ 4) successor.learns).step (accepted _ 6) successor.settles
  obtain ⟨kept, same⟩ := (proposer_tenured begins
    (prepares.step trivial successor.wins)).2.2 prepared successor.remaining tenured
  -- Before the promise the prepare is still running.
  refine ⟨fun early => ?_, prepared, kept, same.trans ballot⟩
  exact absurd early.2 (by decide +kernel)

/--
A redirect counts the dead,
so a prepare may be redirected by a majority and still be completed by one.

The connection attempt that the redirect began then demotes a prepared proposer.
-/
theorem proposer_demoted : ∃ sys, System.Reachable sys ∧
    ∃ next ∈ sys.step System.quiet (.complete 0 true),
      ∃ node ∈ (sys.process [2]).node, ∃ after ∈ (next.process [2]).node,
        isProposer node.pax = true ∧ node.pax.prep = none ∧ node.pax.ballot = ⟨2, 2⟩ ∧
          isProposer after.pax = false :=
  System.exists_played
    (System.assemble [[1], [2], [3], [4], [5]] ++
      -- All but the fourth node lose the first, and the second one prepares.
      [.steps [.cut 0, .cut 1, .cut 6, .eof 0 true, .eof 1 true, .eof 6 true],
        -- The third promises and drops, the fourth redirects, and the fifth promises.
        .steps [.deliver 2 false, .deliver 2 true, .cut 2, .eof 2 true, .deliver 4 false,
          .deliver 4 true, .deliver 7 false, .deliver 7 true]])
    (by decide +kernel)

end Motmot
