import Motmot.Proofs.Paxos.Tenure

/-! What is deferred belongs to the bid that runs, unless a hello ends one that has deferred. -/

namespace Motmot

variable {start : Node} {event : Event}

/-- Nothing is deferred unless a prepare runs. -/
def Session.Tidy (pax : Session) : Prop := pax.prep = none → pax.idefer = []

/-- A hello of somebody who outranks us and had no channel, while we prepare and have deferred. -/
structure Strands (pax : Session) (event : Event) : Prop where
  preparing : pax.prep.isSome = true
  leads : isProposer pax = true
  deferred : pax.idefer ≠ []
  greeted : ∃ source hdr body acc, event = .message source ⟨hdr, body⟩ ∧ hdr.opcode = .hello ∧
    acceptorFind pax.alist hdr.inum = some acc ∧ acc.peer = none ∧ hdr.inum < pax.selfId

/-- A core determines whether its session is tidy. -/
theorem Session.Tidy.congr {pax next : Session} (core : next.core = pax.core) (tidy : pax.Tidy) :
    next.Tidy := by
  have prep : next.prep = pax.prep := congrArg Core.prep core
  have idefer : next.idefer = pax.idefer := congrArg Core.idefer core
  unfold Session.Tidy
  rw [prep, idefer]
  exact tidy

/-- A replacement either leaves what is deferred as it was, or begins a prepare. -/
theorem Replaces.tidy {node next : Node} (replaces : Replaces node next) (tidy : node.pax.Tidy) :
    next.pax.Tidy := by
  -- Whoever elects another runs no prepare, and whoever begins one may defer.
  cases replaces with
  | elect =>
    obtain ⟨_, same⟩ := resetProposer_eq node
    rw [same]
    exact tidy
  | begin =>
    intro idle
    contradiction

/-- What is deferred in a learn is deferred by a prepare. -/
theorem Nest.tidy {node next : Node} (act : Nest start event node next)
    (tidy : node.pax.Tidy) : next.pax.Tidy := by
  -- A request is deferred only while a prepare runs.
  cases act with
  | outer outer => exact tidy.congr outer.core
  | defer _ preparing =>
    intro idle
    rw [Option.isSome_iff_ne_none] at preparing
    exact absurd idle preparing
  | @decree mid inst prior =>
    have tidy : mid.pax.Tidy := tidy.congr prior.core
    obtain ⟨_, _, same⟩ := instanceInsertAndUpstart_eq mid (decreeOf mid.pax inst)
    unfold announceDecree paxosBroadcastInstance
    rw [same]
    exact tidy
  | announce => exact tidy
  | commit => exact tidy
  | cache => exact tidy
  | aim => exact tidy
  | prepare => exact tidy

/-- The handler of an event that neither completes a prepare nor strands one stays tidy. -/
theorem Top.tidy {node next : Node} (act : Top start event node next)
    (spares : ¬ Strands start.pax event) (runs : ∀ prep, ¬ Completes start.pax event prep)
    (tidy : node.pax.Tidy) : next.pax.Tidy := by
  -- A prepare that runs excuses what is deferred; whatever ends one is looked at.
  cases act with
  | beside prior => exact tidy.congr prior.core
  | depose closed prior _ _ replaces =>
    have back : start.pax.Tidy := tidy.congr closed.core.symm
    exact replaces.tidy (back.congr prior.core)
  | promise =>
    rw [acceptorPromise_pax]
    exact tidy
  | store _ _ _ _ stores =>
    obtain ⟨_, _, same⟩ := stores.eq
    rw [same]
    exact tidy
  | accept _ _ _ _ stores =>
    obtain ⟨_, _, same⟩ := stores.eq
    rw [same]
    exact tidy
  | @commitFresh _ hdr val =>
    obtain ⟨_, _, same⟩ := instanceInsertAndUpstart_eq start (freshInstance hdr val)
    rw [same]
    exact tidy
  | merge _ _ _ _ _ _ merges =>
    obtain ⟨_, _, same⟩ := merges.eq
    rw [same]
    exact tidy
  | ack =>
    intro idle
    contradiction
  | fill _ _ _ _ _ _ _ _ completes => exact absurd completes.choose_spec (runs _)
  | redecree _ _ _ _ _ _ completes => exact absurd completes.choose_spec (runs _)
  | settle _ _ _ completes => exact absurd completes.choose_spec (runs _)
  | undefer _ _ _ completes => exact absurd completes.choose_spec (runs _)
  | redirect =>
    intro idle
    contradiction
  | rebegin =>
    intro idle
    contradiction
  -- A bid that is given up to somebody takes what it deferred along.
  | @yieldRedirect mid acc =>
    obtain ⟨_, same⟩ := yieldTo_writes mid acc
    rw [same]
    exact fun _ => rfl
  | @yieldRefuse mid _ acc =>
    obtain ⟨_, same⟩ := yieldTo_writes mid acc
    rw [same]
    exact fun _ => rfl
  | @helloYield mid source hdr body acc proposer prior asked opcode heeded found lost current
      higher =>
    have core : mid.pax.core = start.pax.core := prior.core
    have kept : mid.pax.Tidy := tidy.congr core
    by_cases leads : isProposer mid.pax = true
    · -- A hello ends the bid of a proposer, and only the one that defers nothing stays tidy.
      have leading : isProposer start.pax = true := (isProposer_congr core).symm.trans leads
      have own : start.pax.proposer = some start.pax.selfId := by
        simpa [isProposer] using leading
      obtain rfl := Option.some.inj (own.symm.trans current)
      have preparing : start.pax.prep.isSome = true := by
        cases idle : start.pax.prep with
        | none => exact absurd ⟨leading, idle, higher⟩ heeded
        | some prep => rfl
      have empty : start.pax.idefer = [] := by
        by_contra deferred
        exact spares ⟨preparing, leading, deferred, source, hdr, body, acc, asked, opcode, found,
          lost, higher⟩
      rw [if_pos leads]
      intro _
      exact (congrArg Core.idefer core).trans empty
    · rw [if_neg leads]
      exact kept
  | _ => exact tidy

/-- Every move of such a handler stays tidy. -/
theorem Move.tidy {config after : Config} (move : Move start event config after)
    (spares : ¬ Strands start.pax event) (runs : ∀ prep, ¬ Completes start.pax event prep)
    (tidy : config.node.pax.Tidy) : after.node.pax.Tidy := by
  -- A learn leaves the prepare and what is deferred, and a deposition empties the list.
  cases move with
  | top act => exact act.tidy spares runs tidy
  | inner move =>
    cases move with
    | nest _ act => exact act.tidy tidy
    | @learn node _ addr inst =>
      have core := learnt_core node addr inst (learnRequest node.pax inst.val)
      intro idle
      have prep : (learnt node addr inst _).pax.prep = node.pax.prep := congrArg Core.prep core
      exact (congrArg Core.idefer core).trans (tidy (prep.symm.trans idle))
    | @delist node _ _ paxid => exact tidy.congr (delist_core node paxid)
    | @depose node _ _ paxid _ _ _ replaces =>
      exact replaces.tidy (tidy.congr (delist_core node paxid))
    | _ => exact tidy

/-- All that was deferred is decreed before the loop over it returns. -/
theorem decreeDeferred_empties {commit : Commit} {fuel : Nat} {node next : Node}
    (returned : decreeDeferred commit fuel node = .ok next) : next.pax.idefer = [] := by
  -- By induction on the rounds of the loop, which ends on the empty list only.
  induction fuel generalizing node with
  | zero => contradiction
  | succ fuel ih =>
    unfold decreeDeferred at returned
    split at returned
    · rename_i empty
      cases returned
      exact empty
    · obtain ⟨mid, -, returned⟩ := Outcome.andThen_eq_ok.mp returned
      exact ih returned

/-- A prepare that a majority has acknowledged ends with nothing deferred. -/
theorem finishPrepare_empties {fuel : Nat} {node next : Node} {prep : Prep}
    (finished : finishPrepare fuel node prep = .ok next) : next.pax.idefer = [] := by
  unfold finishPrepare at finished
  simp only at finished
  -- The redecrees come first, and what they defer is decreed by the second loop.
  split at finished
  · contradiction
  · obtain ⟨mid, -, deferred⟩ := Outcome.andThen_eq_ok.mp finished
    exact decreeDeferred_empties deferred

/-- A handler leaves nothing deferred without a prepare, unless its event strands a bid. -/
theorem Handles.tidy {node next : Node} (handles : Handles node event (.ok next))
    (spares : ¬ Strands node.pax event) (wf : node.pax.ilist.WellFormed)
    (tidy : node.pax.Tidy) : next.pax.Tidy := by
  -- A prepare that completes empties the list itself; otherwise no move strands a bid.
  by_cases won : ∃ prep, Completes node.pax event prep
  · obtain ⟨prep, completes⟩ := won
    obtain ⟨fuel, _, _, mid, _, finished⟩ := handles.wins completes wf
    exact fun _ => finishPrepare_empties finished
  · have runs : ∀ prep, ¬ Completes node.pax event prep := fun prep completes =>
      won ⟨prep, completes⟩
    refine (@Handles.invariant _ _ _ (fun config => config.node.pax.Tidy) handles wf
      (fun _ => tidy) ?_).1 next rfl
    intro script config after move _ tidy
    exact @Move.tidy { node with script := script } event config after move spares runs tidy

/-- A hello that strands a bid leaves what it deferred, with no prepare running. -/
theorem Handles.strands {node next : Node} (handles : Handles node event (.ok next))
    (strands : Strands node.pax event) : next.pax.prep = none ∧ next.pax.idefer ≠ [] := by
  obtain ⟨preparing, leads, deferred, source, ⟨session, ballot, _, inum⟩, body, acc, rfl, rfl,
    found, lost, higher⟩ := strands
  obtain ⟨fuel, script, handled⟩ := handles
  obtain ⟨-, rfl⟩ := SortedList.findFwd_mem found
  have own : node.pax.proposer = some node.pax.selfId := by simpa [isProposer] using leads
  have busy : node.pax.prep.isNone = false := by simpa using preparing
  have handled : (helloAttach { node with script := script } source
      ⟨session, ballot, .hello, acc.paxid⟩ acc).andThen
        (fun node => helloBallot node ⟨session, ballot, .hello, acc.paxid⟩) = .ok next := by
    simpa only [handle, paxosDispatch, leads, if_true, proposerDispatch, paxosAckHello, busy,
      Bool.and_false, Bool.false_and, Bool.false_eq_true, if_false, found] using handled
  obtain ⟨mid, attached, taken⟩ := Outcome.andThen_eq_ok.mp handled
  -- The hello takes the office without the list of what was deferred.
  have demoted : mid.pax.prep = none ∧ mid.pax.idefer = node.pax.idefer := by
    simp only [helloAttach, lost, Option.isNone_none, if_true, Node.setLiveCount, Node.setPeer,
      own, higher, isProposer, decide_true] at attached
    cases attached
    exact ⟨rfl, rfl⟩
  obtain ⟨idle, left⟩ := demoted
  rw [← left] at deferred
  unfold helloBallot at taken
  split at taken
  · contradiction
  · split at taken
    · cases taken
      exact ⟨idle, deferred⟩
    · cases taken
      exact ⟨idle, deferred⟩

/-- Handlers that each leave a prepare running, from a state in which none runs. -/
inductive Bid (idle : Node) : Node → Prop where
  | begin : Bid idle idle
  | step {node next : Node} {event : Event} (bid : Bid idle node)
      (handles : Handles node event (.ok next)) (preparing : next.pax.prep.isSome = true) :
      Bid idle next

/-- A session begins with no prepare and nothing deferred. -/
theorem Begins.idle {fits : Welcome → Prop} {node : Node} {first : Nat}
    (begins : Begins fits node first) : node.pax.prep = none ∧ node.pax.idefer = [] := by
  cases begins with
  | start => exact ⟨rfl, rfl⟩
  | welcome welcome =>
    exact ⟨congrArg Core.prep welcomeAcceptors_core, congrArg Core.idefer welcomeAcceptors_core⟩

/--
What is deferred was deferred in the current bid, as long as no hello strands one.

Behind the last state that had no prepare, every handler has left one running, up to the present.
A hello that strands a bid always breaks this.
-/
theorem deferred_in_bid {begun node : Node} {first : Nat}
    (begins : Begins (fun _ => True) begun first)
    (run : Runs (fun pax event => ¬ Strands pax event) begun node) :
    (node.pax.prep = none → node.pax.idefer = []) ∧
      (∃ idle, Runs (fun pax event => ¬ Strands pax event) begun idle ∧ idle.pax.prep = none ∧
        idle.pax.idefer = [] ∧ Bid idle node) ∧
      ∀ event next, Strands node.pax event → Handles node event (.ok next) →
        next.pax.prep = none ∧ next.pax.idefer ≠ [] := by
  -- The start of the current bid is carried along, and moves when a bid ends.
  have kept : node.pax.ilist.WellFormed ∧ node.pax.Tidy ∧
      ∃ idle, Runs (fun pax event => ¬ Strands pax event) begun idle ∧ idle.pax.prep = none ∧
        idle.pax.idefer = [] ∧ Bid idle node := by
    induction run with
    | refl =>
      obtain ⟨idle, empty⟩ := begins.idle
      exact ⟨begins.wellFormed, fun _ => empty, begun, .refl, idle, empty, .begin⟩
    | @step node next event run spares handles ih =>
      obtain ⟨wf, tidy, idle, back, given, empty, bid⟩ := ih
      have tidy : next.pax.Tidy := handles.tidy spares wf tidy
      refine ⟨handles.wellFormed wf, tidy, ?_⟩
      by_cases ended : next.pax.prep = none
      · -- The bid is over, and the next one starts from here.
        exact ⟨next, .step run spares handles, ended, tidy ended, .begin⟩
      · exact ⟨idle, back, given, empty,
          .step bid handles (Option.isSome_iff_ne_none.mpr ended)⟩
  obtain ⟨-, tidy, bid⟩ := kept
  exact ⟨tidy, bid, fun event next strands handles => handles.strands strands⟩

/--
The second member defers its kill of the first for as long as it prepares, and until no longer.
-/
theorem deferred_in_bid_successor :
    successor.preparing.pax.idefer ≠ [] ∧ successor.preparing.pax.prep.isSome = true ∧
      (∃ idle, idle.pax.prep = none ∧ idle.pax.idefer = [] ∧ Bid idle successor.preparing) ∧
        successor.leading.pax.prep = none ∧ successor.leading.pax.idefer = [] := by
  have begins : Begins (fun _ => True) successor.node _ := .welcome successor trivial
  have prepares : Runs (fun pax event => ¬ Strands pax event) successor.node
      successor.preparing := by
    refine .step (.step .refl ?_ successor.connects) ?_ successor.loses
    · rintro ⟨-, -, -, _, _, _, _, asked, -⟩
      contradiction
    · rintro ⟨-, -, -, _, _, _, _, asked, -⟩
      contradiction
  have completes : Runs (fun pax event => ¬ Strands pax event) successor.node
      successor.leading := by
    refine prepares.step ?_ successor.wins
    -- A promise is no hello.
    rintro ⟨-, -, -, _, _, _, _, asked, opcode, -⟩
    cases asked
    contradiction
  have ended : successor.leading.pax.prep = none := by decide +kernel
  refine ⟨by decide +kernel, by decide +kernel, ?_, ended,
    (deferred_in_bid begins completes).1 ended⟩
  obtain ⟨idle, -, given, empty, bid⟩ := (deferred_in_bid begins prepares).2.1
  exact ⟨idle, given, empty, bid⟩

/--
The proposer reconnects to an acceptor that has begun to prepare, and finds its kill deferred there.

The hello ends the prepare and leaves the kill of the proposer for the next one.
-/
theorem deferred_stranded : ∃ sys, System.Reachable sys ∧
    ∃ node ∈ (sys.process [2]).node, node.pax.prep = none ∧
      node.pax.proposer = some 1 ∧ (∃ acc ∈ node.pax.alist, acc.paxid = 1 ∧ acc.peer.isSome) ∧
        node.pax.idefer.map (fun inst => (inst.val.dkind, inst.val.extra)) = [(.kill, 1)] :=
  System.exists_played
    (System.assemble [[1], [2], [3]] ++
      -- The channel between the first two breaks, and the second one prepares.
      [.steps [.cut 0, .eof 0 true, .eof 0 false],
        -- The part of the second is rejected, so the first reconnects with a hello.
        .steps [.deliver 1 true, .deliver 1 false, .complete 0 true, .deliver 3 true]])
    (by decide +kernel)

end Motmot
