import Motmot.Proofs.Paxos.Calm
import Motmot.Proofs.Paxos.Deferral
import Motmot.Proofs.Paxos.Fealty

/-! The ballot of a prepare is new, as long as the high water mark of generations is one. -/

namespace Motmot

variable {start : Node} {event : Event}

/-- A ballot that another one outranks. -/
def Ballot.Below (x y : Ballot) : Prop := ballotCompare x y = .lt

instance (x y : Ballot) : Decidable (x.Below y) := inferInstanceAs (Decidable (_ = _))

/-- The higher generation outranks, and among equal ones the smaller identifier. -/
theorem Ballot.below_iff {x y : Ballot} :
    x.Below y ↔ x.gen < y.gen ∨ x.gen = y.gen ∧ y.id < x.id := ppairCompare_eq_lt

/-- The ballot of the next prepare, as long as the generations do not run out. -/
def nextBallot (pax : Session) : Ballot := ⟨pax.selfId, pax.genHigh + 1⟩

/-- A ballot below the next one lies in an earlier generation, or beside it under a lower rank. -/
theorem below_nextBallot {pax : Session} {ballot : Ballot} : ballot.Below (nextBallot pax) ↔
    ballot.gen ≤ pax.genHigh ∨ ballot.gen = pax.genHigh + 1 ∧ pax.selfId < ballot.id := by
  rw [Ballot.below_iff]
  have gen : (nextBallot pax).gen = pax.genHigh + 1 := rfl
  have id : (nextBallot pax).id = pax.selfId := rfl
  omega

/-- A handler has called `proposer_prepare`, which counts a generation and leaves a prepare. -/
structure Prepares (pax next : Session) (prep : Prep) : Prop where
  running : next.prep = some prep
  counted : next.genHigh = paxidSucc pax.genHigh
  named : prep.ballot = ⟨pax.selfId, next.genHigh⟩

instance (pax next : Session) (prep : Prep) : Decidable (Prepares pax next prep) :=
  decidable_of_iff (next.prep = some prep ∧ next.genHigh = paxidSucc pax.genHigh ∧
      prep.ballot = ⟨pax.selfId, next.genHigh⟩)
    ⟨fun ⟨running, counted, named⟩ => ⟨running, counted, named⟩,
      fun prepares => ⟨prepares.running, prepares.counted, prepares.named⟩⟩

/-- A handler has called no `proposer_prepare`: what runs was running before under its ballot. -/
structure Abides (pax next : Session) : Prop where
  counted : next.genHigh = pax.genHigh
  running : ∀ prep, next.prep = some prep →
    ∃ begun, pax.prep = some begun ∧ begun.ballot = prep.ballot

/-- In the middle of a handler that promises nothing and completes no prepare. -/
structure Bidding (pax next : Session) : Prop where
  self : next.selfId = pax.selfId
  bids : Abides pax next ∨ ∃ prep, Prepares pax next prep

namespace Bidding

variable {node mid : Node}

/-- What leaves the mark and the prepare alone. -/
theorem keep (bidding : Bidding start.pax node.pax) (self : mid.pax.selfId = node.pax.selfId)
    (genHigh : mid.pax.genHigh = node.pax.genHigh) (prep : mid.pax.prep = node.pax.prep) :
    Bidding start.pax mid.pax := by
  refine ⟨self.trans bidding.self, ?_⟩
  -- Either the prepare is the one that ran already, or it was begun by the move.
  rcases bidding.bids with ⟨counted, running⟩ | ⟨begun, running, counted, named⟩
  · refine Or.inl ⟨genHigh.trans counted, ?_⟩
    rw [prep]
    exact running
  · refine Or.inr ⟨begun, prep.trans running, genHigh.trans counted, ?_⟩
    rw [genHigh]
    exact named

/-- What happens beside the log. -/
theorem core (bidding : Bidding start.pax node.pax) (core : mid.pax.core = node.pax.core) :
    Bidding start.pax mid.pax :=
  bidding.keep (congrArg Core.selfId core) (congrArg Core.genHigh core) (congrArg Core.prep core)

/-- A prepare that begins is counted, which happens once in a handler. -/
theorem begin (self : mid.pax.selfId = start.pax.selfId)
    (genHigh : mid.pax.genHigh = start.pax.genHigh) : Bidding start.pax (beginPrepare mid).pax := by
  have next : (beginPrepare mid).pax.genHigh = paxidSucc mid.pax.genHigh := rfl
  have ballot : (newPrep mid.pax).ballot = ⟨mid.pax.selfId, (beginPrepare mid).pax.genHigh⟩ := rfl
  refine ⟨self, Or.inr ⟨newPrep mid.pax, rfl, ?_, ?_⟩⟩
  · rw [next, genHigh]
  · rw [ballot, self]

/-- What gives up a prepare, or keeps the one that its handler began with. -/
theorem give_up (self : mid.pax.selfId = start.pax.selfId)
    (genHigh : mid.pax.genHigh = start.pax.genHigh)
    (prep : mid.pax.prep = none ∨ mid.pax.prep = start.pax.prep) : Bidding start.pax mid.pax := by
  refine ⟨self, Or.inl ⟨genHigh, ?_⟩⟩
  -- A prepare that runs now has not been given up.
  intro begun running
  rcases prep with idle | same
  · rw [idle] at running
    contradiction
  · exact ⟨begun, same.symm.trans running, rfl⟩

/-- The replacement of a proposer begins at most a prepare. -/
theorem replace (bidding : Bidding start.pax node.pax) (replaces : Replaces node mid) :
    Bidding start.pax mid.pax := by
  -- The reset keeps the ballots, and the office decides whether a prepare begins.
  obtain ⟨_, same⟩ := resetProposer_eq node
  cases replaces with
  | elect =>
    refine bidding.keep ?_ ?_ ?_ <;> rw [same]
  | begin _ idle =>
    rcases bidding.bids with ⟨counted, -⟩ | ⟨begun, running, -⟩
    · refine .begin ?_ ?_
      · rw [same]
        exact bidding.self
      · rw [same]
        exact counted
    · -- Nobody prepares while a prepare is running.
      rw [idle] at running
      contradiction

/-- Another answer to the prepare that runs. -/
theorem answer (bidding : Bidding start.pax node.pax) {prep acked : Prep}
    (running : node.pax.prep = some prep) (ballot : acked.ballot = prep.ballot) :
    Bidding start.pax (node.setPrep (some acked)).pax := by
  -- An answer is counted in the prepare that runs and changes no ballot.
  refine ⟨bidding.self, ?_⟩
  rcases bidding.bids with ⟨counted, before⟩ | ⟨begun, began, counted, named⟩
  · refine Or.inl ⟨counted, ?_⟩
    intro now same
    obtain rfl := Option.some.inj same
    obtain ⟨begun, held, same⟩ := before prep running
    exact ⟨begun, held, same.trans ballot.symm⟩
  · obtain rfl := Option.some.inj (running.symm.trans began)
    exact Or.inr ⟨acked, rfl, counted, ballot.trans named⟩

end Bidding

/-- Moves from within a learn leave the mark alone. -/
theorem Nest.genHigh {node next : Node} (act : Nest start event node next) :
    next.pax.genHigh = node.pax.genHigh := by
  -- Only the two kinds of decree do more than change fields that no bid reads.
  cases act with
  | outer outer => exact congrArg Core.genHigh outer.core
  | defer prior => exact congrArg Core.genHigh prior.core
  | @decree mid inst prior =>
    obtain ⟨_, _, same⟩ := instanceInsertAndUpstart_eq mid (decreeOf mid.pax inst)
    unfold announceDecree paxosBroadcastInstance
    rw [same]
    exact congrArg Core.genHigh prior.core
  | _ => rfl

/-- Moves of such a handler itself. -/
theorem Top.bidding {node next : Node} (act : Top start event node next)
    (unsworn : ∀ ballot, ¬ Pledges start.pax event ballot)
    (runs : ∀ prep, ¬ Completes start.pax event prep)
    (bidding : Bidding start.pax node.pax) : Bidding start.pax next.pax := by
  -- Only a deposition and a prepare that is begun anew raise the mark.
  cases act with
  | beside prior => exact bidding.core prior.core
  | depose closed prior _ _ replaces =>
    exact (bidding.core (prior.core.trans closed.core.symm)).replace replaces
  | promise asked opcode acceptor newer found bound =>
    exact absurd ⟨acceptor, newer, _, _, _, _, asked, opcode, rfl, found, bound⟩ (unsworn _)
  | store _ _ _ _ stores =>
    obtain ⟨_, _, same⟩ := stores.eq
    refine bidding.keep ?_ ?_ ?_ <;> rw [same]
  | accept _ _ _ _ stores =>
    obtain ⟨_, _, same⟩ := stores.eq
    rw [same]
    exact bidding.keep rfl rfl rfl
  | @commitFresh _ hdr val =>
    obtain ⟨_, _, same⟩ := instanceInsertAndUpstart_eq start (freshInstance hdr val)
    refine bidding.keep ?_ ?_ ?_ <;> rw [same]
  | merge _ _ _ _ _ _ merges =>
    obtain ⟨_, _, same⟩ := merges.eq
    refine bidding.keep ?_ ?_ ?_ <;> rw [same]
  | ack _ _ _ preparing => exact bidding.answer preparing rfl
  | redirect _ _ _ preparing => exact bidding.answer preparing rfl
  | fill _ _ _ _ _ _ _ _ completes => exact absurd completes.choose_spec (runs _)
  | redecree _ _ _ _ _ _ completes => exact absurd completes.choose_spec (runs _)
  | settle _ _ _ completes => exact absurd completes.choose_spec (runs _)
  | undefer _ _ _ completes => exact absurd completes.choose_spec (runs _)
  | rebegin reason =>
    refine .begin bidding.self ?_
    rcases reason with ⟨_, _, _, _, _, _, _, _, _, genHigh⟩ | ⟨prior, -⟩
    · exact genHigh
    · exact congrArg Core.genHigh prior.core
  | @yieldRedirect mid acc _ prior =>
    obtain ⟨_, same⟩ := yieldTo_writes mid acc
    rw [same]
    exact .give_up (congrArg Core.selfId prior.core) (congrArg Core.genHigh prior.core)
      (Or.inl rfl)
  | @yieldRefuse mid _ acc _ prior =>
    obtain ⟨_, same⟩ := yieldTo_writes mid acc
    rw [same]
    exact .give_up (congrArg Core.selfId prior.core) (congrArg Core.genHigh prior.core)
      (Or.inl rfl)
  | @helloYield mid _ hdr _ _ _ prior =>
    have self : mid.pax.selfId = start.pax.selfId := congrArg Core.selfId prior.core
    have genHigh : mid.pax.genHigh = start.pax.genHigh := congrArg Core.genHigh prior.core
    split
    · exact .give_up self genHigh (Or.inl rfl)
    · exact .give_up self genHigh (Or.inr (congrArg Core.prep prior.core))
  | _ => exact bidding.keep rfl rfl rfl

/-- Every move of such a handler. -/
theorem Move.bidding {config after : Config} (move : Move start event config after)
    (unsworn : ∀ ballot, ¬ Pledges start.pax event ballot)
    (runs : ∀ prep, ¬ Completes start.pax event prep)
    (bidding : Bidding start.pax config.node.pax) : Bidding start.pax after.node.pax := by
  -- A nested commit, a learn and a delisting keep the ballots.
  cases move with
  | top act => exact act.bidding unsworn runs bidding
  | inner move =>
    cases move with
    | nest _ act =>
      have polity := act.polity
      exact bidding.keep (congrArg Polity.selfId polity) act.genHigh act.office.1
    | @learn node _ addr inst =>
      have core := learnt_core node addr inst (learnRequest node.pax inst.val)
      have self := congrArg Core.selfId core
      have genHigh := congrArg Core.genHigh core
      have prep := congrArg Core.prep core
      exact bidding.keep self genHigh prep
    | @delist node _ _ paxid => exact bidding.core (delist_core node paxid)
    | @depose node _ _ paxid _ _ _ replaces =>
      exact (bidding.core (delist_core node paxid)).replace replaces
    | _ => exact bidding.keep rfl rfl rfl

/-- A promise takes over the ballot that it is asked for, and its generation as the mark. -/
theorem Handles.pledges {node next : Node} {ballot : Ballot}
    (handles : Handles node event (.ok next)) (pledges : Pledges node.pax event ballot) :
    next.pax = { node.pax with ballot := ballot, genHigh := ballot.gen } := by
  -- The handler of a prepare is computed down to the promise.
  obtain ⟨acceptor, newer, source, ⟨session, named, _, inum⟩, body, acc, rfl, rfl, rfl, found,
    bound⟩ := pledges
  obtain ⟨fuel, script, handled⟩ := handles
  have found : proposerAcc ({ node with script := script } : Node).pax = some acc := found
  have handled : acceptorPromise { node with script := script }
      ⟨session, named, .prepare, inum⟩ = .ok next := by
    simpa only [handle, paxosDispatch, acceptor, Bool.false_eq_true, if_false, acceptorDispatch,
      acceptorAckPrepare, newer, ne_eq, not_true_eq_false, found, bound] using handled
  have sworn := acceptorPromise_pax { node with script := script }
    ⟨session, named, .prepare, inum⟩
  rw [handled] at sworn
  exact sworn

/-- Moves of the handler of a promise at a proposer leave the mark alone. -/
theorem Top.genHigh {node next : Node} {source : PeerId} {hdr : Header} {body : Body}
    (act : Top start event node next) (leads : isProposer start.pax = true)
    (asked : event = .message source ⟨hdr, body⟩) (opcode : hdr.opcode = .promise) :
    next.pax.genHigh = node.pax.genHigh := by
  -- A proposer makes none of the moves of an acceptor, and the others keep the mark.
  cases act with
  | beside prior => exact congrArg Core.genHigh prior.core
  | depose _ _ _ lost =>
    obtain ⟨_, _, dropped, -⟩ := lost
    rw [asked] at dropped
    contradiction
  | promise _ _ acceptor =>
    rw [leads] at acceptor
    contradiction
  | store _ _ acceptor =>
    rw [leads] at acceptor
    contradiction
  | accept _ _ acceptor =>
    rw [leads] at acceptor
    contradiction
  | commitFresh _ _ acceptor =>
    rw [leads] at acceptor
    contradiction
  | merge _ _ _ _ _ _ merges =>
    obtain ⟨_, _, same⟩ := merges.eq
    rw [same]
  | @fill _ _ _ place _ inum =>
    obtain ⟨_, same⟩ := linkScratch_eq (node.bumpReqId.setIlist (node.bumpReqId.pax.ilist.alloc
      (nullInstance node.bumpReqId.pax inum))) place.addr
        ⟨nextAddr node.bumpReqId, nullInstance node.bumpReqId.pax inum⟩
    exact (congrArg (fun node => node.pax.genHigh) same :
      (fillNull node place.addr inum).pax.genHigh = _)
  | @undefer _ inst rest =>
    obtain ⟨_, _, same⟩ := instanceInsertAndUpstart_eq (node.setIdefer rest)
      (decreeOf node.pax inst)
    exact congrArg (fun node => node.pax.genHigh) same
  | rebegin reason =>
    -- A prepare is begun anew after a redirect or a connection, not after a promise.
    rcases reason with ⟨_, _, _, _, _, _, again, redirect, _⟩ |
      ⟨_, _, ⟨_, _, completed, -⟩, -⟩
    · rw [asked] at again
      cases again
      rw [opcode] at redirect
      contradiction
    · rw [asked] at completed
      contradiction
  | yieldRedirect _ continues =>
    obtain ⟨_, _, completed, -⟩ := continues
    rw [asked] at completed
    contradiction
  | yieldRefuse _ continues =>
    obtain ⟨_, _, completed, -⟩ := continues
    rw [asked] at completed
    contradiction
  | helloYield _ again hello =>
    rw [asked] at again
    cases again
    rw [opcode] at hello
    contradiction
  | _ => rfl

/-- A proposer whose prepare is completed calls for no other one. -/
theorem Handles.abides {node next : Node} {prep : Prep} (handles : Handles node event (.ok next))
    (completes : Completes node.pax event prep) (wf : node.pax.ilist.WellFormed) :
    Abides node.pax next.pax := by
  -- A prepare that completes is over, and no move of its handler calls for another.
  obtain ⟨⟨-, idle⟩, -⟩ := handles.completes completes wf
  obtain ⟨proposer, -, source, hdr, body, asked, opcode, -⟩ := completes
  have keeps : ¬ Yields node.pax event := by
    intro yields
    have greets := yields.greets
    simp [asked, Event.greets, opcode] at greets
  refine ⟨?_, by simp [idle]⟩
  refine ((@Handles.invariant _ _ _ (fun config => isProposer config.node.pax = true ∧
    config.node.pax.genHigh = node.pax.genHigh) handles wf (fun _ => ⟨proposer, rfl⟩) ?_).1
      next rfl).2
  rintro script config after move - ⟨leads, counted⟩
  cases move with
  | top act =>
    exact ⟨act.leads keeps proposer leads, (act.genHigh proposer asked opcode).trans counted⟩
  | inner move =>
    refine ⟨move.leads leads, ?_⟩
    cases move with
    | nest _ act => exact act.genHigh.trans counted
    | @learn node _ addr inst =>
      have core := learnt_core node addr inst (learnRequest node.pax inst.val)
      have genHigh := congrArg Core.genHigh core
      exact genHigh.trans counted
    | @delist node _ _ paxid => exact (congrArg Core.genHigh (delist_core node paxid)).trans counted
    | depose other led =>
      -- A proposer never learns its own part.
      simp only [isProposer, led] at leads
      simp at leads
      exact absurd leads other
    | _ => exact counted

/-- Every move leaves us who we are. -/
theorem Move.selfId {config after : Config} (move : Move start event config after)
    (self : config.node.pax.selfId = start.pax.selfId) :
    after.node.pax.selfId = start.pax.selfId := by
  -- Who we are is written when the session starts and by no move.
  cases move with
  | top act =>
    rcases act.polity with same | turns
    · exact (congrArg Polity.selfId same).trans self
    · exact turns.opens.2
  | inner move =>
    cases move with
    | nest _ act => exact (congrArg Polity.selfId act.polity).trans self
    | @learn node _ addr inst =>
      have core := learnt_core node addr inst (learnRequest node.pax inst.val)
      have same := congrArg Core.selfId core
      exact same.trans self
    | delist => exact (delist_selfId _ _).trans self
    | depose _ _ replaces => exact (replaces.selfId.trans (delist_selfId _ _)).trans self
    | _ => exact self

/-- A handler leaves us who we are. -/
theorem Handles.selfId {node next : Node} (handles : Handles node event (.ok next))
    (wf : node.pax.ilist.WellFormed) : next.pax.selfId = node.pax.selfId :=
  (@Handles.invariant _ _ _ (fun config => config.node.pax.selfId = node.pax.selfId) handles wf
    (fun _ => rfl) fun move _ self => move.selfId self).1 next rfl

/-- A handler calls `proposer_prepare`, or promises, or does neither. -/
theorem Handles.bids {node next : Node} (handles : Handles node event (.ok next))
    (wf : node.pax.ilist.WellFormed) : Abides node.pax next.pax ∨
      (∃ prep, Prepares node.pax next.pax prep) ∨
      ∃ ballot, Pledges node.pax event ballot ∧
        next.pax = { node.pax with ballot := ballot, genHigh := ballot.gen } := by
  -- A prepare is sworn to, or one completes; else the ballots change only by a prepare.
  by_cases sworn : ∃ ballot, Pledges node.pax event ballot
  · obtain ⟨ballot, pledges⟩ := sworn
    exact Or.inr (Or.inr ⟨ballot, pledges, handles.pledges pledges⟩)
  · have unsworn : ∀ ballot, ¬ Pledges node.pax event ballot := fun ballot pledges =>
      sworn ⟨ballot, pledges⟩
    by_cases won : ∃ prep, Completes node.pax event prep
    · obtain ⟨prep, completes⟩ := won
      exact Or.inl (handles.abides completes wf)
    · have runs : ∀ prep, ¬ Completes node.pax event prep := fun prep completes =>
        won ⟨prep, completes⟩
      have bidding : Bidding node.pax next.pax := by
        refine (@Handles.invariant _ _ _ (fun config => Bidding node.pax config.node.pax) handles wf
          (fun _ => .give_up rfl rfl (Or.inr rfl)) ?_).1 next rfl
        intro script config after move _ bidding
        exact @Move.bidding { node with script := script } event config after move unsworn runs
          bidding
      rcases bidding.bids with abides | prepares
      · exact Or.inl abides
      · exact Or.inr (Or.inl prepares)

/-- The ballot after a handler is the one before it, or comes with its event. -/
theorem Handles.comes {node next : Node} (handles : Handles node event (.ok next))
    (wf : node.pax.ilist.WellFormed) :
    next.pax.ballot = node.pax.ballot ∨ Comes node.pax event next.pax.ballot := by
  -- Moves inside leave the ballot alone, and one at the top takes it from the event.
  refine (@Handles.invariant _ _ _ (fun config => config.node.pax.ballot = node.pax.ballot ∨
    Comes node.pax event config.node.pax.ballot) handles wf (fun _ => Or.inl rfl) ?_).1 next rfl
  intro script config after move _ before
  cases move with
  | top act =>
    rcases act.comes with same | comes
    · rw [same]
      exact before
    · exact Or.inr comes
  | inner move =>
    rw [move.ballot]
    exact before

/--
Events that keep the high water mark of generations one.

A promise assigns the mark, whatever it was, a hello gives a ballot without moving the mark, and
behind the last generation the mark begins again.
-/
structure Fresh (pax : Session) (event : Event) : Prop where
  room : pax.genHigh + 1 < paxidRange
  pledged : ∀ ballot, Pledges pax event ballot → pax.genHigh ≤ ballot.gen
  crowned : ∀ ballot, Crowns pax event ballot → ballot.Below (nextBallot pax)

/-- Whatever ballot a session holds or prepares is below that of its next prepare. -/
structure Marked (pax : Session) : Prop where
  held : pax.ballot.Below (nextBallot pax)
  used : ∀ prep, pax.prep = some prep → prep.ballot.Below (nextBallot pax)

/-- A mark that rises lets no ballot catch up. -/
theorem Ballot.Below.rise {pax next : Session} {ballot : Ballot}
    (below : ballot.Below (nextBallot pax)) (self : next.selfId = pax.selfId)
    (risen : pax.genHigh ≤ next.genHigh) : ballot.Below (nextBallot next) := by
  rw [below_nextBallot] at *
  rw [self]
  omega

/-- A ballot below the next one is below that of a prepare that is called now. -/
theorem Prepares.above {pax next : Session} {prep : Prep} {ballot : Ballot}
    (prepares : Prepares pax next prep) (room : pax.genHigh + 1 < paxidRange)
    (below : ballot.Below (nextBallot pax)) : ballot.Below prep.ballot := by
  -- The next ballot has the next generation, so what is below it is at or below the mark.
  have counted := prepares.counted
  rw [paxidSucc_eq room] at counted
  rw [below_nextBallot] at below
  rw [prepares.named, Ballot.below_iff]
  simp only
  omega

/-- A handler of a fresh event keeps the mark one, and never lowers it. -/
theorem Handles.marked {node next : Node} (handles : Handles node event (.ok next))
    (fresh : Fresh node.pax event) (wf : node.pax.ilist.WellFormed) (marked : Marked node.pax) :
    Marked next.pax ∧ node.pax.genHigh ≤ next.pax.genHigh := by
  -- The mark rises by one for a prepare, and to the ballot that is promised otherwise.
  have self := handles.selfId wf
  have risen : node.pax.genHigh ≤ next.pax.genHigh := by
    rcases handles.bids wf with abides | ⟨prep, prepares⟩ | ⟨ballot, pledges, taken⟩
    · exact Nat.le_of_eq abides.counted.symm
    · rw [prepares.counted, paxidSucc_eq fresh.room]
      exact Nat.le_succ _
    · rw [taken]
      exact fresh.pledged ballot pledges
  refine ⟨⟨?_, ?_⟩, risen⟩
  · -- The ballot is held from before, or it is one of those that the event may bring.
    rcases handles.comes wf with same | comes
    · rw [same]
      exact marked.held.rise self risen
    · generalize taken : next.pax.ballot = ballot at comes
      cases comes with
      | pledged pledges =>
        -- A promise makes the generation of its ballot the mark.
        have mark := congrArg Session.genHigh (handles.pledges pledges)
        have mark : next.pax.genHigh = ballot.gen := mark
        rw [below_nextBallot]
        omega
      | crowned crowns => exact (fresh.crowned ballot crowns).rise self risen
      | won completes => exact (marked.used _ completes.2.1).rise self risen
  · -- The same holds of the ballot of the prepare that runs.
    intro prep running
    rcases handles.bids wf with abides | ⟨begun, prepares⟩ | ⟨ballot, pledges, taken⟩
    · obtain ⟨begun, before, same⟩ := abides.running prep running
      rw [← same]
      exact (marked.used begun before).rise self risen
    · obtain rfl := Option.some.inj (running.symm.trans prepares.running)
      rw [below_nextBallot, prepares.named]
      exact Or.inl (Nat.le_refl _)
    · have still : next.pax.prep = node.pax.prep := by rw [taken]
      exact (marked.used prep (still ▸ running)).rise self risen

/-- A session begins with its mark at its ballot. -/
theorem Begins.marked {fits : Welcome → Prop} {node : Node} {first : Nat}
    (begins : Begins fits node first) : Marked node.pax := by
  -- There is no prepare yet, and the first ballot has the generation of the mark.
  obtain ⟨idle, -⟩ := begins.idle
  refine ⟨?_, by simp [idle]⟩
  rw [below_nextBallot]
  left
  cases begins with
  | start => exact Nat.le_refl 1
  | welcome welcome =>
    have ballot : welcome.node.pax.ballot = welcome.hdr.ballot :=
      congrArg Core.ballot welcomeAcceptors_core
    have mark : welcome.node.pax.genHigh = welcome.hdr.ballot.gen :=
      congrArg Core.genHigh welcomeAcceptors_core
    exact Nat.le_of_eq ((congrArg (fun ballot => ballot.gen) ballot).trans mark.symm)

/--
In a run that keeps the mark one,
every prepare uses a ballot above all that were held or used before.

A prepare is called by the handlers that count a generation, and by no others: the rest leave the
mark and the prepare alone, or promise to somebody else.
-/
theorem ballots_fresh {begun mid node : Node} {first : Nat}
    (begins : Begins (fun _ => True) begun first) (run : Runs Fresh begun mid)
    (later : Runs Fresh mid node) :
    ∀ event next, Handles node event (.ok next) →
      (Abides node.pax next.pax ∨ (∃ prep, Prepares node.pax next.pax prep) ∨
        ∃ ballot, Pledges node.pax event ballot ∧
          next.pax = { node.pax with ballot := ballot, genHigh := ballot.gen }) ∧
        (Fresh node.pax event → ∀ prep, Prepares node.pax next.pax prep →
          mid.pax.ballot.Below prep.ballot ∧
            ∀ used, mid.pax.prep = some used → used.ballot.Below prep.ballot) := by
  -- The mark bounds every ballot in use, and goes on doing so along the run.
  obtain ⟨wf, marked⟩ : mid.pax.ilist.WellFormed ∧ Marked mid.pax := by
    refine @Runs.invariant _ _ _ (fun node => node.pax.ilist.WellFormed ∧ Marked node.pax) run
      ⟨begins.wellFormed, begins.marked⟩ ?_
    rintro node event next fresh handles ⟨wf, marked⟩
    exact ⟨handles.wellFormed wf, (handles.marked fresh wf marked).1⟩
  -- It never falls later on, so what bounded the ballots then bounds them still.
  obtain ⟨wfNode, -, self, risen⟩ : node.pax.ilist.WellFormed ∧ Marked node.pax ∧
      node.pax.selfId = mid.pax.selfId ∧ mid.pax.genHigh ≤ node.pax.genHigh := by
    refine @Runs.invariant _ _ _ (fun node => node.pax.ilist.WellFormed ∧ Marked node.pax ∧
      node.pax.selfId = mid.pax.selfId ∧ mid.pax.genHigh ≤ node.pax.genHigh) later
      ⟨wf, marked, rfl, Nat.le_refl _⟩ ?_
    rintro node event next fresh handles ⟨wf, marked, self, risen⟩
    obtain ⟨kept, rises⟩ := handles.marked fresh wf marked
    exact ⟨handles.wellFormed wf, kept, (handles.selfId wf).trans self, Nat.le_trans risen rises⟩
  intro event next handles
  refine ⟨handles.bids wfNode, ?_⟩
  intro fresh prep prepares
  refine ⟨prepares.above fresh.room (marked.held.rise self risen), ?_⟩
  intro used running
  exact prepares.above fresh.room ((marked.used used running).rise self risen)

/-- What brings no message gives nobody a ballot. -/
theorem Fresh.quiet {pax : Session} {event : Event} (room : pax.genHigh + 1 < paxidRange)
    (quiet : ∀ source msg, event ≠ .message source msg) : Fresh pax event where
  room := room
  pledged := by
    -- A pledge is asked for by a message, and none comes.
    intro ballot pledges
    obtain ⟨source, _, _, _, asked, -⟩ := pledges.asked
    exact absurd asked (quiet source _)
  crowned := by
    intro ballot crowns
    obtain ⟨source, _, _, _, asked, -⟩ := crowns
    exact absurd asked (quiet source _)

/-- The second of three members, which is welcomed by the first and has to connect to the third. -/
def heir : Welcome where
  source := 1
  hdr := { session := 7, ballot := ⟨1, 1⟩, opcode := .welcome, inum := 2 }
  session := 7
  ibase := 1
  alist := [⟨1, [1]⟩, ⟨2, [2]⟩, ⟨3, [3]⟩]
  ilist := []
  ascending := by decide

/-- What is left once it is connected to the third. -/
def heir.connected : Node := (handle 20 heir.node (.connected 0 (some 3))).state

/-- What is left once it has lost the first as well. -/
def heir.bidding : Node := (handle 20 heir.connected (.drop 1)).state

/-- The heir prepares once the first is lost, above the ballot that it was welcomed with. -/
theorem ballots_fresh_heir : ∃ prep, Prepares heir.connected.pax heir.bidding.pax prep ∧
    heir.node.pax.ballot.Below prep.ballot := by
  -- The heir connects its welcome, and loses the first, whose place it takes.
  have prepares : Prepares heir.connected.pax heir.bidding.pax
      { ballot := ⟨2, 2⟩, acks := 1, redirects := 0, istart := none } := by decide +kernel
  have connects : Handles heir.node (.connected 0 (some 3)) (.ok heir.connected) :=
    ⟨20, [], by decide +kernel⟩
  have loses : Handles heir.connected (.drop 1) (.ok heir.bidding) := ⟨20, [], by decide +kernel⟩
  have fresh := ballots_fresh (.welcome heir trivial) .refl
    (.step .refl (.quiet (by decide +kernel) (by simp)) connects) (.drop 1) heir.bidding loses
  exact ⟨_, prepares, (fresh.2 (.quiet (by decide +kernel) (by simp)) _ prepares).1⟩

/--
A hello gives a ballot to somebody whose mark is behind it, and the next prepare falls short of it.

The second acceptor prepares twice before it reconnects to the third, which has prepared once.
-/
theorem ballot_stale : ∃ sys, System.Reachable sys ∧
    ∃ next ∈ sys.step System.quiet (.eof 10 true),
      ∃ node ∈ (sys.process [3]).node, ∃ after ∈ (next.process [3]).node,
        ∃ prep ∈ after.pax.prep, Prepares node.pax after.pax prep ∧ prep.ballot = ⟨3, 3⟩ ∧
          node.pax.ballot = ⟨2, 3⟩ ∧ ¬ node.pax.ballot.Below prep.ballot :=
  System.exists_played
    (System.assemble [[1], [2], [3], [4], [5]] ++
      -- The second and the third lose each other and the first, and both prepare.
      [.steps [.cut 2, .eof 2 true, .eof 2 false, .cut 0, .eof 0 true, .cut 1, .eof 1 true,
          .cut 3, .eof 3 true],
        -- The fifth redirects the second, which cannot reach the first and prepares again.
        .steps [.deliver 4 false, .deliver 7 false, .deliver 4 true, .deliver 7 true,
          .complete 0 false, .cut 6, .eof 6 true],
        -- Now it is promised to, and its part of the third is rejected.
        .steps [.deliver 4 false, .deliver 7 false, .deliver 4 true, .deliver 7 true,
          .deliver 4 false, .deliver 7 false, .deliver 4 false, .deliver 7 false, .deliver 4 true,
          .deliver 4 true, .deliver 7 true, .deliver 7 true],
        -- It reconnects to the third with a hello, and is lost again.
        .steps [.complete 1 true, .deliver 10 true, .cut 10]])
    (by decide +kernel)

end Motmot
