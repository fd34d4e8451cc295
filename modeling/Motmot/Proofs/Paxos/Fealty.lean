import Motmot.Proofs.Paxos.Tenure

/-! Promises are kept, as long as nobody takes over a ballot below its own. -/

namespace Motmot

variable {start : Node} {event : Event}

/-- Ballots in their order. -/
def Ballot.NotAbove (x y : Ballot) : Prop := ballotCompare x y ≠ .gt

instance (x y : Ballot) : Decidable (x.NotAbove y) := inferInstanceAs (Decidable (_ ≠ _))

/-- The order of ballots by their generations and identifiers. -/
theorem Ballot.notAbove_iff {x y : Ballot} :
    x.NotAbove y ↔ x.gen < y.gen ∨ x.gen = y.gen ∧ y.id ≤ x.id := by
  have above : ballotCompare x y = .gt ↔ y.gen < x.gen ∨ y.gen = x.gen ∧ x.id < y.id :=
    ppairCompare_eq_gt
  rw [NotAbove, ne_eq, above]
  omega

/-- A ballot is not above itself. -/
theorem Ballot.NotAbove.refl (x : Ballot) : x.NotAbove x :=
  Ballot.notAbove_iff.mpr (Or.inr ⟨rfl, Nat.le_refl _⟩)

/-- The order of ballots is transitive. -/
theorem Ballot.NotAbove.trans {x y z : Ballot} (first : x.NotAbove y) (second : y.NotAbove z) :
    x.NotAbove z := by
  rw [Ballot.notAbove_iff] at *
  omega

/-- The ballot that an effect promises to. -/
def Effect.promised : Effect → Option Ballot
  | .send _ ⟨hdr, .votes _ _⟩ => if hdr.opcode = .promise then some hdr.ballot else none
  | _ => none

/-- The ballot of the decree that an effect accepts. -/
def Effect.accepted : Effect → Option Ballot
  | .send _ ⟨hdr, .empty⟩ => if hdr.opcode = .accept then some hdr.ballot else none
  | _ => none

/-- What an effect that promises to a ballot is. -/
theorem Effect.mem_promised {effect : Effect} {ballot : Ballot} : ballot ∈ effect.promised ↔
    ∃ peer hdr count votes, effect = .send peer ⟨hdr, .votes count votes⟩ ∧
      hdr.opcode = .promise ∧ hdr.ballot = ballot := by
  -- Only a promise that is sent counts, and its ballot is that of the header.
  constructor
  · intro mem
    unfold Effect.promised at mem
    split at mem
    · rename_i peer hdr count votes
      obtain ⟨promise, same⟩ := Option.ite_none_right_eq_some.mp mem
      exact ⟨peer, hdr, count, votes, rfl, promise, Option.some.inj same⟩
    · contradiction
  · rintro ⟨peer, hdr, count, votes, rfl, promise, rfl⟩
    simp [Effect.promised, promise]

/-- What an effect that accepts a decree of a ballot is. -/
theorem Effect.mem_accepted {effect : Effect} {ballot : Ballot} : ballot ∈ effect.accepted ↔
    ∃ peer hdr, effect = .send peer ⟨hdr, .empty⟩ ∧ hdr.opcode = .accept ∧
      hdr.ballot = ballot := by
  -- Only an accept that is sent counts, and its ballot is that of the header.
  constructor
  · intro mem
    unfold Effect.accepted at mem
    split at mem
    · rename_i peer hdr
      obtain ⟨accept, same⟩ := Option.ite_none_right_eq_some.mp mem
      exact ⟨peer, hdr, rfl, accept, Option.some.inj same⟩
    · contradiction
  · rintro ⟨peer, hdr, rfl, accept, rfl⟩
    simp [Effect.accepted, accept]

/-- No accept among the effects is of a ballot below one that was promised before it. -/
def Bound (effects : List Effect) : Prop :=
  effects.Pairwise fun early late => ∀ promised ∈ early.promised, ∀ accepted ∈ late.accepted,
    promised.NotAbove accepted

instance (effects : List Effect) : Decidable (Bound effects) :=
  inferInstanceAs (Decidable (List.Pairwise _ _))

/-- A prepare that somebody else's session answers with a promise. -/
structure Pledges (pax : Session) (event : Event) (ballot : Ballot) : Prop where
  acceptor : isProposer pax = false
  newer : ballotCompare ballot pax.ballot = .gt
  asked : ∃ source hdr body acc, event = .message source ⟨hdr, body⟩ ∧ hdr.opcode = .prepare ∧
    hdr.ballot = ballot ∧ proposerAcc pax = some acc ∧ acc.peer = some source

/-- A hello whose ballot is taken over, from the proposer or from whoever it makes the proposer. -/
def Crowns (pax : Session) (event : Event) (ballot : Ballot) : Prop :=
  ∃ source hdr body acc, event = .message source ⟨hdr, body⟩ ∧ hdr.opcode = .hello ∧
    hdr.ballot = ballot ∧ Heeds pax hdr ∧ acceptorFind pax.alist hdr.inum = some acc ∧
      (pax.proposer = some hdr.inum ∨
        acc.peer = none ∧ ∃ proposer, pax.proposer = some proposer ∧ hdr.inum < proposer)

/-- The ballots that an event gives a session, if any. -/
inductive Comes (pax : Session) (event : Event) : Ballot → Prop where
  | pledged {ballot} (pledges : Pledges pax event ballot) : Comes pax event ballot
  | crowned {ballot} (crowns : Crowns pax event ballot) : Comes pax event ballot
  | won {prep} (completes : Completes pax event prep) : Comes pax event prep.ballot

/-- A ballot comes with a message, of which it is the ballot. -/
theorem Comes.asked {pax : Session} {ballot : Ballot} (comes : Comes pax event ballot) :
    ∃ source hdr body, event = .message source ⟨hdr, body⟩ ∧ hdr.ballot = ballot := by
  -- By how the ballot comes: by a prepare, a hello or a promise.
  cases comes with
  | pledged pledges =>
    obtain ⟨source, hdr, body, _, asked, _, same, _⟩ := pledges.asked
    exact ⟨source, hdr, body, asked, same⟩
  | crowned crowns =>
    obtain ⟨source, hdr, body, _, asked, _, same, _⟩ := crowns
    exact ⟨source, hdr, body, asked, same⟩
  | won completes =>
    obtain ⟨_, _, source, hdr, body, asked, _, same, _⟩ := completes
    exact ⟨source, hdr, body, asked, same⟩

/-- Moves of the handler itself leave the ballot alone, or take one over from the event. -/
theorem Top.comes {node next : Node} (act : Top start event node next) :
    next.pax.ballot = node.pax.ballot ∨ Comes start.pax event next.pax.ballot := by
  -- The ballot is taken from a prepare, a hello, or our own prepare that completes.
  cases act with
  | beside prior => exact Or.inl (congrArg Core.ballot prior.core)
  | depose closed prior _ _ replaces =>
    obtain ⟨_, _, _, same⟩ := replaces.eq
    left
    rw [same]
    exact congrArg Core.ballot (prior.core.trans closed.core.symm)
  | promise asked opcode acceptor newer found bound =>
    right
    rw [acceptorPromise_pax]
    exact .pledged ⟨acceptor, newer, _, _, _, _, asked, opcode, rfl, found, bound⟩
  | store _ _ _ _ stores =>
    obtain ⟨_, _, same⟩ := stores.eq
    exact Or.inl (by rw [same])
  | accept _ _ _ _ stores =>
    obtain ⟨_, _, same⟩ := stores.eq
    exact Or.inl (by rw [same]; rfl)
  | commitFresh => exact Or.inl (instanceInsertAndUpstart_ballot _ _)
  | merge _ _ _ _ _ _ merges =>
    obtain ⟨_, _, same⟩ := merges.eq
    exact Or.inl (by rw [same])
  | @win node source hdr body prep begun asked opcode proposer preparing current enough same acked
      ballot quorum leads =>
    subst acked
    have completes : Completes start.pax event begun :=
      ⟨leads, same, source, hdr, body, asked, opcode, current, by rw [← quorum]; exact enough⟩
    exact Or.inr (.won completes)
  | @fill _ _ _ place _ inum =>
    obtain ⟨_, same⟩ := linkScratch_eq (node.bumpReqId.setIlist (node.bumpReqId.pax.ilist.alloc
      (nullInstance node.bumpReqId.pax inum))) place.addr
        ⟨nextAddr node.bumpReqId, nullInstance node.bumpReqId.pax inum⟩
    exact Or.inl (congrArg (fun node => node.pax.ballot) same :
      (fillNull node place.addr inum).pax.ballot = _)
  | @undefer _ inst rest =>
    exact Or.inl (instanceInsertAndUpstart_ballot (node.setIdefer rest) (decreeOf node.pax inst))
  | @yieldRedirect mid acc _ prior =>
    obtain ⟨_, same⟩ := yieldTo_writes mid acc
    left
    rw [same]
    exact congrArg Core.ballot prior.core
  | @yieldRefuse mid _ acc _ prior =>
    obtain ⟨_, same⟩ := yieldTo_writes mid acc
    left
    rw [same]
    exact congrArg Core.ballot prior.core
  | helloYield _ asked opcode heeded found lost current higher =>
    exact Or.inr (.crowned ⟨_, _, _, _, asked, opcode, rfl, heeded, found,
      Or.inr ⟨lost, _, current, higher⟩⟩)
  | helloBallot _ asked opcode heeded found current =>
    exact Or.inr (.crowned ⟨_, _, _, _, asked, opcode, rfl, heeded, found, Or.inl current⟩)
  | _ => exact Or.inl rfl

/--
Events that take no ballot over below the current one.

A hello that is heeded brings the ballot of the proposer, who may be one that it makes the proposer,
and the promise that completes a prepare brings the ballot of the prepare.
-/
structure Loyal (pax : Session) (event : Event) : Prop where
  yielded : ∀ source hdr body acc proposer, event = .message source ⟨hdr, body⟩ →
    hdr.opcode = .hello → Heeds pax hdr → acceptorFind pax.alist hdr.inum = some acc →
      acc.peer = none → pax.proposer = some proposer → hdr.inum < proposer →
        pax.ballot.NotAbove hdr.ballot
  greeted : ∀ source hdr body acc, event = .message source ⟨hdr, body⟩ →
    hdr.opcode = .hello → Heeds pax hdr → acceptorFind pax.alist hdr.inum = some acc →
      pax.proposer = some hdr.inum → pax.ballot.NotAbove hdr.ballot
  completed : ∀ prep, Completes pax event prep → pax.ballot.NotAbove prep.ballot

/-- The ballots that a handler may come to: its own, or that of its message when it is not lower. -/
def Raised (start : Node) (event : Event) (ballot : Ballot) : Prop :=
  ballot = start.pax.ballot ∨ ∃ source hdr body, event = .message source ⟨hdr, body⟩ ∧
    ballot = hdr.ballot ∧ start.pax.ballot.NotAbove hdr.ballot

/-- The ballot that a loyal event gives a session is not below its own. -/
theorem Comes.above {pax : Session} {ballot : Ballot} (comes : Comes pax event ballot)
    (loyal : Loyal pax event) : pax.ballot.NotAbove ballot := by
  cases comes with
  -- By how the ballot comes; a prepare is pledged to only if it is newer.
  | pledged pledges =>
    have newer := ppairCompare_eq_gt.mp pledges.newer
    rw [Ballot.notAbove_iff]
    omega
  | crowned crowns =>
    obtain ⟨_, _, _, _, asked, opcode, rfl, heeded, found, crowned⟩ := crowns
    rcases crowned with current | ⟨lost, _, current, higher⟩
    · exact loyal.greeted _ _ _ _ asked opcode heeded found current
    · exact loyal.yielded _ _ _ _ _ asked opcode heeded found lost current higher
  | won completes => exact loyal.completed _ completes

/-- The ballot that a loyal event gives may raise whatever ballot its handler has come to. -/
theorem Raised.raise {ballot taken : Ballot} (raised : Raised start event ballot)
    (comes : Comes start.pax event taken) (loyal : Loyal start.pax event) :
    Raised start event taken ∧ ballot.NotAbove taken := by
  have above := comes.above loyal
  -- A raise in the same handler was by the same message, so to the same ballot.
  obtain ⟨_, _, _, asked, rfl⟩ := comes.asked
  refine ⟨Or.inr ⟨_, _, _, asked, rfl, above⟩, ?_⟩
  rcases raised with rfl | ⟨_, _, _, again, rfl, -⟩
  · exact above
  · rw [asked] at again
    cases again
    exact .refl _

/-- Moves of the handler itself never lower the ballot. -/
theorem Top.ballot {node next : Node} (act : Top start event node next)
    (loyal : Loyal start.pax event) (raised : Raised start event node.pax.ballot) :
    Raised start event next.pax.ballot ∧ node.pax.ballot.NotAbove next.pax.ballot := by
  rcases act.comes with same | comes
  · rw [same]
    exact ⟨raised, .refl _⟩
  · exact raised.raise comes loyal

/-- Moves from within a learn leave the ballot alone. -/
theorem Inner.ballot {config after : Config} (move : Inner start event config after) :
    after.node.pax.ballot = config.node.pax.ballot := by
  -- A learn may depose the proposer, but nobody takes a ballot over by that.
  cases move with
  | nest _ act => exact act.office.2
  | @learn node _ addr inst => exact congrArg Core.ballot (learnt_core node addr inst _)
  | delist => exact congrArg Core.ballot (delist_core _ _)
  | @depose node _ _ paxid _ _ _ replaces =>
    obtain ⟨_, _, _, same⟩ := replaces.eq
    rw [same]
    exact congrArg Core.ballot (delist_core node paxid)
  | enter => rfl
  | next => rfl
  | last => rfl
  | gap => rfl
  | rest => rfl

/-- No move lowers the ballot. -/
theorem Move.ballot {config after : Config} (move : Move start event config after)
    (loyal : Loyal start.pax event) (raised : Raised start event config.node.pax.ballot) :
    Raised start event after.node.pax.ballot ∧
      config.node.pax.ballot.NotAbove after.node.pax.ballot := by
  cases move with
  | top act => exact act.ballot loyal raised
  | inner move =>
    rw [move.ballot]
    exact ⟨raised, .refl _⟩

/-- Nothing that happens beside the log is a promise or an accept. -/
theorem Side.silent {before : Node} {made : List Request} {effect : Effect} {ballot : Ballot}
    (side : Side start event before made effect) :
    ballot ∉ effect.promised ∧ ballot ∉ effect.accepted := by
  -- What goes beside the log is of another opcode.
  rw [Effect.mem_promised, Effect.mem_accepted]
  constructor
  · rintro ⟨_, hdr, _, _, rfl, promise, -⟩
    cases side with
    | send _ _ side =>
      have side := Msg.side_opcode side
      rw [promise] at side
      contradiction
  · rintro ⟨_, hdr, rfl, accept, -⟩
    cases side with
    | send _ _ side =>
      have side := Msg.side_opcode side
      rw [accept] at side
      contradiction
    | hello _ _ opcode =>
      rw [accept] at opcode
      contradiction

/-- A promise that is told answers a prepare, whose ballot is taken over. -/
theorem Tells.promises {before after : Node} {effect : Effect} {ballot : Ballot}
    {made : List Request} (tells : Tells start event made before after effect)
    (promises : ballot ∈ effect.promised) :
    (∃ source hdr body, event = .message source ⟨hdr, body⟩ ∧ hdr.opcode = .prepare) ∧
      ballot = after.pax.ballot := by
  -- The one effect that promises is the answer to a prepare.
  cases tells with
  | side side => exact absurd promises side.silent.1
  | promise asked opcode _ _ _ _ sworn =>
    obtain ⟨_, _, _, _, sent, -, rfl⟩ := Effect.mem_promised.mp promises
    cases sent
    exact ⟨⟨_, _, _, asked, opcode⟩, sworn.symm⟩
  | _ =>
    obtain ⟨_, _, _, _, sent, -, -⟩ := Effect.mem_promised.mp promises
    cases sent

/-- An accept that is told is of the ballot that its handler began with. -/
theorem Tells.accepts {before after : Node} {effect : Effect} {ballot : Ballot}
    {made : List Request} (tells : Tells start event made before after effect)
    (accepts : ballot ∈ effect.accepted) :
    ∃ source hdr body, event = .message source ⟨hdr, body⟩ ∧ hdr.opcode = .decree ∧
      ballot = start.pax.ballot := by
  -- The accept of a decree is the only effect with that opcode.
  cases tells with
  | side side => exact absurd accepts side.silent.2
  | accept asked opcode _ current =>
    obtain ⟨_, _, sent, -, rfl⟩ := Effect.mem_accepted.mp accepts
    cases sent
    exact ⟨_, _, _, asked, opcode, current⟩
  | prepare =>
    obtain ⟨_, _, sent, accept, -⟩ := Effect.mem_accepted.mp accepts
    cases sent
    contradiction
  | _ =>
    obtain ⟨_, _, sent, -, -⟩ := Effect.mem_accepted.mp accepts
    cases sent

/--
What was promised binds: the ballot is not below any promise, and no accept is below a promise that
was sent before it.
-/
structure Faithful (node : Node) : Prop where
  promised : ∀ effect ∈ node.out, ∀ ballot ∈ effect.promised,
    ballot.NotAbove node.pax.ballot
  bound : Bound node.out

/-- An event that asks to accept a decree. -/
def Event.Decrees (event : Event) : Prop :=
  ∃ source hdr body, event = .message source ⟨hdr, body⟩ ∧ hdr.opcode = .decree

/-- In the middle of a handler of a loyal event. -/
structure Binding (start : Node) (event : Event) (node : Node) : Prop extends Faithful node where
  raised : Raised start event node.pax.ballot
  risen : start.pax.ballot.NotAbove node.pax.ballot
  /-- A promise that is there when a decree is accepted was there before it came. -/
  early : event.Decrees → ∀ effect ∈ node.out, ∀ ballot ∈ effect.promised,
    ballot.NotAbove start.pax.ballot

/-- No effect of a learn is a promise or an accept. -/
theorem Teaches.silent {before : Node} {effect : Effect} {ballot : Ballot}
    (teaches : Teaches before effect) : ballot ∉ effect.promised ∧ ballot ∉ effect.accepted := by
  -- What a learn tells is neither kind of message.
  rw [Effect.mem_promised, Effect.mem_accepted]
  constructor
  · rintro ⟨_, _, _, _, rfl, -⟩
    cases teaches
  · rintro ⟨_, _, rfl, -⟩
    cases teaches

/-- Every move of the handler of a loyal event keeps what was promised. -/
theorem Binding.move {config after : Config} (binding : Binding start event config.node)
    (move : Move start event config after) (loyal : Loyal start.pax event)
    (wf : config.node.pax.ilist.WellFormed) : Binding start event after.node := by
  obtain ⟨raised, higher⟩ := move.ballot loyal binding.raised
  -- What the move tells comes after what was told, and may accept only what was held before.
  obtain ⟨_, effects, ⟨-, -, -, out⟩, tells⟩ := move.tells wf
  have promises : ∀ effect ∈ effects, ∀ ballot ∈ effect.promised,
      (∃ source hdr body, event = .message source ⟨hdr, body⟩ ∧ hdr.opcode = .prepare) ∧
        ballot = after.node.pax.ballot := by
    intro effect mem ballot promises
    rcases tells effect mem with tells | teaches
    · exact tells.promises promises
    · exact absurd promises teaches.silent.1
  have accepts : ∀ effect ∈ effects, ∀ ballot ∈ effect.accepted,
      event.Decrees ∧ ballot = start.pax.ballot := by
    intro effect mem ballot accepts
    rcases tells effect mem with tells | teaches
    · obtain ⟨source, hdr, body, asked, opcode, same⟩ := tells.accepts accepts
      exact ⟨⟨source, hdr, body, asked, opcode⟩, same⟩
    · exact absurd accepts teaches.silent.2
  -- A handler that accepts a decree promises nothing.
  have apart : ∀ effect ∈ effects, ∀ ballot, event.Decrees → ballot ∉ effect.promised := by
    rintro effect mem ballot ⟨_, _, _, asked, decree⟩ promised
    obtain ⟨⟨_, _, _, again, prepare⟩, -⟩ := promises effect mem ballot promised
    rw [asked] at again
    cases again
    rw [decree] at prepare
    contradiction
  -- What was promised before is not above the ballot, so an accept keeps every promise.
  constructor
  · constructor
    · intro effect mem ballot promised
      rw [out] at mem
      rcases List.mem_append.mp mem with mem | mem
      · exact (binding.promised effect mem ballot promised).trans higher
      · obtain ⟨-, rfl⟩ := promises effect mem ballot promised
        exact .refl _
    · rw [out, Bound, List.pairwise_append]
      refine ⟨binding.bound, ?_, ?_⟩
      · refine List.pairwise_of_forall_mem_list fun early mem late mem' => ?_
        intro promised told accepted taken
        obtain ⟨decrees, -⟩ := accepts late mem' accepted taken
        exact absurd told (apart early mem promised decrees)
      · intro early mem late mem' promised told accepted taken
        obtain ⟨decrees, rfl⟩ := accepts late mem' accepted taken
        exact binding.early decrees early mem promised told
  · exact raised
  · exact binding.risen.trans higher
  · intro decrees effect mem ballot promised
    rw [out] at mem
    rcases List.mem_append.mp mem with mem | mem
    · exact binding.early decrees effect mem ballot promised
    · exact absurd promised (apart effect mem ballot decrees)

/-- A session that handles a loyal event keeps what it has promised. -/
theorem Handles.faithful {node next : Node} (handles : Handles node event (.ok next))
    (loyal : Loyal node.pax event) (wf : node.pax.ilist.WellFormed) (faithful : Faithful node) :
    Faithful next ∧ node.pax.ballot.NotAbove next.pax.ballot := by
  -- The invariant says besides by what the ballot was raised in this handler.
  have binding : Binding node event next := by
    refine (@Handles.invariant _ _ _ (fun config => Binding node event config.node) handles wf
      (fun _ => ⟨⟨faithful.promised, faithful.bound⟩, Or.inl rfl, .refl _,
        fun _ => faithful.promised⟩) ?_).1 next rfl
    rintro script config after move wf ⟨faithful, raised, risen, early⟩
    obtain ⟨faithful, raised, risen, early⟩ := @Binding.move { node with script := script } event
      config after ⟨faithful, raised, risen, early⟩ move loyal wf
    exact ⟨faithful, raised, risen, early⟩
  exact ⟨binding.toFaithful, binding.risen⟩

/-- A session begins with nothing promised. -/
theorem Begins.faithful {fits : Welcome → Prop} {node : Node} {first : Nat}
    (begins : Begins fits node first) : Faithful node := by
  -- At first the client hears that the session is entered, and is asked for connections.
  have silent : ∀ effect ∈ node.out, ∀ ballot, ballot ∉ effect.promised := by
    intro effect mem ballot promised
    obtain ⟨_, _, _, _, rfl, -⟩ := Effect.mem_promised.mp promised
    rcases begins.out _ mem with told | ⟨_, _, told⟩ <;> cases told
  constructor
  · intro effect mem ballot promised
    exact absurd promised (silent effect mem ballot)
  · refine List.pairwise_of_forall_mem_list fun early mem late mem' => ?_
    intro promised told
    exact absurd told (silent early mem promised)

/--
In a run of loyal events the ballot never decreases, and no decree is accepted that is below a
ballot promised before.
-/
theorem promise_kept {begun node : Node} {first : Nat}
    (begins : Begins (fun _ => True) begun first) (run : Runs Loyal begun node) :
    Bound node.out ∧
      ∀ later, Runs Loyal node later → node.pax.ballot.NotAbove later.pax.ballot := by
  -- The ballot rises along the run, and no promise is above it.
  have bound : ∀ {first later : Node}, Runs Loyal first later → first.pax.ilist.WellFormed →
      Faithful first → later.pax.ilist.WellFormed ∧ Faithful later ∧
        first.pax.ballot.NotAbove later.pax.ballot := by
    intro first later run wf faithful
    refine @Runs.invariant _ _ _ (fun later => later.pax.ilist.WellFormed ∧ Faithful later ∧
      first.pax.ballot.NotAbove later.pax.ballot) run ⟨wf, faithful, .refl _⟩ ?_
    rintro mid event next loyal handles ⟨wf, faithful, risen⟩
    obtain ⟨kept, higher⟩ := handles.faithful loyal wf faithful
    exact ⟨handles.wellFormed wf, kept, risen.trans higher⟩
  obtain ⟨wf, faithful, -⟩ := bound run begins.wellFormed begins.faithful
  exact ⟨faithful.bound, fun later more => (bound more wf faithful).2.2⟩

/-- Ballots are taken over from hellos and from promises only. -/
theorem Loyal.quiet {pax : Session} {event : Event}
    (quiet : ∀ source hdr body, event = .message source ⟨hdr, body⟩ →
      hdr.opcode ≠ .hello ∧ hdr.opcode ≠ .promise) : Loyal pax event where
  -- A ballot is taken over from a hello or from a promise, and neither comes.
  yielded := fun source hdr body _ _ asked opcode =>
    absurd opcode (quiet source hdr body asked).1
  greeted := fun source hdr body _ asked opcode =>
    absurd opcode (quiet source hdr body asked).1
  completed := by
    rintro _ ⟨_, _, source, hdr, body, asked, opcode, -⟩
    exact absurd opcode (quiet source hdr body asked).2

/-- The third member promises to the second, and what it accepts then is not below its promise. -/
theorem promise_kept_follower :
    (∃ effect ∈ follower.sworn.out, ⟨2, 2⟩ ∈ effect.promised) ∧
      (∃ effect ∈ fresh follower.sworn (.ok follower.bound), ⟨2, 2⟩ ∈ effect.accepted) ∧
        Bound follower.bound.out ∧ follower.node.pax.ballot.NotAbove follower.bound.pax.ballot := by
  -- It connects, loses the first, promises to the second and accepts its decree.
  have run : Runs Loyal follower.node follower.bound := by
    refine .step (.step (.step (.step .refl ?_ follower.connects) ?_ follower.loses) ?_
      follower.promises) ?_ follower.accepts
    · exact .quiet (by simp)
    · exact .quiet (by simp)
    · exact .quiet (by simp [follower.prepare])
    · exact .quiet (by simp [follower.decree])
  refine ⟨by decide +kernel, by decide +kernel, ?_⟩
  exact ⟨(promise_kept (.welcome follower trivial) run).1,
    (promise_kept (.welcome follower trivial) .refl).2 follower.bound run⟩

/--
A hello is taken to come from the majority proposer, whose ballot is taken over blindly.

Here the proposer parts an acceptor and is rejected, and loses everybody else before it reconnects.
The acceptor has promised to the next proposer by then, and accepts a decree of the old one.
-/
theorem promise_broken : ∃ sys, System.Reachable sys ∧
    ∃ node ∈ (sys.process [3]).node,
      (∃ effect ∈ node.out, effect.promised = some ⟨2, 2⟩) ∧ node.pax.ballot = ⟨1, 1⟩ ∧
        ¬ Bound node.out :=
  System.exists_played
    (System.assemble [[1], [2], [3]] ++
      -- The first node loses the third, and the second rejects the part.
      [.steps [.cut 1, .eof 1 false, .deliver 0 true, .deliver 0 false],
        -- The third is without the first as well, as is the second then, and promises to it.
        .steps [.eof 1 true, .cut 0, .eof 0 true, .deliver 2 false],
        -- The first reconnects to the third, with a hello and a null in place of the part.
        .steps [.complete 0 true, .deliver 3 true, .deliver 3 true]])
    (by decide +kernel)

end Motmot
