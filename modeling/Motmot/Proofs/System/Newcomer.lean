import Motmot.Proofs.Paxos.Tenure
import Motmot.Proofs.System.Conduct

/-! A newcomer takes the sender of its welcome for the proposer. -/

namespace Motmot

variable {start : Node} {event : Event}

/-- A prepared proposer is under its own ballot, and a prepare is for one of its own. -/
structure Sworn (pax : Session) : Prop where
  prepared : Prepared pax → pax.ballot.id = pax.selfId
  preparing : ∀ prep, pax.prep = some prep → prep.ballot.id = pax.selfId

/--
Events that send a welcome only from a prepared proposer, and make nobody one without a majority.

A refuse is resolved at a node that may have come to prepare in the meantime, and frees the prepare.
-/
structure Introduces (pax : Session) (event : Event) : Prop where
  welcomed : ∀ acc peer, Continues pax event .welcome acc (some peer) → Prepared pax
  refused : ∀ val acc peer, Continues pax event (.ackRefuse val) acc (some peer) →
    ¬ Prepared pax → acc.paxid < pax.selfId
  greeted : ∀ ballot, Impersonates pax event ballot → ballot.id = pax.selfId

/-- A session under a ballot, as whoever it takes for the proposer. -/
theorem Sworn.congr {pax next : Session} (sworn : Sworn pax) (self : next.selfId = pax.selfId)
    (proposer : next.proposer = pax.proposer) (prep : next.prep = pax.prep)
    (ballot : next.ballot = pax.ballot) : Sworn next where
  prepared := by
    rintro ⟨leads, idle⟩
    -- The new session is as prepared and as far with its prepare as the old one.
    rw [ballot, self]
    refine sworn.prepared ⟨?_, prep.symm.trans idle⟩
    rw [isProposer, ← proposer, ← self]
    exact leads
  preparing := by
    intro other preparing
    rw [self]
    exact sworn.preparing other (prep.symm.trans preparing)

/-- Nothing is asked of somebody who does not take himself for the proposer. -/
theorem Sworn.follower {pax next : Session} (sworn : Sworn pax) (self : next.selfId = pax.selfId)
    (follows : isProposer next = false) (prep : next.prep = pax.prep ∨ next.prep = none) :
    Sworn next where
  -- A follower is no proposer, and the prepare is as it was or gone.
  prepared := by
    rintro ⟨leads, -⟩
    rw [follows] at leads
    contradiction
  preparing := by
    intro other preparing
    rw [self]
    rcases prep with same | freed
    · exact sworn.preparing other (same.symm.trans preparing)
    · rw [freed] at preparing
      contradiction

/-- A prepare is begun for our own ballot. -/
theorem beginPrepare_sworn (node : Node) : Sworn (beginPrepare node).pax where
  prepared := by
    -- The prepare is running, so the session is no prepared proposer.
    rintro ⟨-, idle⟩
    contradiction
  preparing := by
    rintro prep preparing
    obtain rfl := Option.some.inj preparing
    rfl

/-- The replacement of a proposer makes nobody a prepared one. -/
theorem Replaces.sworn {node next : Node} (replaces : Replaces node next)
    (sworn : Sworn node.pax) : Sworn next.pax := by
  cases replaces with
  -- Whoever elects another follows, and whoever prepares is not prepared yet.
  | elect remains =>
    obtain ⟨proposer, same⟩ := resetProposer_eq node
    refine sworn.follower ?_ remains (Or.inl ?_)
    · rw [same]
    · rw [same]
  | begin => exact beginPrepare_sworn _

/-- Yielding to somebody higher-ranked leaves the node no proposer. -/
theorem yieldTo_follows {node : Node} {acc : Acceptor} (higher : acc.paxid < node.pax.selfId) :
    isProposer (yieldTo node acc).pax = false := by
  -- Yielding takes the lower of the two for the proposer.
  have polity := yieldTo_polity node acc
  have self : (yieldTo node acc).pax.selfId = node.pax.selfId := congrArg Polity.selfId polity
  have proposer : (yieldTo node acc).pax.proposer = node.pax.proposer.map (min acc.paxid) :=
    congrArg Polity.proposer polity
  rw [isProposer, self, proposer]
  cases node.pax.proposer with
  | none => rfl
  | some current =>
    -- The least of the two is below ourselves.
    have below : min acc.paxid current ≤ acc.paxid := Nat.min_le_left _ _
    have other : min acc.paxid current ≠ node.pax.selfId := by omega
    simpa using other

/-- The ballots of a session in the middle of a handler. -/
structure Swears (start node : Node) : Prop where
  self : node.pax.selfId = start.pax.selfId
  sworn : Sworn node.pax

/-- What happens beside the log concerns no ballot. -/
theorem Swears.core {node next : Node} (swears : Swears start node)
    (core : next.pax.core = node.pax.core) : Swears start next where
  self := (congrArg Core.selfId core).trans swears.self
  sworn := swears.sworn.congr (congrArg Core.selfId core) (congrArg Core.proposer core)
    (congrArg Core.prep core) (congrArg Core.ballot core)

/-- A write to the log or to the counts concerns no ballot either. -/
theorem Swears.write {node next : Node} (swears : Swears start node)
    (self : next.pax.selfId = node.pax.selfId) (proposer : next.pax.proposer = node.pax.proposer)
    (prep : next.pax.prep = node.pax.prep) (ballot : next.pax.ballot = node.pax.ballot) :
    Swears start next :=
  ⟨self.trans swears.self, swears.sworn.congr self proposer prep ballot⟩

/-- Whoever yields to somebody higher-ranked follows. -/
theorem Swears.yield {node : Node} {acc : Acceptor} (swears : Swears start node)
    (higher : acc.paxid < node.pax.selfId) : Swears start (yieldTo node acc) := by
  have self : (yieldTo node acc).pax.selfId = node.pax.selfId :=
    congrArg Polity.selfId (yieldTo_polity node acc)
  -- Only the proposer and the prepare are written, and the ballot stays.
  refine ⟨self.trans swears.self, swears.sworn.follower self (yieldTo_follows higher) ?_⟩
  right
  unfold yieldTo
  split
  · split <;> rfl
  · rfl

/-- Whoever is taken for the proposer is the owner of the ballot, if it is ourselves. -/
theorem Swears.take {node : Node} {paxid : Nat} {ballot : Ballot}
    (self : node.pax.selfId = start.pax.selfId)
    (preparing : ∀ prep, node.pax.prep = some prep → prep.ballot.id = start.pax.selfId)
    (own : paxid = start.pax.selfId → ballot.id = start.pax.selfId) :
    Swears start ((node.setProposer paxid).setBallot ballot) where
  self := self
  sworn := by
    -- Whoever is prepared under the ballot, or prepares it, owns it.
    constructor
    · rintro ⟨leads, -⟩
      have named : paxid = node.pax.selfId := by
        have leads : (some paxid = some node.pax.selfId : Bool) = true := leads
        simpa using leads
      exact (own (named.trans self)).trans self.symm
    · intro prep same
      exact (preparing prep same).trans self.symm

/-- Moves of the handler itself make nobody a prepared proposer under the ballot of another. -/
theorem Top.swears {node next : Node} (act : Top start event node next)
    (introduces : Introduces start.pax event) (init : Sworn start.pax)
    (swears : Swears start node) : Swears start next := by
  -- An insertion writes the log and the cursor.
  have inserted : ∀ (node : Node) (inst : Instance), Swears start node →
      Swears start (instanceInsertAndUpstart node inst) := by
    intro node inst swears
    obtain ⟨_, _, same⟩ := instanceInsertAndUpstart_eq node inst
    rw [same]
    exact swears.write rfl rfl rfl rfl
  cases act with
  | beside prior => exact swears.core prior.core
  | @depose _ mid _ closed prior _ _ replaces =>
    have swears : Swears start mid := (Swears.mk rfl init).core prior.core
    exact ⟨replaces.selfId.trans swears.self, replaces.sworn swears.sworn⟩
  | @promise _ hdr _ _ _ _ acceptor =>
    -- Whoever promises is no proposer.
    have same := acceptorPromise_pax start hdr
    refine ⟨by rw [same], ?_⟩
    rw [same]
    exact init.follower rfl acceptor (Or.inl rfl)
  | store _ _ _ _ stores =>
    obtain ⟨_, _, same⟩ := stores.eq
    rw [same]
    exact swears.write rfl rfl rfl rfl
  | accept _ _ _ _ stores =>
    obtain ⟨_, _, same⟩ := stores.eq
    rw [same]
    exact swears.write rfl rfl rfl rfl
  | commitFresh => exact inserted _ _ swears
  | merge _ _ _ _ _ _ merges =>
    obtain ⟨_, _, same⟩ := merges.eq
    rw [same]
    exact swears.write rfl rfl rfl rfl
  -- A promise is counted, and the prepare goes on under its ballot.
  | @ack _ _ _ _ _ prep _ _ _ preparing =>
    refine ⟨swears.self, ⟨?_, ?_⟩⟩
    · rintro ⟨-, idle⟩
      contradiction
    · intro other same
      obtain rfl := Option.some.inj same
      exact swears.sworn.preparing prep preparing
  | @win _ _ _ _ prep _ _ _ _ preparing =>
    exact ⟨swears.self, fun _ => swears.sworn.preparing prep preparing, swears.sworn.preparing⟩
  | @fill _ _ _ place _ inum =>
    obtain ⟨_, same⟩ := linkScratch_eq (node.bumpReqId.setIlist (node.bumpReqId.pax.ilist.alloc
      (nullInstance node.bumpReqId.pax inum))) place.addr
        ⟨nextAddr node.bumpReqId, nullInstance node.bumpReqId.pax inum⟩
    have filled : Swears start (fillNull node place.addr inum) := by
      rw [fillNull, same]
      exact swears.write rfl rfl rfl rfl
    exact filled.write rfl rfl rfl rfl
  | redecree => exact swears.write rfl rfl rfl rfl
  | @settle _ prep _ preparing won =>
    -- The ballot is the one that was prepared.
    refine ⟨swears.self, ⟨?_, ?_⟩⟩
    · intro
      show node.pax.ballot.id = _
      rw [won]
      exact swears.sworn.preparing prep preparing
    · intro other same
      contradiction
  | @undefer _ inst rest =>
    have freed : Swears start (node.setIdefer rest) := swears.write rfl rfl rfl rfl
    exact (inserted _ (decreeOf node.pax inst) freed).write rfl rfl rfl rfl
  | @redirect _ _ _ prep _ _ _ preparing =>
    refine ⟨swears.self, ⟨?_, ?_⟩⟩
    · rintro ⟨-, idle⟩
      contradiction
    · intro other same
      obtain rfl := Option.some.inj same
      exact swears.sworn.preparing prep preparing
  -- A new prepare is begun under a ballot of our own.
  | rebegin => exact ⟨swears.self, beginPrepare_sworn _⟩
  -- Whoever yields is a follower from now on.
  | @yieldRedirect mid acc _ prior _ _ higher =>
    have prior : Swears start mid := (Swears.mk rfl init).core prior.core
    have higher : acc.paxid < mid.pax.selfId := by
      rw [prior.self]
      exact higher
    exact prior.yield higher
  | @yieldRefuse mid val acc peer prior continues unprepared =>
    have prior : Swears start mid := (Swears.mk rfl init).core prior.core
    have higher : acc.paxid < mid.pax.selfId := by
      rw [prior.self]
      refine introduces.refused val acc peer continues ?_
      rintro ⟨leads, idle⟩
      rw [leads, idle] at unprepared
      simp at unprepared
    exact prior.yield higher
  | @helloYield mid _ hdr _ _ _ prior asked opcode =>
    have prior : Swears start mid := (Swears.mk rfl init).core prior.core
    have own : hdr.inum = start.pax.selfId → hdr.ballot.id = start.pax.selfId :=
      fun own => introduces.greeted _ ⟨_, _, _, asked, opcode, own, rfl⟩
    -- A hello that is heeded makes its sender the proposer, under the ballot that it brings.
    split
    · refine Swears.take prior.self ?_ own
      intro prep preparing
      contradiction
    · refine Swears.take prior.self ?_ own
      rw [← prior.self]
      exact prior.sworn.preparing
  | @helloBallot _ _ hdr _ _ prior asked opcode _ _ current =>
    have same : node.pax.proposer = some hdr.inum :=
      (congrArg Core.proposer prior.core).trans current
    refine ⟨swears.self, ⟨?_, swears.sworn.preparing⟩⟩
    -- If the proposer is ourselves, the hello was in our own name, and brings a ballot of ours.
    rintro ⟨leads, -⟩
    have own : hdr.inum = start.pax.selfId := by
      have leads : isProposer node.pax = true := leads
      simpa [isProposer, same, swears.self] using leads
    exact (introduces.greeted _ ⟨_, _, _, asked, opcode, own, rfl⟩).trans swears.self.symm
  | vote => exact swears.write rfl rfl rfl rfl
  | _ => exact swears.write rfl rfl rfl rfl

/-- What happens to a prepared proposer other than by a message makes no newcomer. -/
theorem Introduces.prepared {pax : Session} {event : Event} (prepared : Prepared pax)
    (quiet : ∀ source msg, event ≠ .message source msg) : Introduces pax event where
  welcomed := fun _ _ _ => prepared
  refused := fun _ _ _ _ unprepared => absurd prepared unprepared
  greeted := by
    rintro _ ⟨_, _, _, asked, -⟩
    exact absurd asked (quiet _ _)

/-- What a client asks for makes no newcomer. -/
theorem Introduces.client (pax : Session) (call : ClientCall) :
    Introduces pax (.client call) where
  welcomed := by
    -- No attempt is completed and no message comes.
    rintro _ _ ⟨_, _, completed, -⟩
    contradiction
  refused := by
    rintro _ _ _ ⟨_, _, completed, -⟩
    contradiction
  greeted := by
    rintro _ ⟨_, _, _, asked, -⟩
    contradiction

/-- Every move makes nobody a prepared proposer under the ballot of another. -/
theorem Move.swears {config after : Config} (move : Move start event config after)
    (introduces : Introduces start.pax event) (init : Sworn start.pax)
    (swears : Swears start config.node) : Swears start after.node := by
  -- Within a learn only the parting of a proposer bears on the office.
  cases move with
  | top act => exact act.swears introduces init swears
  | inner move =>
    cases move with
    | nest _ act =>
      have polity := act.polity
      exact swears.write (congrArg Polity.selfId polity) (congrArg Polity.proposer polity)
        act.office.1 act.office.2
    | @learn node _ addr inst =>
      have core := learnt_core node addr inst (learnRequest node.pax inst.val)
      exact swears.write (congrArg Core.selfId core) (congrArg Core.proposer core)
        (congrArg Core.prep core) (congrArg Core.ballot core)
    | delist => exact swears.core (delist_core _ _)
    | @depose node _ _ paxid _ _ _ replaces =>
      have swears : Swears start (delist node paxid) := swears.core (delist_core node paxid)
      exact ⟨replaces.selfId.trans swears.self, replaces.sworn swears.sworn⟩
    | enter => exact swears
    | next => exact swears.write rfl rfl rfl rfl
    | last => exact swears.write rfl rfl rfl rfl
    | gap => exact swears.write rfl rfl rfl rfl
    | rest => exact swears.write rfl rfl rfl rfl

/-- A session whose welcomes can be relied on. -/
structure Hosts (node : Node) : Prop where
  wellFormed : node.pax.ilist.WellFormed
  kept : node.pax.roster.Kept node.pax.selfId
  sworn : Sworn node.pax

/-- A welcome that lists the newcomer and the owner of its ballot. -/
structure Msg.Introduced (msg : Msg) : Prop where
  sound : msg.Sound
  listed : ∀ session ibase alist ilist, msg.hdr.opcode = .welcome →
    msg.body = .welcome session ibase alist ilist →
      alist.Pairwise (fun x y => x.paxid < y.paxid) ∧
        (∃ packed ∈ alist, packed.paxid = msg.hdr.inum) ∧
          ∃ packed ∈ alist, packed.paxid = msg.hdr.ballot.id

/-- The identifiers on the list are those that the handler began with. -/
theorem Prior.listed {node : Node} (prior : Prior start event node) {acc : Acceptor}
    (mem : acc ∈ start.pax.alist) :
    ∃ packed ∈ node.pax.alist.map acceptorPack, packed.paxid = acc.paxid := by
  have same : acc.identity ∈ node.pax.members := by
    rw [prior.members]
    exact List.mem_map_of_mem mem
  obtain ⟨other, mem, same⟩ := List.mem_map.mp same
  exact ⟨acceptorPack other, List.mem_map_of_mem mem, congrArg Prod.fst same⟩

/-- A welcome is sent by the owner of its ballot, over the channel that was made for it. -/
theorem Tells.welcomes {before after : Node} {made : List Request} {peer : PeerId} {hdr : Header}
    {session : Uuid} {ibase : Nat} {alist : List PackedAcceptor} {ilist : List PackedInstance}
    (tells : Tells start event made before after
      (.send peer ⟨hdr, .welcome session ibase alist ilist⟩)) (opcode : hdr.opcode = .welcome)
    (introduces : Introduces start.pax event) (init : Hosts start) :
    (alist.Pairwise (fun x y => x.paxid < y.paxid) ∧
      (∃ packed ∈ alist, packed.paxid = hdr.inum) ∧
        ∃ packed ∈ alist, packed.paxid = hdr.ballot.id) ∧
      hdr.ballot.id = start.pax.selfId ∧ ∃ handle, event = .connected handle (some peer) := by
  -- Only the continuation of a welcome packs one.
  cases tells with
  | side side =>
    cases side with
    | send _ _ side =>
      have side := Msg.side_opcode side
      rw [opcode] at side
      contradiction
  | @welcome acc _ prior continues =>
    have prepared := introduces.welcomed acc peer continues
    -- The ballot is the session's own, for a prepared proposer sends it.
    have ballot : before.pax.ballot.id = start.pax.selfId := by
      rw [show before.pax.ballot = start.pax.ballot from congrArg Core.ballot prior.core]
      exact init.sworn.prepared prepared
    have kept : before.pax.roster.Kept start.pax.selfId := prior.opened.kept init.kept
    obtain ⟨ours, mem, named⟩ := kept.listed
    have listed := prior.listed continues.mem
    obtain ⟨handle, _, completed, -⟩ := continues
    refine ⟨⟨List.pairwise_map.mpr kept.ranked, listed,
      acceptorPack ours, List.mem_map_of_mem mem, named.trans ballot.symm⟩, ballot, handle,
        completed⟩

/-- What a session that may be relied on sends can be relied on. -/
theorem Tells.introduced {before after : Node} {peer : PeerId} {msg : Msg}
    {made : List Request} (tells : Tells start event made before after (.send peer msg))
    (introduces : Introduces start.pax event) (init : Hosts start)
    (wf : before.pax.ilist.WellFormed) : msg.Introduced where
  sound := tells.sound init.wellFormed wf
  listed := by
    obtain ⟨hdr, body⟩ := msg
    rintro session ibase alist ilist opcode rfl
    exact (tells.welcomes opcode introduces init).1

/-- A session that may be relied on remains one, and what it sends is told by its moves. -/
theorem Handles.hosts {node : Node} {result : Result} (handles : Handles node event result)
    (introduces : Introduces node.pax event) (hosts : Hosts node) :
    (∀ next, result = .ok next → Hosts next) ∧
      ∀ peer msg, .send peer msg ∈ fresh node result → ∃ script made before after,
        Tells { node with script := script } event made before after (.send peer msg) ∧
          before.pax.ilist.WellFormed := by
  -- Both invariants go through the moves together.
  have moves : ∀ {script : List Visit} {config after : Config},
      Move { node with script := script } event config after →
        Manned node config ∧ Swears node config.node →
          Manned node after ∧ Swears node after.node := by
    rintro script config after move ⟨manned, swears⟩
    have manned := @Manned.move { node with script := script } event config after
      ⟨manned.self, manned.kept⟩ move hosts.kept
    have swears := @Move.swears { node with script := script } event config after move
      introduces hosts.sworn ⟨swears.self, swears.sworn⟩
    exact ⟨⟨manned.self, manned.kept⟩, swears.self, swears.sworn⟩
  constructor
  · rintro next rfl
    obtain ⟨manned, swears⟩ := (@Handles.invariant _ _ _ (fun config => Manned node config ∧
      Swears node config.node) handles hosts.wellFormed
        (fun _ => ⟨⟨rfl, hosts.kept⟩, rfl, hosts.sworn⟩) fun move _ => moves move).1 next rfl
    exact ⟨handles.wellFormed hosts.wellFormed, manned.self.symm ▸ manned.kept, swears.sworn⟩
  · -- What is sent is told by a move, whose state before it keeps the log in order.
    intro peer msg sent
    obtain ⟨script, config, wf, -, ⟨after, _, -, tells⟩ | teaches⟩ :=
      @Handles.tells _ _ _ (fun _ => True) handles hosts.wellFormed (fun _ => trivial)
        (fun _ _ _ => trivial) _ sent
    · exact ⟨script, _, config.node, after.node, tells, wf⟩
    · cases teaches

/-- What sessions rely on when they take up a newcomer is upheld by all of them. -/
theorem introduces_upholds : System.Upholds Introduces Hosts Msg.Introduced where
  wellFormed := Hosts.wellFormed
  starts := by
    intro session id
    -- The founder owns the ballot that it starts with.
    have begins : Begins (fun _ => True) (paxosStart session id) 2 := .start session id
    refine ⟨begins.wellFormed, ?_, fun _ => rfl, ?_⟩
    · exact (Begins.start session id : Begins (fun _ => False) _ _).kept fun _ => False.elim
    · intro prep preparing
      contradiction
  sound := Msg.Introduced.sound
  greets := by
    intro welcome opcode introduced
    -- The welcome lists its owner, so the newcomer knows the proposer.
    have begins : Begins Welcome.Peopled welcome.node welcome.node.pax.ihole := by
      obtain ⟨ranked, newcomer, -⟩ := introduced.listed _ _ _ _ opcode rfl
      exact .welcome welcome ⟨ranked, newcomer⟩
    have polity := welcome.polity
    have self : welcome.node.pax.selfId = welcome.hdr.inum := congrArg Polity.selfId polity
    have proposer := congrArg Polity.proposer polity
    change welcome.node.pax.proposer = _ at proposer
    have entered : welcome.node.pax.ballot = welcome.hdr.ballot ∧ welcome.node.pax.prep = none :=
      ⟨congrArg Core.ballot welcomeAcceptors_core, congrArg Core.prep welcomeAcceptors_core⟩
    refine ⟨begins.wellFormed, begins.kept fun _ => id, ?_, ?_⟩
    · rintro ⟨leads, -⟩
      rw [entered.1, self]
      -- The newcomer is not prepared, unless the ballot is its own.
      rw [isProposer, proposer, self] at leads
      -- Only the owner of the ballot can have been taken for the proposer.
      split at leads
      · simpa using leads
      · simp at leads
    · intro prep preparing
      rw [entered.2] at preparing
      contradiction
  keeps := by
    intro node event next hosts introduces _ handles
    exact (handles.hosts introduces hosts).1 next rfl
  sends := by
    intro node event result hosts introduces _ handles peer msg sent
    obtain ⟨script, _, before, after, tells, wf⟩ := (handles.hosts introduces hosts).2 peer msg sent
    exact tells.introduced introduces ⟨hosts.wellFormed, hosts.kept, hosts.sworn⟩ wf

namespace System

variable {sys : System}

/-- A message was put on its way to an end by a session, named by its identifier then, over the
other end of the channel. -/
def SentBy (allowed : System → Step → Prop) (first last : System) (paxid channel : Nat)
    (second : Bool) (msg : Msg) : Prop :=
  ∃ before after choice step id event node, Conducts allowed first before ∧ allowed before step ∧
    before.step choice step = some after ∧ Conducts allowed after last ∧
      before.occasion step = some (id, event) ∧ (before.process id).node = some node ∧
        node.pax.selfId = paxid ∧ after.Owns id channel (!second) ∧
          ¬ before.Waits channel second msg ∧ after.Waits channel second msg

/-- What was sent stays sent. -/
theorem SentBy.later {allowed : System → Step → Prop} {first last next : System}
    {paxid channel : Nat} {second : Bool} {msg : Msg} {choice : Choice} {step : Step}
    (sent : SentBy allowed first last paxid channel second msg) (ok : allowed last step)
    (stepped : last.step choice step = some next) :
    SentBy allowed first next paxid channel second msg := by
  obtain ⟨before, after, earlier, turn, id, event, node, run, allows, taken, more, rest⟩ := sent
  exact ⟨before, after, earlier, turn, id, event, node, run, allows, taken,
    .step more ok stepped, rest⟩

/-- Handles of different ends are different. -/
theorem peerOf_inj {x y : Nat} {a b : Bool} (same : peerOf x a = peerOf y b) : x = y ∧ a = b := by
  constructor
  · rw [← peerOf_channel x a, same, peerOf_channel]
  · rw [← peerOf_second x a, same, peerOf_second]

/-- A welcome on its way was sent by the owner of its ballot, who is at the other end. -/
theorem welcome_sent (run : Conducts (Each Introduces) init sys) {channel : Nat} {second : Bool}
    {hdr : Header} {session : Uuid} {ibase : Nat} {alist : List PackedAcceptor}
    {ilist : List PackedInstance} (opcode : hdr.opcode = .welcome)
    (waits : sys.Waits channel second ⟨hdr, .welcome session ibase alist ilist⟩) :
    SentBy (Each Introduces) init sys hdr.ballot.id channel second
      ⟨hdr, .welcome session ibase alist ilist⟩ := by
  -- By induction on the run, down to the step in which the welcome was sent.
  induction run with
  | refl =>
    obtain ⟨chan, at_, -⟩ := waits
    contradiction
  | @step sys next choice step run ok stepped ih =>
    by_cases before : sys.Waits channel second ⟨hdr, .welcome session ibase alist ilist⟩
    · exact (ih before).later ok stepped
    · -- The message is new, so the handler that ran in this step has sent it.
      have upheld := introduces_upholds.run (.init _ _) run
      have turn := step_turn stepped
      generalize what : sys.occasion step = occasion at turn
      have sent : ∀ {effects}, Grows sys next effects →
          .send (peerOf channel (!second)) ⟨hdr, .welcome session ibase alist ilist⟩ ∈ effects :=
        fun grows => (grows.waits waits).resolve_left before
      cases turn with
      -- Nothing but a handler sends a welcome.
      | idle _ _ _ _ grows => exact absurd (sent grows) List.not_mem_nil
      | start _ _ _ _ _ grows => exact absurd (sent grows) List.not_mem_nil
      | greet _ _ _ _ _ _ grows =>
        rcases acceptorAckWelcome_out _ (sent grows) with told | ⟨_, _, told⟩ <;> cases told
      | @handle id event node result up live arrives handles _ _ _ grows =>
        have hosts := upheld.live id node up live
        have introduces := ok id event what node live
        obtain ⟨script, _, mid, after, tells, wf⟩ :=
          (handles.hosts introduces hosts).2 _ _ (sent grows)
        obtain ⟨-, ballot, handle, completed⟩ := tells.welcomes opcode introduces
          ⟨hosts.wellFormed, hosts.kept, hosts.sworn⟩
        subst completed
        obtain ⟨other, same, owns⟩ := arrives
        obtain ⟨rfl, far⟩ := peerOf_inj same
        refine ⟨sys, next, choice, step, id, _, node, run, ok, stepped, .refl, what, live,
          ballot.symm, ?_, before, waits⟩
        rw [far]
        -- The continuation was that of the channel, so its owner is at the other end.
        exact owns

/-- The log of the first node when it welcomes the second. -/
def welcomed.log : List PackedInstance :=
  [{ hdr := ⟨7, ⟨1, 1⟩, .decree, 1⟩, committed := true, val := ⟨.join, ⟨1, 1⟩, 0⟩ },
    { hdr := ⟨7, ⟨1, 1⟩, .commit, 2⟩, committed := true, val := ⟨.join, ⟨1, 2⟩, 0⟩ }]

end System

end Motmot
