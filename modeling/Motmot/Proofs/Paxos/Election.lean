import Motmot.Proofs.Paxos.Learning
import Motmot.Proofs.Paxos.Roster
import Motmot.System.Schedule

/-! The proposer is the first live acceptor, as long as nobody before it is connected unseen. -/

namespace Motmot

variable {start : Node} {event : Event} {owner leader : Nat}

/-- A leader is live, and nobody live outranks it. -/
structure Led (owner : Nat) (list : List Acceptor) (leader : Nat) : Prop where
  alive : ∃ acc ∈ list, acc.paxid = leader ∧ acc.alive owner = true
  first : ∀ acc ∈ list, acc.alive owner = true → leader ≤ acc.paxid

/-- The first live acceptor of a ranked list leads. -/
theorem Ranked.led {list : List Acceptor} (ranked : Ranked list) {acc : Acceptor}
    (found : list.find? (Acceptor.alive owner) = some acc) : Led owner list acc.paxid := by
  -- The list is cut at the first live acceptor, with the dead ones in front of it.
  obtain ⟨live, lower, upper, rfl, dead⟩ := List.find?_eq_some_iff_append.mp found
  refine ⟨⟨acc, by simp, rfl, live⟩, fun other mem alive => ?_⟩
  rcases List.mem_append.mp mem with mem | mem
  · exact absurd alive (by simpa using dead other mem)
  · rcases List.mem_cons.mp mem with rfl | mem
    · exact Nat.le_refl _
    · exact Nat.le_of_lt (ranked.around.2 other mem)

namespace Led

variable {lower upper : List Acceptor} {acc : Acceptor}

/-- A leader is the first live acceptor of a ranked list. -/
theorem find {list : List Acceptor} (led : Led owner list leader) (ranked : Ranked list) :
    ∃ acc, list.find? (Acceptor.alive owner) = some acc ∧ acc.paxid = leader := by
  obtain ⟨other, mem, same, live⟩ := led.alive
  -- The search cannot fail, since the leader is alive; what it finds comes first.
  cases found : list.find? (Acceptor.alive owner) with
  | none =>
    have dead := List.find?_eq_none.mp found other mem
    contradiction
  | some acc =>
    have first := ranked.led found
    have after := first.first other mem live
    have before := led.first acc (List.mem_of_find?_eq_some found) (List.find?_some found)
    exact ⟨acc, rfl, by omega⟩

/-- The loss of a channel, other than that to the leader, keeps the leader. -/
theorem lose (led : Led owner (lower ++ acc :: upper) leader)
    (other : acc.paxid = leader → acc.paxid = owner) :
    Led owner (lower ++ { acc with peer := none } :: upper) leader := by
  -- The leader may only be detached if it is ourselves, and we are live in any case.
  constructor
  · obtain ⟨first, mem, same, live⟩ := led.alive
    rcases List.mem_append.mp mem with mem | mem
    · exact ⟨first, List.mem_append_left _ mem, same, live⟩
    · rcases List.mem_cons.mp mem with rfl | mem
      · refine ⟨_, List.mem_append_right _ List.mem_cons_self, same, ?_⟩
        simp [Acceptor.alive, other same]
      · exact ⟨first, List.mem_append_right _ (List.mem_cons_of_mem _ mem), same, live⟩
  · intro x mem live
    rcases List.mem_append.mp mem with mem | mem
    · exact led.first x (List.mem_append_left _ mem) live
    · rcases List.mem_cons.mp mem with rfl | mem
      · refine led.first acc (List.mem_append_right _ List.mem_cons_self) ?_
        have ours : acc.paxid = owner := by simpa [Acceptor.alive] using live
        simp [Acceptor.alive, ours]
      · exact led.first x (List.mem_append_right _ (List.mem_cons_of_mem _ mem)) live

/-- With a new channel, the higher-ranked of its acceptor and the leader leads. -/
theorem gain (led : Led owner (lower ++ acc :: upper) leader) (peer : PeerId) :
    Led owner (lower ++ { acc with peer := some peer } :: upper) (min acc.paxid leader) := by
  -- The new channel can only put its own acceptor in front.
  constructor
  · rcases Nat.le_total acc.paxid leader with higher | lower'
    · rw [Nat.min_eq_left higher]
      exact ⟨_, List.mem_append_right _ List.mem_cons_self, rfl, by simp [Acceptor.alive]⟩
    · rw [Nat.min_eq_right lower']
      -- The leader is still live, also if it is the acceptor that got the channel.
      obtain ⟨first, mem, same, live⟩ := led.alive
      rcases List.mem_append.mp mem with mem | mem
      · exact ⟨first, List.mem_append_left _ mem, same, live⟩
      · rcases List.mem_cons.mp mem with rfl | mem
        · exact ⟨_, List.mem_append_right _ List.mem_cons_self, same, by simp [Acceptor.alive]⟩
        · exact ⟨first, List.mem_append_right _ (List.mem_cons_of_mem _ mem), same, live⟩
  · intro x mem live
    rcases List.mem_append.mp mem with mem | mem
    · exact Nat.le_trans (Nat.min_le_right _ _) (led.first x (List.mem_append_left _ mem) live)
    · rcases List.mem_cons.mp mem with rfl | mem
      · exact Nat.min_le_left _ _
      · exact Nat.le_trans (Nat.min_le_right _ _)
          (led.first x (List.mem_append_right _ (List.mem_cons_of_mem _ mem)) live)

/-- Whoever enters behind the leader keeps it. -/
theorem enter (led : Led owner (lower ++ upper) leader) (behind : leader ≤ acc.paxid) :
    Led owner (lower ++ acc :: upper) leader := by
  constructor
  · -- The leader is still on the list.
    obtain ⟨first, mem, same, live⟩ := led.alive
    refine ⟨first, ?_, same, live⟩
    simp only [List.mem_append, List.mem_cons] at mem ⊢
    tauto
  · -- The newcomer comes behind the leader, and everybody else was there before.
    intro x mem live
    simp only [List.mem_append, List.mem_cons] at mem
    rcases mem with mem | rfl | mem
    · exact led.first x (List.mem_append_left _ mem) live
    · exact behind
    · exact led.first x (List.mem_append_right _ mem) live

/-- Whoever leaves, other than the leader, keeps it. -/
theorem leave (led : Led owner (lower ++ acc :: upper) leader) (other : acc.paxid ≠ leader) :
    Led owner (lower ++ upper) leader := by
  -- The leader is among those who are left.
  constructor
  · obtain ⟨first, mem, same, live⟩ := led.alive
    refine ⟨first, ?_, same, live⟩
    simp only [List.mem_append, List.mem_cons] at mem ⊢
    rcases mem with mem | rfl | mem
    · exact Or.inl mem
    · exact absurd same other
    · exact Or.inr mem
  · intro x mem live
    refine led.first x ?_ live
    simp only [List.mem_append, List.mem_cons] at mem ⊢
    tauto

end Led

/-- The proposer leads. -/
def Polity.Elected (polity : Polity) : Prop :=
  ∃ leader, polity.proposer = some leader ∧ Led polity.selfId polity.roster.alist leader

/-- Events by which no channel comes or goes in front of the proposer unseen. -/
structure Elects (pax : Session) (event : Event) : Prop where
  /-- No continuation but those that yield reaches somebody who outranks the proposer. -/
  reach : ∀ purpose acc peer proposer, Continues pax event purpose acc (some peer) →
    Attaches pax acc purpose → pax.proposer = some proposer → acc.paxid < proposer →
      purpose = .ackRedirect ∨ ∃ val, purpose = .ackRefuse val
  /-- No continuation takes the channel to the proposer away. -/
  fail : ∀ purpose acc, Continues pax event purpose acc none → Attaches pax acc purpose →
    pax.proposer = some acc.paxid → acc.paxid = pax.selfId

/-- A write to the channel of a listed acceptor, as the list that it leaves. -/
theorem Led.of_setPeer {node : Node} {acc : Acceptor} {peer : Option PeerId} {next : Nat}
    (ranked : Ranked node.pax.alist) (mem : acc ∈ node.pax.alist)
    (led : ∀ lower upper, node.pax.alist = lower ++ acc :: upper →
      Led owner (lower ++ { acc with peer := peer } :: upper) next) :
    Led owner (node.setPeer acc.paxid peer).pax.alist next := by
  obtain ⟨lower, upper, whole, written⟩ := setPeer_alist ranked mem peer
  rw [written]
  exact led lower upper whole

/-- What an event does to the channels keeps the leader, unless it deposes or yields. -/
theorem Opens.led {roster : Roster} (opens : Opens start event roster)
    (elects : Elects start.pax event) (stays : ¬ Deposes start.pax event)
    (keeps : ¬ Yields start.pax event) (ranked : Ranked start.pax.alist)
    (proposer : start.pax.proposer = some leader)
    (led : Led start.pax.selfId start.pax.alist leader) :
    Led start.pax.selfId roster.alist leader := by
  -- A channel to somebody who does not outrank the leader changes nothing.
  have gained : ∀ {acc} peer, acc ∈ start.pax.alist → leader ≤ acc.paxid →
      Led start.pax.selfId (start.setPeer acc.paxid (some peer)).pax.alist leader := by
    intro acc peer mem behind
    refine .of_setPeer ranked mem fun lower upper whole => ?_
    have next := (whole ▸ led : Led _ (lower ++ acc :: upper) leader).gain peer
    rw [Nat.min_eq_right behind] at next
    exact next
  have lost : ∀ {acc}, acc ∈ start.pax.alist → (acc.paxid = leader → acc.paxid = start.pax.selfId) →
      Led start.pax.selfId (start.setPeer acc.paxid none).pax.alist leader := by
    intro acc mem other
    refine .of_setPeer ranked mem fun lower upper whole => ?_
    exact (whole ▸ led : Led _ (lower ++ acc :: upper) leader).lose other
  -- Channels that come in front of the leader are yields, and its own loss is a deposition.
  cases opens with
  | same => exact led
  | @attach purpose acc chan continues attaches =>
    cases chan with
    | none =>
      exact lost continues.mem fun same => elects.fail _ _ continues attaches (same ▸ proposer)
    | some peer =>
      refine gained peer continues.mem (Nat.le_of_not_lt fun higher => keeps ?_)
      exact .continue (elects.reach _ _ _ _ continues attaches proposer higher) continues attaches
        proposer higher
  | greet asked opcode heeded found dead =>
    obtain ⟨mem, named⟩ := SortedList.findFwd_mem found
    refine gained _ mem (Nat.le_of_not_lt fun higher => keeps ?_)
    exact .hello asked opcode heeded found dead proposer (named ▸ higher)
  | replace _ _ _ found held =>
    obtain ⟨mem, -⟩ := SortedList.findFwd_mem found
    exact gained _ mem (led.first _ mem (by simp [Acceptor.alive, held]))
  | wait => exact led
  | @lose source acc dropped found =>
    refine lost (List.mem_of_find?_eq_some found) fun same => ?_
    by_contra other
    refine stays ⟨source, acc, dropped, found, ?_, same ▸ proposer⟩
    rw [isProposer, proposer, ← same]
    simpa using other

/-- The replacement of a proposer elects the first live acceptor. -/
theorem Replaces.elected {node next : Node} (replaces : Replaces node next)
    (kept : node.pax.roster.Kept node.pax.selfId) : next.pax.polity.Elected := by
  have ranked : Ranked node.pax.alist := kept.ranked
  obtain ⟨ours, mem, named⟩ := kept.listed
  -- We are live ourselves, so somebody is first.
  obtain ⟨acc, first⟩ : ∃ acc, firstLive node.pax = some acc := by
    refine Option.isSome_iff_exists.mp (List.find?_isSome.mpr ⟨ours, mem, ?_⟩)
    simp [named]
  have led : Led node.pax.selfId node.pax.alist acc.paxid := ranked.led first
  have reset : resetProposer node = node.setProposer acc.paxid := by
    simp only [resetProposer, first]
  -- Either way the office goes to the first of them.
  cases replaces with
  | elect =>
    rw [reset]
    exact ⟨acc.paxid, rfl, led⟩
  | begin =>
    rw [reset]
    exact ⟨acc.paxid, rfl, led⟩

/-- However a handler turns, the proposer leads. -/
theorem Turns.elected {polity : Polity} (turns : Turns start event polity)
    (elects : Elects start.pax event) (kept : start.pax.roster.Kept start.pax.selfId)
    (elected : start.pax.polity.Elected) : polity.Elected := by
  obtain ⟨leader, proposer, led⟩ := elected
  have proposer : start.pax.proposer = some leader := proposer
  have led : Led start.pax.selfId start.pax.alist leader := led
  -- The channels change under the leader, or it is replaced, or yielded to.
  cases turns with
  | opened opens stays keeps =>
    exact ⟨leader, proposer, opens.led elects stays keeps kept.ranked proposer led⟩
  | deposed self opens replaces => exact replaces.elected (self.symm ▸ opens.kept kept)
  | @yielded acc peer mem =>
    refine ⟨min acc.paxid leader, by rw [proposer]; rfl, ?_⟩
    refine .of_setPeer kept.ranked mem fun lower upper whole => ?_
    exact (whole ▸ led : Led _ (lower ++ acc :: upper) leader).gain peer

/-- A session in the middle of a handler whose proposer leads. -/
structure Governed (start : Node) (config : Config) : Prop where
  self : config.node.pax.selfId = start.pax.selfId
  kept : config.node.pax.roster.Kept start.pax.selfId
  elected : config.node.pax.polity.Elected
  past : start.pax.selfId < config.node.pax.ihole

/-- The same people under the same leader. -/
theorem Governed.congr {config after : Config} (governed : Governed start config)
    (same : after.node.pax.polity = config.node.pax.polity)
    (hole : config.node.pax.ihole ≤ after.node.pax.ihole) : Governed start after where
  -- All of it is read off the people, the proposer and the hole.
  self := (congrArg Polity.selfId same).trans governed.self
  kept := by
    have roster : after.node.pax.roster = config.node.pax.roster := congrArg Polity.roster same
    rw [roster]
    exact governed.kept
  elected := by
    rw [same]
    exact governed.elected
  past := Nat.lt_of_lt_of_le governed.past hole

/-- A join enters behind us, and so behind the leader. -/
theorem Governed.enlist {node : Node} {loops after : List Loop} {addr : Addr} {inst : Instance}
    {req : Option Request} (governed : Governed start ⟨node, loops⟩)
    (hole : inst.hdr.inum = node.pax.ihole) :
    Governed start ⟨learnt node addr inst req, after⟩ := by
  have past : node.pax.ihole ≤ (learnt node addr inst req).pax.ihole :=
    Nat.le_of_eq (learnt_ihole node addr inst req).symm
  -- Only a join changes the list, and it enters under the number of the hole.
  rcases learnt_polity node addr inst req with same | ⟨joined, same⟩
  · exact governed.congr same past
  · obtain ⟨self, kept, ⟨leader, proposer, led⟩, before⟩ := governed
    have self : node.pax.selfId = start.pax.selfId := self
    have led : Led node.pax.selfId node.pax.alist leader := led
    have roster : (learnt node addr inst req).pax.roster =
        (Motmot.enlist node inst.hdr.inum joined).pax.roster := congrArg Polity.roster same
    refine ⟨(congrArg Polity.selfId same).trans self, ?_, ?_, Nat.lt_of_lt_of_le before past⟩
    · show (learnt node addr inst req).pax.roster.Kept _
      rw [roster]
      exact enlist_kept kept _ _
    · show (learnt node addr inst req).pax.polity.Elected
      rw [same]
      refine ⟨leader, proposer, ?_⟩
      rcases enlist_roster kept inst.hdr.inum joined with
        unchanged | ⟨lower, upper, peer, whole, below, above, entered⟩
      · rw [unchanged]
        exact led
      · rw [entered]
        refine (whole ▸ led : Led _ (lower ++ upper) leader).enter ?_
        -- We are live and listed, so the leader does not come behind us.
        obtain ⟨ours, mem, named⟩ := kept.listed
        have named : ours.paxid = start.pax.selfId := named
        have first := led.first ours mem (by simp [Acceptor.alive, named, self])
        have before : start.pax.selfId < node.pax.ihole := before
        show leader ≤ inst.hdr.inum
        omega

/-- Every move of an event that elects keeps the leader. -/
theorem Governed.move {config after : Config} (governed : Governed start config)
    (move : Move start event config after) (elects : Elects start.pax event)
    (kept : start.pax.roster.Kept start.pax.selfId) (elected : start.pax.polity.Elected) :
    Governed start after := by
  -- The leader is moved by the channels, by a part of its own and by nothing else.
  cases move with
  | top act =>
    have hole := act.ihole
    rcases act.polity with same | turns
    · exact governed.congr same (Nat.le_of_eq hole.symm)
    · obtain ⟨opens, self⟩ := turns.opens
      exact ⟨self, opens.kept kept, turns.elected elects kept elected, hole ▸ governed.past⟩
  | inner move =>
    cases move with
    | nest _ act => exact governed.congr act.polity (Nat.le_of_eq act.ihole.symm)
    | enter => exact governed.congr rfl (Nat.le_refl _)
    | learn _ hole => exact governed.enlist hole
    -- The part of somebody else than the leader is learned.
    | @delist node _ _ paxid other stays =>
      obtain ⟨self, kept, ⟨leader, proposer, led⟩, past⟩ := governed
      have self : node.pax.selfId = start.pax.selfId := self
      have proposer : node.pax.proposer = some leader := proposer
      have led : Led node.pax.selfId node.pax.alist leader := led
      refine ⟨(delist_selfId _ _).trans self, delist_kept kept (self ▸ other), ?_,
        (delist_ihole node paxid).symm ▸ past⟩
      show (delist node paxid).pax.polity.Elected
      rw [delist_polity]
      refine ⟨leader, proposer, ?_⟩
      rcases delist_roster kept paxid with unchanged | ⟨lower, acc, upper, whole, rfl, removed⟩
      · rw [unchanged]
        exact led
      · rw [removed]
        refine (whole ▸ led : Led _ (lower ++ acc :: upper) leader).leave fun same => stays ?_
        exact same ▸ proposer
    -- The part of the leader is learned, and the first live acceptor takes over.
    | @depose node _ _ paxid _ other _ replaces =>
      obtain ⟨self, kept, -, past⟩ := governed
      have self : node.pax.selfId = start.pax.selfId := self
      have removed := delist_kept kept (self ▸ other : paxid ≠ start.pax.selfId)
      have who := (delist_selfId node paxid).trans self
      refine ⟨replaces.selfId.trans who, ?_, replaces.elected (who.symm ▸ removed), ?_⟩
      · rw [replaces.roster]
        exact removed
      · show _ < Session.ihole _
        rw [replaces.ihole, delist_ihole]
        exact past
    | next => exact governed.congr rfl (Nat.le_succ _)
    | last => exact governed.congr rfl (Nat.le_refl _)
    | gap => exact governed.congr rfl (Nat.le_refl _)
    | rest => exact governed.congr rfl (Nat.le_refl _)

/-- What holds of the leader between handlers. -/
structure Session.Governed (pax : Session) : Prop where
  kept : pax.roster.Kept pax.selfId
  elected : pax.polity.Elected
  past : pax.selfId < pax.ihole

/-- An event that elects, once it is handled, leaves the proposer leading. -/
theorem Handles.governed {node next : Node} (handles : Handles node event (.ok next))
    (elects : Elects node.pax event) (wf : node.pax.ilist.WellFormed)
    (governed : node.pax.Governed) : next.pax.Governed := by
  obtain ⟨kept, elected, past⟩ := governed
  -- Every move keeps the people and their leader, if the event elects.
  have after : Motmot.Governed node ⟨next, []⟩ :=
    (@Handles.invariant _ _ _ (Motmot.Governed node) handles wf
      (fun _ => ⟨rfl, kept, elected, past⟩) fun {script _ _} move _ governed =>
        have after := @Governed.move { node with script := script } _ _ _
          ⟨governed.1, governed.2, governed.3, governed.4⟩ move elects kept elected
        ⟨after.1, after.2, after.3, after.4⟩).1 next rfl
  have self : next.pax.selfId = node.pax.selfId := after.self
  exact ⟨self.symm ▸ after.kept, after.elected, self.symm ▸ after.past⟩

/-- A welcome from the owner of its ballot, who outranks the newcomer, after the newcomer's join. -/
structure Welcome.Seated (welcome : Welcome) : Prop extends Welcome.Peopled welcome where
  leader : ∃ packed ∈ welcome.alist, packed.paxid = welcome.hdr.ballot.id
  higher : welcome.hdr.ballot.id < welcome.hdr.inum
  joined : welcome.hdr.inum < welcome.node.pax.ihole

/-- A session begins with its proposer leading. -/
theorem Begins.governed {node : Node} {first : Nat} (begins : Begins Welcome.Seated node first) :
    node.pax.Governed := by
  have kept := begins.kept fun _ seated => seated.toPeopled
  -- The founder leads itself, and a newcomer is led by the owner of the ballot.
  cases begins with
  | start session desc =>
    refine ⟨kept, ⟨1, rfl, ⟨_, List.mem_singleton_self _, rfl, rfl⟩, fun acc mem _ => ?_⟩,
      Nat.lt_succ_self 1⟩
    obtain rfl := List.mem_singleton.mp mem
    exact Nat.le_refl 1
  | welcome welcome seated =>
    have self : welcome.node.pax.selfId = welcome.hdr.inum :=
      congrArg Polity.selfId welcome.polity
    refine ⟨kept, ?_, self.symm ▸ seated.joined⟩
    -- The proposer is listed with the channel that the welcome came over.
    obtain ⟨packed, mem, named⟩ := seated.leader
    have known : welcome.alist.any (fun packed => packed.paxid = welcome.hdr.ballot.id) = true :=
      List.any_eq_true.mpr ⟨packed, mem, by simpa using named⟩
    rw [welcome.polity, known]
    refine ⟨welcome.hdr.ballot.id, rfl, ⟨_, List.mem_map_of_mem mem, named, ?_⟩, ?_⟩
    · simp [Acceptor.alive, welcomedAcceptor, named]
    · intro acc mem live
      obtain ⟨other, -, rfl⟩ := List.mem_map.mp mem
      by_cases leads : other.paxid = welcome.hdr.ballot.id
      · exact Nat.le_of_eq leads.symm
      · -- Nobody else is live but the newcomer.
        have ours : other.paxid = welcome.hdr.inum := by
          simpa [Acceptor.alive, welcomedAcceptor, leads] using live
        show _ ≤ other.paxid
        rw [ours]
        exact Nat.le_of_lt seated.higher

/-- A session elects by connections that are made; whatever else happens to it is allowed. -/
theorem Elects.quiet {pax : Session} {event : Event}
    (apart : ∀ handle chan, event ≠ .connected handle chan) : Elects pax event where
  reach := by
    rintro _ _ _ _ ⟨handle, _, completed, -⟩
    exact absurd completed (apart handle _)
  fail := by
    rintro _ _ ⟨handle, _, completed, -⟩
    exact absurd completed (apart handle _)

/-- The attempt of the second member reaches the third, whom the proposer outranks. -/
theorem successor.elects : Elects successor.node.pax (.connected 0 (some 3)) where
  -- The first, who proposes, comes before the third that is reached.
  reach := by
    intro purpose acc peer proposer continues _ proposed less
    obtain ⟨-, rfl, -⟩ := successor.attempt continues
    have first : successor.node.pax.proposer = some 1 := by decide +kernel
    obtain rfl := Option.some.inj (first.symm.trans proposed)
    contradiction
  fail := by
    rintro _ _ ⟨_, _, completed, -⟩
    cases completed

end Motmot
