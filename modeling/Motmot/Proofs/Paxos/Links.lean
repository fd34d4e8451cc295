import Motmot.Proofs.Paxos.Learning
import Motmot.Proofs.Paxos.Roster

/-! What the handlers of a session do to the channel of one acceptor. -/

namespace Motmot

/-- An acceptor of an identifier is on a list. -/
def Listed (list : List Acceptor) (paxid : Nat) : Prop := ∃ acc ∈ list, acc.paxid = paxid

/-- An acceptor of an identifier is on a list with a channel. -/
def Attached (list : List Acceptor) (paxid : Nat) (peer : PeerId) : Prop :=
  ∃ acc ∈ list, acc.paxid = paxid ∧ acc.peer = some peer

instance (list : List Acceptor) (paxid : Nat) (peer : PeerId) :
    Decidable (Attached list paxid peer) :=
  inferInstanceAs (Decidable (∃ acc ∈ list, _))

/-- Where the channel of an acceptor, or of a hello that waits for one, comes from. -/
inductive Gains (pax : Session) (event : Event) (paxid : Nat) (peer : PeerId) : Prop where
  | attached (attached : Attached pax.alist paxid peer) : Gains pax event paxid peer
  | deferred (deferred : Attached pax.adefer paxid peer) : Gains pax event paxid peer
  | greeted {hdr body} (asked : event = .message peer ⟨hdr, body⟩) (opcode : hdr.opcode = .hello)
      (named : hdr.inum = paxid) : Gains pax event paxid peer
  | made {purpose acc} (continues : Continues pax event purpose acc (some peer))
      (attaches : Attaches pax acc purpose) (named : acc.paxid = paxid) :
      Gains pax event paxid peer

/-- How an acceptor that stays on the list comes to lose its channel. -/
inductive Spends (pax : Session) (event : Event) (paxid : Nat) (peer : PeerId) : Prop where
  | replaced {source hdr body} (asked : event = .message source ⟨hdr, body⟩)
      (opcode : hdr.opcode = .hello) (heeded : Heeds pax hdr) (named : hdr.inum = paxid)
      (lower : hdr.inum < pax.selfId) : Spends pax event paxid peer
  | remade {purpose acc chan} (continues : Continues pax event purpose acc chan)
      (attaches : Attaches pax acc purpose) (named : acc.paxid = paxid) :
      Spends pax event paxid peer
  | dropped (dropped : event = .drop peer) : Spends pax event paxid peer

variable {start : Node} {event : Event} {list : List Acceptor} {paxid : Nat} {peer : PeerId}

theorem Attached.listed (attached : Attached list paxid peer) : Listed list paxid := by
  obtain ⟨acc, mem, named, -⟩ := attached
  exact ⟨acc, mem, named⟩

/-- An identifier on a ranked list has one channel at most. -/
theorem Attached.peer_eq {acc : Acceptor} (ranked : Ranked list)
    (attached : Attached list paxid peer) (mem : acc ∈ list) (named : acc.paxid = paxid) :
    acc.peer = some peer := by
  obtain ⟨other, memOther, namedOther, held⟩ := attached
  rw [ranked.inj mem memOther (named.trans namedOther.symm)]
  exact held

/-- A write to the channel of an acceptor leaves everybody on the list. -/
theorem setPeer_listed {node : Node} {named : Nat} {chan : Option PeerId} :
    Listed (node.setPeer named chan).pax.alist paxid ↔ Listed node.pax.alist paxid := by
  -- The write keeps the identifiers, in both directions.
  constructor
  · rintro ⟨acc, mem, rfl⟩
    obtain ⟨old, memOld, rfl⟩ := List.mem_map.mp mem
    refine ⟨old, memOld, ?_⟩
    split <;> rfl
  · rintro ⟨acc, mem, rfl⟩
    refine ⟨_, List.mem_map_of_mem mem, ?_⟩
    split <;> rfl

/-- After a write to the channel of an acceptor, this one has what was written. -/
theorem setPeer_attached {node : Node} {named : Nat} {chan : Option PeerId} :
    Attached (node.setPeer named chan).pax.alist paxid peer ↔
      if paxid = named then chan = some peer ∧ Listed node.pax.alist paxid
      else Attached node.pax.alist paxid peer := by
  -- The write replaces the channel of the one who is named, and of nobody else.
  constructor
  · rintro ⟨acc, mem, rfl, held⟩
    obtain ⟨old, memOld, rfl⟩ := List.mem_map.mp mem
    by_cases same : old.paxid = named
    · rw [if_pos same] at held ⊢
      rw [if_pos same]
      exact ⟨held, old, memOld, rfl⟩
    · rw [if_neg same] at held ⊢
      rw [if_neg same]
      exact ⟨old, memOld, rfl, held⟩
  · intro holds
    split at holds
    · rename_i same
      obtain ⟨rfl, acc, mem, rfl⟩ := holds
      refine ⟨_, List.mem_map_of_mem mem, ?_⟩
      rw [if_pos same]
      exact ⟨rfl, rfl⟩
    · rename_i other
      obtain ⟨acc, mem, rfl, held⟩ := holds
      refine ⟨_, List.mem_map_of_mem mem, ?_⟩
      rw [if_neg other]
      exact ⟨rfl, held⟩

/-- The list after a channel was attached, or none. -/
theorem attachChannel_alist (node : Node) (named : Nat) (chan : Option PeerId) :
    (attachChannel node named chan).pax.alist = (node.setPeer named chan).pax.alist := by
  cases chan <;> rfl

theorem attachChannel_adefer (node : Node) (named : Nat) (chan : Option PeerId) :
    (attachChannel node named chan).pax.adefer = node.pax.adefer := by
  cases chan <;> rfl

namespace Opens

variable {roster : Roster}

/-- What an event does to the channels takes nobody off the list. -/
theorem listed (opens : Opens start event roster) :
    Listed roster.alist paxid ↔ Listed start.pax.alist paxid := by
  -- An event writes a channel of the list, or touches what waits.
  cases opens with
  | same => exact Iff.rfl
  | @attach _ acc chan =>
    show Listed (attachChannel start acc.paxid chan).pax.alist paxid ↔ _
    rw [attachChannel_alist]
    exact setPeer_listed
  | greet => exact setPeer_listed
  | replace => exact setPeer_listed
  | wait => exact Iff.rfl
  | lose => exact setPeer_listed

/-- A channel that is there after an event was there before, or the event has brought it. -/
theorem gains (opens : Opens start event roster) (deferred : Ranked start.pax.adefer)
    (after : Attached roster.alist paxid peer ∨ Attached roster.adefer paxid peer) :
    Gains start.pax event paxid peer := by
  -- A write to one acceptor gives it the channel that the event is about.
  have written : ∀ {named chan} count,
      Attached ((start.setPeer named chan).setLiveCount count).pax.roster.alist paxid peer ∨
        Attached ((start.setPeer named chan).setLiveCount count).pax.roster.adefer paxid peer →
          (paxid = named → chan = some peer → Gains start.pax event paxid peer) →
            Gains start.pax event paxid peer := by
    intro named chan count after new
    rcases after with attached | waiting
    · change Attached (start.setPeer named chan).pax.alist paxid peer at attached
      rw [setPeer_attached] at attached
      split at attached
      · rename_i same
        exact new same attached.1
      · exact .attached attached
    · exact .deferred waiting
  -- Each way to change the channels names the event that brought the new one.
  cases opens with
  | same => exact after.elim .attached .deferred
  | @attach _ acc chan continues attaches =>
    have after : Attached (attachChannel start acc.paxid chan).pax.alist paxid peer ∨
        Attached (attachChannel start acc.paxid chan).pax.adefer paxid peer := after
    rw [attachChannel_alist, attachChannel_adefer] at after
    refine written 0 after fun same made => ?_
    subst made
    exact .made continues attaches same.symm
  | greet asked opcode _ found =>
    refine written _ after fun same source => ?_
    obtain rfl := Option.some.inj source
    exact .greeted asked opcode ((SortedList.findFwd_mem found).2.symm.trans same.symm)
  | replace asked opcode _ found =>
    refine written start.pax.liveCount after fun same source => ?_
    obtain rfl := Option.some.inj source
    exact .greeted asked opcode ((SortedList.findFwd_mem found).2.symm.trans same.symm)
  | wait asked opcode =>
    rcases after with attached | ⟨acc, mem, rfl, held⟩
    · exact .attached attached
    · rcases deferred.mem_insert mem with mem | rfl
      · exact .deferred ⟨acc, mem, rfl, held⟩
      · obtain rfl := Option.some.inj held
        exact .greeted asked opcode rfl
  | lose => exact written _ after fun _ nothing => absurd nothing (by simp)

/-- An acceptor loses its channel to another one, or with its connection. -/
theorem spends (opens : Opens start event roster) (ranked : Ranked start.pax.alist)
    (attached : Attached start.pax.alist paxid peer) :
    Attached roster.alist paxid peer ∨ Spends start.pax event paxid peer := by
  -- A write to one acceptor takes a channel from that one only.
  have written : ∀ {named chan}, (paxid = named → Spends start.pax event paxid peer) →
      Attached (start.setPeer named chan).pax.alist paxid peer ∨
        Spends start.pax event paxid peer := by
    intro named chan lost
    by_cases same : paxid = named
    · exact Or.inr (lost same)
    · left
      rw [setPeer_attached, if_neg same]
      exact attached
  -- Each way to change the channels names what has cost the old one.
  cases opens with
  | same => exact Or.inl attached
  | @attach _ acc chan continues attaches =>
    show Attached (attachChannel start acc.paxid chan).pax.alist paxid peer ∨ _
    rw [attachChannel_alist]
    exact written fun same => .remade continues attaches same.symm
  | greet _ _ _ found lost =>
    -- Who has no channel has none to lose.
    refine written fun same => ?_
    obtain ⟨mem, -⟩ := SortedList.findFwd_mem found
    rw [attached.peer_eq ranked mem same.symm] at lost
    contradiction
  | replace asked opcode heeded found _ lower =>
    exact written fun same => .replaced asked opcode heeded
      ((SortedList.findFwd_mem found).2.symm.trans same.symm) lower
  | wait => exact Or.inl attached
  | @lose source acc dropped found =>
    refine written fun same => .dropped ?_
    have held := attached.peer_eq ranked (List.mem_of_find?_eq_some found) same.symm
    have source : acc.peer = some source := by simpa using List.find?_some found
    obtain rfl := Option.some.inj (held.symm.trans source)
    exact dropped

end Opens

/-- A removal takes an identifier off the list. -/
theorem delist_alist (node : Node) (leaving : Nat) : (delist node leaving).pax.alist =
    node.pax.alist.filter fun acc => acc.paxid ≠ leaving := by
  -- The count of the live is no part of the lists.
  have kept : ∀ (node : Node) (count : Nat), (node.setLiveCount count).pax.alist = node.pax.alist :=
    fun _ _ => rfl
  unfold delist
  split
  · rw [kept]
    rfl
  · rfl

theorem delist_adefer (node : Node) (leaving : Nat) :
    (delist node leaving).pax.adefer = node.pax.adefer := by
  have kept : ∀ (node : Node) (count : Nat),
      (node.setLiveCount count).pax.adefer = node.pax.adefer := fun _ _ => rfl
  unfold delist
  split
  · rw [kept]
    rfl
  · rfl

theorem delist_listed {node : Node} {leaving : Nat} :
    Listed (delist node leaving).pax.alist paxid ↔
      paxid ≠ leaving ∧ Listed node.pax.alist paxid := by
  -- What is left on the list is what was there under another name.
  rw [delist_alist]
  constructor
  · rintro ⟨acc, mem, rfl⟩
    obtain ⟨mem, other⟩ := List.mem_filter.mp mem
    exact ⟨by simpa using other, acc, mem, rfl⟩
  · rintro ⟨other, acc, mem, rfl⟩
    exact ⟨acc, List.mem_filter.mpr ⟨mem, by simpa using other⟩, rfl⟩

theorem delist_attached {node : Node} {leaving : Nat} :
    Attached (delist node leaving).pax.alist paxid peer ↔
      paxid ≠ leaving ∧ Attached node.pax.alist paxid peer := by
  -- A channel is left with its acceptor.
  rw [delist_alist]
  constructor
  · rintro ⟨acc, mem, rfl, held⟩
    obtain ⟨mem, other⟩ := List.mem_filter.mp mem
    exact ⟨by simpa using other, acc, mem, rfl, held⟩
  · rintro ⟨other, acc, mem, rfl, held⟩
    exact ⟨acc, List.mem_filter.mpr ⟨mem, by simpa using other⟩, rfl, held⟩

/-- A join takes at most its own hello out of those that wait. -/
theorem enlist_adefer {node : Node} {inum : Nat} {req : Request} {acc : Acceptor}
    (mem : acc ∈ (enlist node inum req).pax.adefer) : acc ∈ node.pax.adefer := by
  unfold enlist at mem
  -- The search among the hellos decides whether anything is removed.
  cases found : acceptorFind node.pax.adefer inum with
  | none =>
    simp only [found] at mem
    exact mem
  | some _ =>
    simp only [found] at mem
    exact List.mem_of_mem_filter mem

/-- The channels of a session in the middle of a handler, beside those that it began with. -/
structure Routed (start : Node) (event : Event) (config : Config) : Prop where
  self : config.node.pax.selfId = start.pax.selfId
  kept : config.node.pax.roster.Kept start.pax.selfId
  hole : start.pax.ihole ≤ config.node.pax.ihole
  gains : ∀ paxid peer, Attached config.node.pax.alist paxid peer ∨
    Attached config.node.pax.adefer paxid peer → Gains start.pax event paxid peer
  /-- Whoever is listed in front of the hole was listed before. -/
  listed : ∀ paxid, paxid < start.pax.ihole → Listed config.node.pax.alist paxid →
    Listed start.pax.alist paxid
  spends : ∀ paxid peer, paxid < start.pax.ihole → Listed config.node.pax.alist paxid →
    Attached start.pax.alist paxid peer →
      Attached config.node.pax.alist paxid peer ∨ Spends start.pax event paxid peer

namespace Routed

variable {config after : Config}

/-- Before a handler has done anything, all channels are what they were. -/
theorem init (kept : start.pax.roster.Kept start.pax.selfId) (loops : List Loop) :
    Routed start event ⟨start, loops⟩ where
  self := rfl
  kept := kept
  hole := Nat.le_refl _
  gains := fun _ _ => Or.rec .attached .deferred
  listed := fun _ _ => id
  spends := fun _ _ _ _ => Or.inl

/-- The same people in the same lists. -/
theorem congr (routed : Routed start event config)
    (same : after.node.pax.polity = config.node.pax.polity)
    (hole : config.node.pax.ihole ≤ after.node.pax.ihole) : Routed start event after := by
  -- Nothing that the invariant speaks of has changed.
  have roster : after.node.pax.roster = config.node.pax.roster := congrArg Polity.roster same
  have alist : after.node.pax.alist = config.node.pax.alist := congrArg Roster.alist roster
  have adefer : after.node.pax.adefer = config.node.pax.adefer := congrArg Roster.adefer roster
  constructor
  · exact (congrArg Polity.selfId same).trans routed.self
  · exact roster ▸ routed.kept
  · exact Nat.le_trans routed.hole hole
  · rw [alist, adefer]
    exact routed.gains
  · rw [alist]
    exact routed.listed
  · rw [alist]
    exact routed.spends

/-- What the event itself does to the channels. -/
theorem opened (opens : Opens start event after.node.pax.roster)
    (self : after.node.pax.selfId = start.pax.selfId)
    (hole : start.pax.ihole ≤ after.node.pax.ihole)
    (kept : start.pax.roster.Kept start.pax.selfId) : Routed start event after where
  self := self
  kept := opens.kept kept
  hole := hole
  gains := fun _ _ => opens.gains kept.deferred
  listed := fun _ _ => opens.listed.mp
  spends := fun _ _ _ _ => opens.spends kept.ranked

/-- A join enters at the hole, with the channel of the hello that has waited for it. -/
theorem enlist {node : Node} {loops : List Loop} {inum : Nat} {req : Request}
    (routed : Routed start event ⟨node, loops⟩) (hole : inum = node.pax.ihole)
    (same : after.node.pax.polity =
      ⟨node.pax.selfId, node.pax.proposer, (enlist node inum req).pax.roster⟩)
    (still : after.node.pax.ihole = node.pax.ihole) : Routed start event after := by
  obtain ⟨self, kept, past, gains, listed, spends⟩ := routed
  have roster : after.node.pax.roster = (Motmot.enlist node inum req).pax.roster :=
    congrArg Polity.roster same
  have alist : after.node.pax.alist =
      acceptorInsert node.pax.alist (joinedAcceptor node.pax inum req) :=
    (congrArg Roster.alist roster).trans (enlist_alist node inum req)
  have adefer : after.node.pax.adefer = (Motmot.enlist node inum req).pax.adefer :=
    congrArg Roster.adefer roster
  have ranked : Ranked node.pax.alist := kept.ranked
  -- The newcomer is not one of those in front of the hole.
  have before : ∀ paxid, paxid < start.pax.ihole → Listed after.node.pax.alist paxid →
      Listed node.pax.alist paxid := by
    rintro paxid low ⟨acc, mem, rfl⟩
    rw [alist] at mem
    rcases ranked.mem_insert mem with mem | rfl
    · exact ⟨acc, mem, rfl⟩
    · have past : start.pax.ihole ≤ node.pax.ihole := past
      have low : inum < start.pax.ihole := low
      omega
  constructor
  · exact (congrArg Polity.selfId same).trans self
  · rw [roster]
    exact enlist_kept kept inum req
  · rw [still]
    exact past
  · -- Whoever has a channel had it before, or is the newcomer with that of its hello.
    rintro paxid peer (⟨acc, mem, rfl, held⟩ | ⟨acc, mem, rfl, held⟩)
    · rw [alist] at mem
      rcases ranked.mem_insert mem with mem | rfl
      · exact gains acc.paxid peer (Or.inl ⟨acc, mem, rfl, held⟩)
      · obtain ⟨waiting, found, held⟩ := Option.bind_eq_some_iff.mp held
        obtain ⟨mem, named⟩ := SortedList.findFwd_mem found
        exact gains _ peer (Or.inr ⟨waiting, mem, named, held⟩)
    · rw [adefer] at mem
      exact gains acc.paxid peer (Or.inr ⟨acc, enlist_adefer mem, rfl, held⟩)
  · exact fun paxid low there => listed paxid low (before paxid low there)
  · intro paxid peer low there attached
    rcases spends paxid peer low (before paxid low there) attached with
      ⟨acc, mem, named, held⟩ | spent
    · left
      rw [alist]
      exact ⟨acc, ranked.subset_insert mem, named, held⟩
    · exact Or.inr spent

/-- Somebody leaves the list. -/
theorem delist {node next : Node} {loops rest : List Loop} {leaving : Nat}
    (routed : Routed start event ⟨node, loops⟩) (other : leaving ≠ node.pax.selfId)
    (roster : next.pax.roster = (delist node leaving).pax.roster)
    (who : next.pax.selfId = node.pax.selfId) (still : next.pax.ihole = node.pax.ihole) :
    Routed start event ⟨next, rest⟩ := by
  -- Fewer are listed, and those who are left keep what they had.
  obtain ⟨self, kept, past, gains, listed, spends⟩ := routed
  have alist : next.pax.alist = (Motmot.delist node leaving).pax.alist :=
    congrArg Roster.alist roster
  have adefer : next.pax.adefer = node.pax.adefer :=
    (congrArg Roster.adefer roster).trans (delist_adefer node leaving)
  constructor
  · exact who.trans self
  · show next.pax.roster.Kept _
    rw [roster]
    have self : node.pax.selfId = start.pax.selfId := self
    exact delist_kept kept (self ▸ other)
  · show _ ≤ next.pax.ihole
    rw [still]
    exact past
  · intro paxid peer
    show Attached next.pax.alist paxid peer ∨ Attached next.pax.adefer paxid peer → _
    rw [alist, adefer, delist_attached]
    exact fun after => gains paxid peer (after.imp_left And.right)
  · intro paxid low
    show Listed next.pax.alist paxid → _
    rw [alist, delist_listed]
    exact fun there => listed paxid low there.2
  · intro paxid peer low
    show Listed next.pax.alist paxid → _ → Attached next.pax.alist paxid peer ∨ _
    rw [alist, delist_listed, delist_attached]
    exact fun there attached =>
      (spends paxid peer low there.2 attached).imp_left fun attached => ⟨there.1, attached⟩

/-- Every move leaves the channels where they are, or routes them as its event demands. -/
theorem move (routed : Routed start event config) (move : Move start event config after)
    (kept : start.pax.roster.Kept start.pax.selfId) : Routed start event after := by
  -- The lists change by what the event does to the channels, by a join and by a part.
  cases move with
  | top act =>
    have hole := act.ihole
    rcases act.polity with same | turns
    · exact routed.congr same (Nat.le_of_eq hole.symm)
    · obtain ⟨opens, self⟩ := turns.opens
      exact .opened opens self (Nat.le_trans routed.hole (Nat.le_of_eq hole.symm)) kept
  | inner move =>
    cases move with
    | nest _ act => exact routed.congr act.polity (Nat.le_of_eq act.ihole.symm)
    | enter => exact routed.congr rfl (Nat.le_refl _)
    | @learn node _ addr inst _ hole =>
      rcases learnt_polity node addr inst (learnRequest node.pax inst.val) with same | ⟨req, same⟩
      · exact routed.congr same (Nat.le_of_eq (learnt_ihole node addr inst _).symm)
      · exact routed.enlist hole same (learnt_ihole node addr inst _)
    | delist other =>
      exact routed.delist other rfl (delist_selfId _ _) (delist_ihole _ _)
    | depose other _ replaces =>
      exact routed.delist other replaces.roster (replaces.selfId.trans (delist_selfId _ _))
        (replaces.ihole.trans (delist_ihole _ _))
    | next => exact routed.congr rfl (Nat.le_succ _)
    | last => exact routed.congr rfl (Nat.le_refl _)
    | gap => exact routed.congr rfl (Nat.le_refl _)
    | rest => exact routed.congr rfl (Nat.le_refl _)

end Routed

/-- A handler that returns has routed the channels as its event demands. -/
theorem Handles.routed {node next : Node} (handles : Handles node event (.ok next))
    (wf : node.pax.ilist.WellFormed) (kept : node.pax.roster.Kept node.pax.selfId) :
    Routed node event ⟨next, []⟩ := by
  -- The calls of the client are nothing that the channels depend on.
  have lift : ∀ {script config}, Routed { node with script := script } event config ↔
      Routed node event config :=
    ⟨fun routed => ⟨routed.1, routed.2, routed.3, routed.4, routed.5, routed.6⟩,
      fun routed => ⟨routed.1, routed.2, routed.3, routed.4, routed.5, routed.6⟩⟩
  refine (@Handles.invariant _ _ _ (Routed node event) handles wf
    (fun script => lift.mp (@Routed.init { node with script := script } event kept [])) ?_).1
      next rfl
  intro script config after move _ routed
  exact lift.mp ((lift.mpr routed).move move kept)

end Motmot
