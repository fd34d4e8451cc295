import Motmot.Proofs.Paxos.Enrolment
import Motmot.Proofs.Paxos.Greetings
import Motmot.System.Schedule

/-! Whom a session can reach, as the hellos, attempts and losses of its history tell. -/

namespace Motmot

/-- A part or a kill of a member is among the effects. -/
def Strikes (effects : List Effect) (paxid : Nat) : Prop :=
  ∃ inum val, .learn inum val ∈ effects ∧ (val.dkind = .part ∨ val.dkind = .kill) ∧
    val.extra = paxid

variable {start node next : Node} {event : Event} {paxid : Nat} {peer : PeerId}

theorem Strikes.append {effects more : List Effect} (strikes : Strikes effects paxid) :
    Strikes (effects ++ more) paxid := by
  obtain ⟨inum, val, mem, strikes⟩ := strikes
  exact ⟨inum, val, List.mem_append_left _ mem, strikes⟩

/-- Nobody who waits with a hello stops waiting by what an event does to the channels. -/
theorem Opens.waits {roster : Roster} (opens : Opens start event roster)
    (deferred : Ranked start.pax.adefer) (waiting : Attached start.pax.adefer paxid peer) :
    Attached roster.adefer paxid peer := by
  have written : ∀ named chan count,
      ((start.setPeer named chan).setLiveCount count).pax.roster.adefer = start.pax.adefer :=
    fun _ _ _ => rfl
  -- Losing or attaching a channel of a member is nothing to those who wait.
  cases opens with
  | same => exact waiting
  | @attach _ acc chan =>
    show Attached (attachChannel start acc.paxid chan).pax.adefer paxid peer
    rw [attachChannel_adefer]
    exact waiting
  | greet => exact waiting
  | replace => exact waiting
  | wait =>
    obtain ⟨acc, mem, named, held⟩ := waiting
    exact ⟨acc, deferred.subset_insert mem, named, held⟩
  | lose =>
    rw [written]
    exact waiting

/-- A join takes in the hello that has waited for it, and leaves the others. -/
theorem enlist_waits {inum : Nat} {req : Request} {selfId : Nat}
    (kept : node.pax.roster.Kept selfId) (waiting : Attached node.pax.adefer paxid peer) :
    Attached (enlist node inum req).pax.adefer paxid peer ∨
      Attached (enlist node inum req).pax.alist paxid peer := by
  -- Whoever waits is the newcomer that joins, or somebody else.
  obtain ⟨acc, mem, named, held⟩ := waiting
  have deferred : Ranked node.pax.adefer := kept.deferred
  by_cases same : inum = paxid
  · -- The newcomer is not on the list yet, so it enters with the channel of its hello.
    right
    have found : acceptorFind node.pax.adefer inum = some acc :=
      deferred.find_eq_some.mpr ⟨mem, named.trans same.symm⟩
    have ranked : Ranked node.pax.alist := kept.ranked
    obtain ⟨lower, upper, -, made, -, -⟩ :=
      @Ranked.insert_split _ (joinedAcceptor node.pax inum req) ranked fun other listed taken =>
        kept.apart other listed acc mem (taken.trans (same.trans named.symm))
    rw [enlist_alist, made]
    refine ⟨joinedAcceptor node.pax inum req, ?_, same, ?_⟩
    · exact List.mem_append_right _ List.mem_cons_self
    · simp [joinedAcceptor, found, held]
  · left
    have other : acc.paxid ≠ inum := fun taken => same (taken.symm.trans named)
    refine ⟨acc, ?_, named, held⟩
    unfold enlist
    cases acceptorFind node.pax.adefer inum with
    | none => exact mem
    | some _ => exact List.mem_filter.mpr ⟨mem, by simpa using other⟩

/--
The channels in the middle of a handler, beside those that it began with.

A channel goes with a part, or as the event demands, and a hello waits until its join is learned.
-/
structure Holding (start : Node) (event : Event) (config : Config) (effects : List Effect) :
    Prop where
  out : config.node.out = start.out ++ effects
  held : ∀ paxid peer, Attached start.pax.alist paxid peer →
    Attached config.node.pax.alist paxid peer ∨ Spends start.pax event paxid peer ∨
      Strikes effects paxid
  waits : ∀ paxid peer, Attached start.pax.adefer paxid peer →
    Attached config.node.pax.adefer paxid peer ∨ Attached config.node.pax.alist paxid peer ∨
      Strikes effects paxid
  leaving : ∀ paxid, Leaves config.loops paxid → Strikes effects paxid

namespace Holding

variable {config after : Config} {effects more : List Effect} {loops rest : List Loop}

/-- Before a handler has done anything, all channels are what they were. -/
theorem init : Holding start event ⟨start, []⟩ [] where
  out := (List.append_nil _).symm
  held := fun _ _ => Or.inl
  waits := fun _ _ => Or.inl
  leaving := fun _ leaves => absurd leaves leaves_nil

/-- The same people in the same lists. -/
theorem congr (holding : Holding start event config effects)
    (roster : after.node.pax.roster = config.node.pax.roster)
    (out : after.node.out = config.node.out ++ more)
    (leaves : ∀ paxid, Leaves after.loops paxid →
      Leaves config.loops paxid ∨ Strikes (effects ++ more) paxid) :
    Holding start event after (effects ++ more) := by
  -- The lists are the same, so every entry is carried over.
  have alist : after.node.pax.alist = config.node.pax.alist := congrArg Roster.alist roster
  have adefer : after.node.pax.adefer = config.node.pax.adefer := congrArg Roster.adefer roster
  constructor
  · rw [out, holding.out, List.append_assoc]
  · intro paxid peer attached
    rw [alist]
    exact (holding.held paxid peer attached).imp_right (Or.imp_right Strikes.append)
  · intro paxid peer waiting
    rw [alist, adefer]
    exact (holding.waits paxid peer waiting).imp_right (Or.imp_right Strikes.append)
  · intro paxid leaving
    exact (leaves paxid leaving).elim (fun before => (holding.leaving paxid before).append) id

/-- What the event itself does to the channels. -/
theorem opened (holding : Holding start event ⟨node, []⟩ effects)
    (opens : Opens start event next.pax.roster) (kept : start.pax.roster.Kept start.pax.selfId)
    (out : next.out = node.out ++ more) :
    Holding start event ⟨next, []⟩ (effects ++ more) where
  out := by rw [out, holding.out, List.append_assoc]
  held := fun _ _ attached => (opens.spends kept.ranked attached).imp_right Or.inl
  waits := fun _ _ waiting => Or.inl (opens.waits kept.deferred waiting)
  leaving := fun _ leaves => absurd leaves leaves_nil

/-- A join enters, with the channel of the hello that has waited for it. -/
theorem enlist {inum : Nat} {req : Request} (holding : Holding start event ⟨node, loops⟩ effects)
    (kept : node.pax.roster.Kept start.pax.selfId)
    (roster : next.pax.roster = (enlist node inum req).pax.roster)
    (out : next.out = node.out ++ more)
    (leaves : ∀ paxid, Leaves rest paxid → Leaves loops paxid ∨ Strikes (effects ++ more) paxid) :
    Holding start event ⟨next, rest⟩ (effects ++ more) := by
  have alist : next.pax.alist = acceptorInsert node.pax.alist (joinedAcceptor node.pax inum req) :=
    (congrArg Roster.alist roster).trans (enlist_alist node inum req)
  have ranked : Ranked node.pax.alist := kept.ranked
  -- A join adds an acceptor and takes no channel from the others.
  have still : ∀ paxid peer, Attached node.pax.alist paxid peer →
      Attached next.pax.alist paxid peer := by
    rintro paxid peer ⟨acc, mem, named, held⟩
    rw [alist]
    exact ⟨acc, ranked.subset_insert mem, named, held⟩
  constructor
  · rw [out, holding.out, List.append_assoc]
  · intro paxid peer attached
    rcases holding.held paxid peer attached with held | spent | struck
    · exact Or.inl (still paxid peer held)
    · exact Or.inr (Or.inl spent)
    · exact Or.inr (Or.inr struck.append)
  · intro paxid peer waiting
    rcases holding.waits paxid peer waiting with waits | held | struck
    · -- Whoever waited waits on, or has just entered with that channel.
      have entered := @enlist_waits node paxid peer inum req _ kept waits
      change Attached (Motmot.enlist node inum req).pax.roster.adefer paxid peer ∨
        Attached (Motmot.enlist node inum req).pax.roster.alist paxid peer at entered
      rw [← roster] at entered
      exact entered.imp_right Or.inl
    · exact Or.inr (Or.inl (still paxid peer held))
    · exact Or.inr (Or.inr struck.append)
  · intro paxid leaving
    exact (leaves paxid leaving).elim (fun before => (holding.leaving paxid before).append) id

/-- Somebody leaves the list whose part was learned. -/
theorem delist {it : Option Addr} {leaving : Nat}
    (holding : Holding start event ⟨node, ⟨it, .learning (some leaving)⟩ :: loops⟩ effects)
    (roster : next.pax.roster = (delist node leaving).pax.roster) (out : next.out = node.out) :
    Holding start event ⟨next, ⟨it, .learning none⟩ :: loops⟩ effects := by
  have struck : Strikes effects leaving :=
    holding.leaving leaving (leaves_cons.mpr (Or.inl rfl))
  have alist : next.pax.alist = (Motmot.delist node leaving).pax.alist :=
    congrArg Roster.alist roster
  have adefer : next.pax.adefer = node.pax.adefer :=
    (congrArg Roster.adefer roster).trans (delist_adefer node leaving)
  -- Everybody else keeps the channel, and whoever leaves was struck by the part.
  have still : ∀ paxid peer, Attached node.pax.alist paxid peer →
      Attached next.pax.alist paxid peer ∨ Strikes effects paxid := by
    intro paxid peer attached
    by_cases same : paxid = leaving
    · exact Or.inr (same ▸ struck)
    · rw [alist, delist_attached]
      exact Or.inl ⟨same, attached⟩
  constructor
  · exact out.trans holding.out
  · intro paxid peer attached
    rcases holding.held paxid peer attached with held | lost
    · exact (still paxid peer held).imp_right Or.inr
    · exact Or.inr lost
  · intro paxid peer waiting
    show Attached next.pax.adefer paxid peer ∨ _
    rw [adefer]
    rcases holding.waits paxid peer waiting with waits | held | gone
    · exact Or.inl waits
    · exact Or.inr (still paxid peer held)
    · exact Or.inr (Or.inr gone)
  · intro other leaves
    rcases leaves_cons.mp leaves with nobody | before
    · simp at nobody
    · exact holding.leaving other (leaves_cons.mpr (Or.inr before))

/-- Every move keeps whom the session can reach, or tells why not. -/
theorem move (holding : Holding start event config effects)
    (move : Move start event config after) (wf : config.node.pax.ilist.WellFormed)
    (routed : Routed start event config) (kept : start.pax.roster.Kept start.pax.selfId) :
    ∃ effects, Holding start event after effects := by
  -- The lists change by what the event does to the channels, by a join and by a part.
  cases move with
  | top act =>
    obtain ⟨_, more, ⟨-, -, -, out⟩, -⟩ := act.adds wf
    rcases act.polity with same | turns
    · exact ⟨effects ++ more, holding.congr (congrArg Polity.roster same) out fun _ => Or.inl⟩
    · exact ⟨effects ++ more, holding.opened turns.opens.1 kept out⟩
  | inner move =>
    cases move with
    | nest _ act =>
      obtain ⟨_, more, ⟨-, -, -, out⟩, -⟩ := act.adds wf
      exact ⟨effects ++ more,
        holding.congr (congrArg Polity.roster act.polity) out fun _ => Or.inl⟩
    | enter =>
      refine ⟨effects ++ [], holding.congr rfl (List.append_nil _).symm fun _ leaves => ?_⟩
      simpa [leaves_cons] using Or.inl leaves
    | @learn node loops addr inst held hole =>
      -- The part that somebody is to be struck for is the one that is learned.
      have leaves : ∀ paxid, Leaves (⟨some addr, .learning (leavingOf node.pax inst.val)⟩ :: loops)
          paxid → Leaves (⟨some addr, .scanning⟩ :: loops) paxid ∨ Strikes (effects ++
            .learn inst.hdr.inum inst.val ::
              heard node.pax inst.val (learnRequest node.pax inst.val)) paxid := by
        intro paxid leaves
        rcases leaves_cons.mp leaves with learning | before
        · right
          have leaving := Stage.learning.inj learning
          unfold leavingOf at leaving
          split at leaving
          · rename_i kind
            obtain ⟨acc, found, named⟩ := Option.map_eq_some_iff.mp leaving
            have extra := (SortedList.findFwd_mem found).2
            refine ⟨inst.hdr.inum, inst.val, ?_, kind, extra.symm.trans named⟩
            exact List.mem_append_right _ List.mem_cons_self
          · contradiction
        · exact Or.inl (leaves_cons.mpr (Or.inr before))
      rcases learnt_polity node addr inst (learnRequest node.pax inst.val) with same | ⟨req, same⟩
      · exact ⟨_, holding.congr (congrArg Polity.roster same) (learnt_out node addr inst _) leaves⟩
      · exact ⟨_, holding.enlist routed.kept (congrArg Polity.roster same)
          (learnt_out node addr inst _) leaves⟩
    | delist => exact ⟨effects, holding.delist rfl (delist_out _ _)⟩
    | depose _ _ replaces =>
      exact ⟨effects, holding.delist replaces.roster (replaces.out.trans (delist_out _ _))⟩
    | next =>
      refine ⟨effects ++ [], holding.congr rfl (List.append_nil _).symm fun _ leaves => ?_⟩
      simpa [leaves_cons] using Or.inl leaves
    | last =>
      refine ⟨effects ++ [], holding.congr rfl (List.append_nil _).symm fun _ leaves => ?_⟩
      exact Or.inl (leaves_cons.mpr (Or.inr leaves))
    | gap =>
      refine ⟨effects ++ [], holding.congr rfl (List.append_nil _).symm fun _ leaves => ?_⟩
      exact Or.inl (leaves_cons.mpr (Or.inr leaves))
    | rest =>
      refine ⟨effects ++ [], holding.congr rfl (List.append_nil _).symm fun _ leaves => ?_⟩
      exact Or.inl (leaves_cons.mpr (Or.inr leaves))

end Holding

/-- A handler that returns holds on to the channels, but for parts and what its event demands. -/
theorem Handles.holding {node next : Node} (handles : Handles node event (.ok next))
    (wf : node.pax.ilist.WellFormed) (kept : node.pax.roster.Kept node.pax.selfId) :
    Holding node event ⟨next, []⟩ (fresh node (.ok next)) := by
  -- The calls of the client are nothing that the channels depend on.
  have routes : ∀ {script config}, Routed { node with script := script } event config ↔
      Routed node event config :=
    ⟨fun routed => ⟨routed.1, routed.2, routed.3, routed.4, routed.5, routed.6⟩,
      fun routed => ⟨routed.1, routed.2, routed.3, routed.4, routed.5, routed.6⟩⟩
  have holds : ∀ {script config effects},
      Holding { node with script := script } event config effects ↔
        Holding node event config effects :=
    ⟨fun holding => ⟨holding.1, holding.2, holding.3, holding.4⟩,
      fun holding => ⟨holding.1, holding.2, holding.3, holding.4⟩⟩
  -- The invariant speaks of whom the session could reach when the handler began.
  obtain ⟨-, effects, holding⟩ := (@Handles.invariant _ _ _ (fun config =>
    Routed node event config ∧ ∃ effects, Holding node event config effects) handles wf
      (fun script => ⟨routes.mp (@Routed.init { node with script := script } event kept []),
        [], holds.mp (@Holding.init { node with script := script } event)⟩) (by
    rintro script config after move wf ⟨routed, effects, holding⟩
    have routed : Routed { node with script := script } event config := routes.mpr routed
    obtain ⟨more, held⟩ := (holds.mpr holding).move move wf routed kept
    exact ⟨routes.mp (routed.move move kept), more, holds.mp held⟩)).1 next rfl
  have same : fresh node (.ok next) = effects := by
    show next.out.drop node.out.length = effects
    rw [holding.out, List.drop_left]
  rw [same]
  exact holding

/-- A hello waits for a join, as the history of a session tells. -/
inductive Waits (begun : Node) (paxid : Nat) (peer : PeerId) : Node → Prop where
  | greeted {node next : Node} {hdr body} (run : Runs (fun _ _ => True) begun node)
      (handles : Handles node (.message peer ⟨hdr, body⟩) (.ok next))
      (opcode : hdr.opcode = .hello) (named : hdr.inum = paxid) (heeded : Heeds node.pax hdr)
      (stranger : paxid ∉ roll begun.pax.paxids node.out)
      (first : ¬ Listed node.pax.adefer paxid) : Waits begun paxid peer next
  | keeps {node next : Node} {event : Event} (waits : Waits begun paxid peer node)
      (handles : Handles node event (.ok next)) (stays : event ≠ .drop peer)
      (stranger : paxid ∉ roll begun.pax.paxids next.out)
      (unstruck : ¬ Strikes (fresh node (.ok next)) paxid) : Waits begun paxid peer next

/--
A session has a channel to an acceptor, as its history tells.

It began with the channel, or a hello or an attempt of its own has brought it, and neither a drop
nor another channel nor a part has taken it since.
-/
inductive Meets (begun : Node) (paxid : Nat) : PeerId → Node → Prop where
  | begun {peer : PeerId} (attached : Attached begun.pax.alist paxid peer) : Meets begun paxid peer begun
  | greeted {node next : Node} {source hdr body} (run : Runs (fun _ _ => True) begun node)
      (handles : Handles node (.message source ⟨hdr, body⟩) (.ok next))
      (opcode : hdr.opcode = .hello) (named : hdr.inum = paxid) (heeded : Heeds node.pax hdr)
      (member : paxid ∈ roll begun.pax.paxids node.out)
      (opens : paxid < node.pax.selfId ∨ ∀ peer, ¬ Attached node.pax.alist paxid peer) :
      Meets begun paxid source next
  | made {node next : Node} {handle purpose acc} {peer : PeerId}
      (run : Runs (fun _ _ => True) begun node)
      (handles : Handles node (.connected handle (some peer)) (.ok next))
      (continues : Continues node.pax (.connected handle (some peer)) purpose acc (some peer))
      (attaches : Attaches node.pax acc purpose) (named : acc.paxid = paxid) :
      Meets begun paxid peer next
  /-- The hello came before the join. -/
  | joined {node next : Node} {event : Event} {peer : PeerId}
      (waits : Waits begun paxid peer node)
      (handles : Handles node event (.ok next)) (stays : event ≠ .drop peer)
      (member : paxid ∈ roll begun.pax.paxids next.out)
      (unstruck : ¬ Strikes (fresh node (.ok next)) paxid) : Meets begun paxid peer next
  | keeps {node next : Node} {event : Event} {peer : PeerId}
      (meets : Meets begun paxid peer node)
      (handles : Handles node event (.ok next)) (spends : ¬ Spends node.pax event paxid peer)
      (unstruck : ¬ Strikes (fresh node (.ok next)) paxid) : Meets begun paxid peer next

section Histories

variable {begun : Node} {first : Nat}

theorem Waits.runs (waits : Waits begun paxid peer node) : Runs (fun _ _ => True) begun node := by
  induction waits with
  | greeted run handles => exact run.step trivial handles
  | keeps _ handles _ _ _ ih => exact ih.step trivial handles

theorem Meets.runs (meets : Meets begun paxid peer node) : Runs (fun _ _ => True) begun node := by
  -- By induction on how the two have met, each step of it a step of the run.
  induction meets with
  | begun => exact .refl
  | greeted run handles => exact run.step trivial handles
  | made run handles => exact run.step trivial handles
  | joined waits handles => exact waits.runs.step trivial handles
  | keeps _ handles _ _ ih => exact ih.step trivial handles

/-- Between handlers an acceptor is listed exactly if it is on the roll of what was learned. -/
theorem Rolls.listed {who : List Nat} (rolls : Rolls first who node) :
    Listed node.pax.alist paxid ↔ paxid ∈ roll who node.out := by
  have enrolled := rolls.enrolled.listed paxid
  simp only [leaves_nil, or_false] at enrolled
  rw [← enrolled, Session.paxids, List.mem_map]
  rfl

/-- A hello that waits by the history of a session waits in its list. -/
theorem Waits.attached (begins : Begins Welcome.Peopled begun first)
    (waits : Waits begun paxid peer node) : Attached node.pax.adefer paxid peer := by
  -- A hello waits from its arrival on until its sender enters or is struck.
  induction waits with
  | greeted run handles opcode named heeded stranger first =>
    subst named
    have rolls := run.rolls begins
    exact handles.defers opcode heeded rolls.kept.deferred (mt rolls.listed.mp stranger) first
  | @keeps node next event waits handles stays stranger unstruck ih =>
    have rolls := waits.runs.rolls begins
    have after := (waits.runs.step trivial handles).rolls begins
    rcases (handles.holding rolls.wellFormed rolls.kept).waits paxid peer ih with
      waiting | entered | struck
    · exact waiting
    · exact absurd (after.listed.mp entered.listed) stranger
    · exact absurd struck unstruck

/-- Whom a session can reach by its history it has a channel to. -/
theorem Meets.attached (begins : Begins Welcome.Peopled begun first)
    (meets : Meets begun paxid peer node) : Attached node.pax.alist paxid peer := by
  -- One case for each way to come by a channel, and one for keeping it.
  induction meets with
  | begun attached => exact attached
  | greeted run handles opcode named heeded member opens =>
    subst named
    have rolls := run.rolls begins
    exact (handles.replaces opcode heeded opens rolls.kept.ranked (rolls.listed.mpr member)).1
  | made run handles continues attaches named =>
    subst named
    exact (handles.reaches continues attaches).attached
  | @joined node next event peer waits handles stays member unstruck =>
    have rolls := waits.runs.rolls begins
    have after := (waits.runs.step trivial handles).rolls begins
    rcases (handles.holding rolls.wellFormed rolls.kept).waits paxid peer
      (waits.attached begins) with waiting | entered | struck
    · -- A member is not among those who wait.
      obtain ⟨acc, mem, named, -⟩ := waiting
      obtain ⟨other, listed, same⟩ := after.listed.mpr member
      exact absurd (same.trans named.symm) (after.kept.apart other listed acc mem)
    · exact entered
    · exact absurd struck unstruck
  | @keeps node next event peer meets handles spends unstruck ih =>
    have rolls := meets.runs.rolls begins
    rcases (handles.holding rolls.wellFormed rolls.kept).held paxid peer ih with
      held | spent | struck
    · exact held
    · exact absurd spent spends
    · exact absurd struck unstruck

end Histories

/--
An acceptor that the handler of an event takes off the list, whether it is there or not.

The flag says that the handler sends to the acceptor.
-/
inductive Takes (pax : Session) (event : Event) : Nat → Bool → Prop where
  | decree {source hdr val} (asked : event = .message source ⟨hdr, .value val⟩)
      (opcode : hdr.opcode = .decree) (acceptor : isProposer pax = false)
      (current : hdr.ballot = pax.ballot) (proposer : pax.proposer = some pax.ballot.id)
      (kind : val.dkind = .part) : Takes pax event val.extra false
  | retrieve {source hdr paxid val req} (asked : event = .message source ⟨hdr, .retrieve paxid val⟩)
      (opcode : hdr.opcode = .retrieve) (needs : requestNeedsCached val.dkind = true)
      (held : requestFind pax.rcache val.reqid = some req) : Takes pax event paxid true
  | kill {source hdr req} (asked : event = .message source ⟨hdr, .request req⟩)
      (opcode : hdr.opcode = .request) (proposer : isProposer pax = true)
      (higher : pax.selfId < hdr.inum) : Takes pax event req.val.reqid.id false

/-- The acceptor is on the list, with a channel if there is something to send. -/
def Present (pax : Session) (paxid : Nat) (sends : Bool) : Prop :=
  ∃ acc, acceptorFind pax.alist paxid = some acc ∧ (sends = true → acc.peer.isSome = true)

/-- A handler that takes an acceptor which is not there has no meaning. -/
theorem Takes.undefined {node : Node} {paxid : Nat} {sends : Bool} {result : Result}
    (takes : Takes node.pax event paxid sends) (absent : ¬ Present node.pax paxid sends)
    (handles : Handles node event result) : ∃ halted, result = .stop .undefined halted := by
  obtain ⟨fuel, script, rfl⟩ := handles
  refine ⟨{ node with script := script }, ?_⟩
  -- The handler is computed down to the lookup, which finds nothing.
  cases takes with
  | @decree source hdr val asked opcode acceptor current proposer kind =>
    have gone : acceptorFind node.pax.alist val.extra = none := by
      by_contra found
      obtain ⟨acc, found⟩ := Option.ne_none_iff_exists'.mp found
      exact absent ⟨acc, found, by simp⟩
    obtain ⟨session, ballot, opcode, inum⟩ := hdr
    subst asked opcode current
    have same : ballotCompare node.pax.ballot node.pax.ballot = .eq := ppairCompare_eq_eq.mpr rfl
    simp [handle, paxosDispatch, acceptor, acceptorDispatch, acceptorAckDecree, same, proposer,
      kind, gone]
  | @retrieve source hdr paxid val req asked opcode needs held =>
    obtain ⟨session, ballot, opcode, inum⟩ := hdr
    subst asked opcode
    have same : handle fuel { node with script := script }
        (.message source ⟨⟨session, ballot, .retrieve, inum⟩, .retrieve paxid val⟩) =
          paxosAckRetrieve { node with script := script }
            ⟨session, ballot, .retrieve, inum⟩ paxid val := by
      simp [handle, paxosDispatch, proposerDispatch, acceptorDispatch]
    rw [same]
    cases found : acceptorFind node.pax.alist paxid with
    | none => simp [paxosAckRetrieve, needs, held, found]
    | some acc =>
      -- The acceptor may be listed, but then it has no channel to send on.
      have lost : acc.peer = none := by
        by_contra peer
        exact absent ⟨acc, found, fun _ => Option.isSome_iff_ne_none.mpr peer⟩
      simp [paxosAckRetrieve, needs, held, found, paxosSend, lost]
  | @kill source hdr req asked opcode proposer higher =>
    have gone : acceptorFind node.pax.alist req.val.reqid.id = none := by
      by_contra found
      obtain ⟨acc, found⟩ := Option.ne_none_iff_exists'.mp found
      exact absent ⟨acc, found, by simp⟩
    obtain ⟨session, ballot, opcode, inum⟩ := hdr
    subst asked opcode
    simp [handle, paxosDispatch, proposer, proposerDispatch, proposerAckRequest, higher, gone]

/--
In every run the acceptor that a handler takes is there if it is on the roll of what was learned,
and if the session has met it when the handler sends.

An acceptor that is not on the roll is missing, and a handler that runs into a missing acceptor or
channel has no meaning.
-/
theorem taken_present {begun node : Node} {first : Nat} {event : Event} {paxid : Nat} {sends : Bool}
    (begins : Begins Welcome.Peopled begun first) (run : Runs (fun _ _ => True) begun node)
    (takes : Takes node.pax event paxid sends) :
    (paxid ∈ roll begun.pax.paxids node.out →
      (sends = true → ∃ peer, Meets begun paxid peer node) → Present node.pax paxid sends) ∧
      (Present node.pax paxid sends → paxid ∈ roll begun.pax.paxids node.out) ∧
      (¬ Present node.pax paxid sends → ∀ result, Handles node event result →
        ∃ halted, result = .stop .undefined halted) := by
  -- The list of acceptors is the roll of what was learned, and the channels are those of the
  -- history.
  have rolls := run.rolls begins
  have ranked : Ranked node.pax.alist := rolls.kept.ranked
  refine ⟨?_, ?_, fun absent result handles => takes.undefined absent handles⟩
  · intro member met
    obtain ⟨acc, mem, named⟩ := rolls.listed.mpr member
    refine ⟨acc, ranked.find_eq_some.mpr ⟨mem, named⟩, fun sent => ?_⟩
    -- Identifiers are unique, so the acceptor with the channel is the one that is found.
    obtain ⟨peer, meets⟩ := met sent
    rw [(meets.attached begins).peer_eq ranked mem named]
    rfl
  · rintro ⟨acc, found, -⟩
    obtain ⟨mem, named⟩ := ranked.find_eq_some.mp found
    exact rolls.listed.mp ⟨acc, mem, named⟩

/-- What the client of the second member says while both others are connected. -/
def successor.saying : Event := .client { dkind := .chat, data := [9] }

/-- What is left once the client of the second member has said something. -/
def successor.said : Node := (handle 20 successor.connected successor.saying).state

/-- The second member is asked for a chat by the third, which it has connected to. -/
theorem taken_present_successor : Present successor.said.pax 3 true := by
  have peopled : successor.Peopled := ⟨by decide, ⟨2, [2]⟩, by decide, rfl⟩
  have speaks : Handles successor.connected successor.saying (.ok successor.said) :=
    ⟨20, [], by decide +kernel⟩
  have takes : Takes successor.said.pax (.message 3
      ⟨{ session := 7, ballot := ⟨1, 1⟩, opcode := .retrieve, inum := 4 },
        .retrieve 3 ⟨.chat, ⟨2, 1⟩, 0⟩⟩) 3 true :=
    @Takes.retrieve _ _ _ _ _ _ ⟨⟨.chat, ⟨2, 1⟩, 0⟩, [9]⟩ rfl rfl rfl (by decide +kernel)
  -- The attempt was made for the welcome, and what it is for finds the third on the list.
  have continues : Continues successor.node.pax (.connected 0 (some 3)) .ackWelcome
      { paxid := 3, peer := none, desc := [3] } (some 3) :=
    ⟨0, { handle := 0, paxid := 3, purpose := .ackWelcome }, rfl, by decide +kernel, rfl,
      by decide +kernel⟩
  have made : Meets successor.node 3 3 successor.connected :=
    .made .refl successor.connects continues trivial rfl
  have silent : ∀ effect ∈ fresh successor.connected (.ok successor.said),
      effect.learned = none := by decide +kernel
  -- A call of the client costs no channel, and nothing is learned in it.
  have met : Meets successor.node 3 3 successor.said := by
    refine made.keeps speaks ?_ ?_
    · intro spent
      cases spent with
      | replaced asked => cases asked
      | remade continues =>
        obtain ⟨_, _, asked, -⟩ := continues
        cases asked
      | dropped asked => cases asked
    · rintro ⟨inum, val, mem, -⟩
      exact absurd (silent _ mem) (by simp [Effect.learned])
  exact (taken_present (.welcome successor peopled)
    ((Runs.refl.step trivial successor.connects).step trivial speaks) takes).1 (by decide +kernel)
      fun _ => ⟨3, met⟩

/--
A newcomer retrieves a chat from its author, who is behind and has not learned the join.

The first, the second and the newcomer are enough to commit the chat, and the hello of the newcomer
is deferred by the author.
-/
theorem newcomer_unlisted : ∃ sys, System.Reachable sys ∧
    ∃ node ∈ (sys.process [3]).node, ∃ next ∈ sys.step System.quiet (.deliver 5 true),
      (∃ chan ∈ sys.channels[5]?, ∃ msg ∈ chan.snd.inbox.head?,
        msg.hdr.opcode = .retrieve ∧ msg.body = .retrieve 4 ⟨.chat, ⟨3, 1⟩, 0⟩) ∧
      (requestFind node.pax.rcache ⟨3, 1⟩).isSome = true ∧
        acceptorFind node.pax.alist 4 = none ∧ (acceptorFind node.pax.adefer 4).isSome = true ∧
          (sys.process [3]).crashed = false ∧ (next.process [3]).crashed = true :=
  System.exists_played
    (System.assemble [[1], [2], [3]] ++
      -- The fourth joins and gets to know the others, but the third learns nothing of the join.
      [.steps [.client [1] { dkind := .join, data := [4] }, .deliver 0 true, .deliver 0 true,
          .deliver 0 false, .complete 0 true, .deliver 3 true, .complete 0 true, .complete 0 true,
          .deliver 0 true, .deliver 4 true, .deliver 5 true],
        -- A chat of the third is committed without it, and the fourth has no data of it.
        .steps [.client [3] { dkind := .chat, data := [9] }, .deliver 1 false, .deliver 0 true,
          .deliver 3 true, .deliver 0 false, .deliver 3 false, .deliver 3 true]])
    (by decide +kernel)

end Motmot
