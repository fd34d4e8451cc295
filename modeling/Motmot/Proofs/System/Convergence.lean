import Motmot.Proofs.Paxos.Greetings
import Motmot.Proofs.System.Flow
import Motmot.Proofs.System.Newcomer

/-! Where both ends of a lost connection reconnect, they end up on the same channel. -/

namespace Motmot

/-- A session that is on its own list, and whose log holds no hello. -/
structure Rostered (node : Node) : Prop where
  wellFormed : node.pax.ilist.WellFormed
  kept : node.pax.roster.Kept node.pax.selfId
  lacks : node.pax.ilist.Lacks .hello

/-- A message without a hello among its instances, whose welcome lists the newcomer. -/
structure Msg.Rostered (msg : Msg) : Prop where
  sound : msg.Sound
  lacks : msg.Lacks .hello
  listed : ∀ session ibase alist ilist, msg.hdr.opcode = .welcome →
    msg.body = .welcome session ibase alist ilist →
      alist.Pairwise (fun x y => x.paxid < y.paxid) ∧ ∃ packed ∈ alist, packed.paxid = msg.hdr.inum

/-- What sessions rely on when they say hello is upheld by all of them, whatever happens. -/
theorem rostered_upholds : System.Upholds (fun _ _ => True) Rostered Msg.Rostered where
  wellFormed := Rostered.wellFormed
  starts := by
    intro session id
    have begins : Begins (fun _ => False) (paxosStart session id) 2 := .start session id
    refine ⟨begins.wellFormed, begins.kept fun _ => False.elim, ?_⟩
    -- The founder's log has its own join.
    rintro inst (⟨cell, mem, rfl⟩ | ⟨gone, mem, -⟩)
    · obtain rfl := List.mem_singleton.mp mem
      simp [startInstance]
    · exact absurd mem List.not_mem_nil
  sound := Msg.Rostered.sound
  greets := by
    intro welcome opcode rostered
    -- A newcomer believes what its welcome says of the people.
    have begins : Begins Welcome.Peopled welcome.node welcome.node.pax.ihole := by
      obtain ⟨ranked, newcomer⟩ := rostered.listed _ _ _ _ opcode rfl
      exact .welcome welcome ⟨ranked, newcomer⟩
    exact ⟨begins.wellFormed, begins.kept fun _ => id,
      welcome.lacks (rostered.lacks.welcome _ _ _ _ rfl)⟩
  keeps := by
    intro node event next rostered _ arrived handles
    -- The handler keeps the acceptors in order, and writes no hello into the log.
    have routed := handles.routed rostered.wellFormed rostered.kept
    have self : next.pax.selfId = node.pax.selfId := routed.self
    refine ⟨handles.wellFormed rostered.wellFormed, ?_, ?_⟩
    · rw [self]
      exact routed.kept
    · exact handles.lacks (.hello _ _) rostered.wellFormed rostered.lacks fun source msg asked =>
        (arrived source msg asked).lacks
  sends := by
    intro node event result rostered _ arrived handles peer msg sent
    have wf := rostered.wellFormed
    refine ⟨?_, ?_, ?_⟩
    · exact System.sound_upholds.sends wf trivial (fun source msg asked =>
        (arrived source msg asked).sound) handles peer msg sent
    · exact handles.sends_lacks (.hello _ _) wf rostered.lacks (fun source msg asked =>
        (arrived source msg asked).lacks) sent
    · -- Only a welcome packs the acceptors, and it packs those of the session.
      intro session ibase alist ilist opcode body
      obtain ⟨script, config, -, -, ⟨after, made, -, tells⟩ | teaches⟩ :=
        @Handles.tells _ _ _ (fun _ => True) handles wf (fun _ => trivial)
          (fun _ _ _ => trivial) _ sent
      · obtain ⟨hdr, content⟩ := msg
        obtain rfl : content = .welcome session ibase alist ilist := body
        cases tells with
        | side side =>
          cases side with
          | send _ _ side =>
            have side := Msg.side_opcode side
            rw [opcode] at side
            contradiction
        | welcome prior continues =>
          have kept := prior.opened.kept rostered.kept
          exact ⟨List.pairwise_map.mpr kept.ranked, prior.listed continues.mem⟩
      · contradiction

namespace System

variable {sys next : System}

/-- A channel leads from an end of one process to the other end, of another. -/
def Joins (sys : System) (near far : NodeId) (channel : Nat) (second : Bool) : Prop :=
  sys.Owns near channel second ∧ sys.Owns far channel (!second)

/-- A hello of an identifier is on its way to an end of a channel. -/
def Greeting (sys : System) (paxid channel : Nat) (second : Bool) : Prop :=
  ∃ msg, sys.Waits channel second msg ∧ msg.hdr.opcode = .hello ∧ msg.hdr.inum = paxid

/-- What a session knows a channel by: it is attached to an acceptor, or waits to be. -/
def Heard (sys : System) (node : Node) (paxid channel : Nat) (second : Bool) : Prop :=
  (Attached node.pax.alist paxid (peerOf channel second) ∨
    Attached node.pax.adefer paxid (peerOf channel second)) ∨ sys.Greeting paxid channel second

/-- No hello and no connection attempt between two processes is on its way. -/
structure Quiet (sys : System) (x y : NodeId) : Prop where
  silent : ∀ channel second, sys.Joins x y channel second → ∀ side msg,
    sys.Waits channel side msg → msg.hdr.opcode ≠ .hello
  idle : ∀ attempt ∈ sys.attempts, ¬ (attempt.owner = x ∧ attempt.desc = y) ∧
    ¬ (attempt.owner = y ∧ attempt.desc = x)

/-- A session has a channel to another one, which leads there and holds. -/
structure Connected (sys : System) (x : NodeId) (node : Node) (y : NodeId) (other : Node)
    (channel : Nat) (second : Bool) : Prop where
  attached : Attached node.pax.alist other.pax.selfId (peerOf channel second)
  joins : sys.Joins x y channel second
  holds : sys.Holds channel

/-- Any two members that are connected to each other are the two ends of one channel. -/
def Converged (sys : System) : Prop :=
  ∀ x y node other, sys.Live x node → sys.Live y other → node.pax.selfId ≠ other.pax.selfId →
    sys.Quiet x y → ∀ channel second back side, sys.Connected x node y other channel second →
      sys.Connected y other x node back side → back = channel ∧ side = !second

/-- A welcome is taken where its number is known by no other channel than its own. -/
structure Unknown (sys : System) (id : NodeId) (source : PeerId) (hdr : Header) : Prop where
  lower : ∀ other node channel second, sys.Live other node → node.pax.selfId < hdr.inum →
    sys.Joins other id channel second → sys.Holds channel →
      sys.Heard node hdr.inum channel second →
        peerOf channel (!second) = source ∧ hdr.ballot.id = node.pax.selfId
  higher : ∀ other node channel second, sys.Live other node → hdr.inum < node.pax.selfId →
    sys.Joins id other channel second → sys.Holds channel →
      (source = peerOf channel second ∧ hdr.ballot.id = node.pax.selfId ∨
        sys.Greeting node.pax.selfId channel second) →
          Attached node.pax.alist hdr.inum (peerOf channel (!second))

/-- Steps of reconnections that go to whom they were meant for, and overwrite nothing. -/
structure Orderly (sys : System) (step : Step) : Prop where
  /-- No continuation overwrites the channel that somebody higher-ranked has made. -/
  spares : ∀ id event node purpose acc chan, sys.occasion step = some (id, event) →
    sys.Live id node → Continues node.pax event purpose acc chan → Attaches node.pax acc purpose →
      acc.paxid < node.pax.selfId → ∀ channel second, acc.peer = some (peerOf channel second) →
        ¬ sys.Holds channel
  /-- An attempt finds the acceptor that it was made for, or nobody, as a welcome has to. -/
  meets : ∀ attempt pending node far purpose acc, step = .complete attempt true →
    sys.attempts[attempt]? = some pending → sys.Live pending.owner node →
      sys.Live pending.desc far → Continues node.pax
        (.connected pending.handle (some (peerOf sys.channels.length false))) purpose acc
        (some (peerOf sys.channels.length false)) → Attaches node.pax acc purpose →
          (far.pax.selfId < node.pax.selfId → acc.paxid = far.pax.selfId) ∧
            (purpose = .welcome → acc.paxid ≠ far.pax.selfId)
  /-- No prepared proposer ignores the hello of somebody higher-ranked on its list. -/
  heeds : ∀ id source hdr body node, sys.occasion step = some (id, .message source ⟨hdr, body⟩) →
    hdr.opcode = .hello → sys.Live id node → Listed node.pax.alist hdr.inum → Heeds node.pax hdr
  /-- A newcomer has learned its own join, and nobody knows its number by another channel. -/
  enters : ∀ id source hdr session ibase alist ilist, sys.occasion step =
    some (id, .message source ⟨hdr, .welcome session ibase alist ilist⟩) →
      hdr.opcode = .welcome → (sys.process id).node = none →
        hdr.inum < (acceptorAckWelcome source hdr session ibase alist ilist).pax.ihole ∧
          sys.Unknown id source hdr

/-- What a session knows a channel to a lower-ranked one by, this one knows it by as well. -/
structure Converging (sys : System) : Prop where
  upheld : Upheld Rostered Msg.Rostered sys
  owned : ∀ {id node paxid channel second}, sys.Live id node →
    Attached node.pax.alist paxid (peerOf channel second) ∨
      Attached node.pax.adefer paxid (peerOf channel second) → sys.Owns id channel second
  ahead : ∀ {id node}, sys.Live id node → node.pax.selfId < node.pax.ihole
  ties : ∀ {x y node other channel second}, sys.Live x node → sys.Live y other →
    node.pax.selfId < other.pax.selfId → Listed other.pax.alist node.pax.selfId →
      sys.Joins x y channel second → sys.Holds channel →
        sys.Heard node other.pax.selfId channel second →
          Attached other.pax.alist node.pax.selfId (peerOf channel (!second)) ∨
            sys.Greeting node.pax.selfId channel (!second)

/-- Where the lower-ranked end of a channel has it, so has the other, and it is the only one. -/
theorem Converging.converged (converging : Converging sys) : Converged sys := by
  -- The statement is symmetric, so it is enough to argue from the lower-ranked end.
  have ordered : ∀ {x y node other channel second back side}, sys.Live x node →
      sys.Live y other → node.pax.selfId < other.pax.selfId → sys.Quiet x y →
        sys.Connected x node y other channel second → sys.Connected y other x node back side →
          back = channel ∧ side = !second := by
    intro x y node other channel second back side near far less quiet here there
    have ranked := (converging.upheld.live y other far.1 far.2).kept.ranked
    rcases converging.ties near far less there.attached.listed here.joins here.holds
      (Or.inl (Or.inl here.attached)) with attached | ⟨msg, waits, opcode, -⟩
    · obtain ⟨acc, mem, named, held⟩ := attached
      have same := there.attached.peer_eq ranked mem named
      exact peerOf_inj (Option.some.inj (same.symm.trans held))
    · exact absurd opcode (quiet.silent channel second here.joins _ msg waits)
  -- Turned around, the quiet and the channel are those of the other end.
  intro x y node other near far apart quiet channel second back side here there
  rcases Nat.lt_or_gt_of_ne apart with less | less
  · exact ordered near far less quiet here there
  · have turned : sys.Quiet y x := by
      constructor
      · intro channel second joins side msg waits
        refine quiet.silent channel (!second) ⟨joins.2, ?_⟩ side msg waits
        rw [Bool.not_not]
        exact joins.1
      · exact fun attempt mem => (quiet.idle attempt mem).symm
    obtain ⟨rfl, rfl⟩ := ordered far near less turned there here
    exact ⟨rfl, (Bool.not_not side).symm⟩

namespace Reacts

variable {step : Step} {id : NodeId} {event : Event} {node : Node} {result : Result}

/-- A session that is still there has handled the event. -/
theorem ok {last : Node} (reacts : Reacts sys next step id event node result)
    (live : next.Live id last) : result = .ok last := by
  rcases live.handled reacts.made reacts.others with ⟨apart, -⟩ | ⟨-, same⟩
  · exact absurd rfl apart
  · exact same

/-- The session of another process is the one that it was. -/
theorem other {far : NodeId} {last : Node} (reacts : Reacts sys next step id event node result)
    (apart : far ≠ id) (live : next.Live far last) : sys.Live far last := by
  rcases live.handled reacts.made reacts.others with ⟨-, before⟩ | ⟨same, -⟩
  · exact before
  · exact absurd same apart

/-- No event brings a hello within an instance. -/
theorem brings (reacts : Reacts sys next step id event node result)
    (upheld : Upheld Rostered Msg.Rostered sys) : event.Lacks .hello :=
  fun _ _ asked => (upheld.arrived reacts.arrives asked).lacks

/-- The channel that was made is owned by whom it was made for, and by who wanted it. -/
theorem linked {handle : Nat} {peer : PeerId} {channel : Nat} {second : Bool}
    (reacts : Reacts sys next step id event node result)
    (made : event = .connected handle (some peer)) (same : peer = peerOf channel second) :
    channel = sys.channels.length ∧ second = false ∧ next.Owns id channel false := by
  -- Both ends of the attempt are named by the same peers.
  subst made
  obtain ⟨other, same', owns⟩ := reacts.arrives
  obtain ⟨attempt, pending, -, -, -, -, same'', -⟩ := reacts.far rfl
  obtain ⟨rfl, rfl⟩ := peerOf_inj (same.symm.trans same'')
  obtain ⟨rfl, -⟩ := peerOf_inj (same.symm.trans same')
  exact ⟨rfl, rfl, owns⟩

/-- A hello that is new goes over a channel that was just made, from who has made it. -/
theorem greets {paxid channel : Nat} {second : Bool}
    (reacts : Reacts sys next step id event node result)
    (upheld : Upheld Rostered Msg.Rostered sys) (greeting : next.Greeting paxid channel second) :
    sys.Greeting paxid channel second ∨ paxid = node.pax.selfId ∧ second = true ∧
      channel = sys.channels.length ∧ ∃ purpose acc, Continues node.pax event purpose acc
        (some (peerOf channel false)) ∧ Attaches node.pax acc purpose := by
  -- A hello that was not there before was sent by this handler, as it connected.
  obtain ⟨msg, waits, opcode, named⟩ := greeting
  rcases reacts.grows.waits waits with before | sent
  · exact Or.inl ⟨msg, before, opcode, named⟩
  · have rostered := upheld.live id node reacts.live.1 reacts.live.2
    obtain ⟨purpose, acc, continues, attaches, self⟩ := reacts.handles.hello rostered.wellFormed
      rostered.lacks (reacts.brings upheld) sent opcode
    have connected := continues
    obtain ⟨handle, _, asked, -⟩ := connected
    obtain ⟨fresh, first, -⟩ := reacts.linked asked rfl
    have second : second = true := by simpa using first
    rw [first] at continues
    exact Or.inr ⟨named.symm.trans self, second, fresh, purpose, acc, continues, attaches⟩

end Reacts

/-- Who knows a channel has an end of it, or a hello waits there. -/
theorem Converging.inside {id : NodeId} {node : Node} {paxid channel : Nat} {second : Bool}
    (converging : Converging sys) (live : sys.Live id node)
    (heard : sys.Heard node paxid channel second) : channel < sys.channels.length := by
  rcases heard with attached | ⟨msg, ⟨chan, held, -⟩, -⟩
  · exact (converging.owned live attached).inside
  · exact (List.getElem?_eq_some_iff.mp held).1

/-- A channel that was there before joins whom it joined. -/
theorem Grows.joins {x y : NodeId} {channel : Nat} {second : Bool} {told : List Effect}
    (grows : Grows sys next told) (inside : channel < sys.channels.length)
    (joins : next.Joins x y channel second) : sys.Joins x y channel second :=
  ⟨grows.owned inside joins.1, grows.owned inside joins.2⟩

/-- Where nothing is sent, a hello that is on its way was so before. -/
theorem Grows.greeting {paxid channel : Nat} {second : Bool} {told : List Effect}
    (grows : Grows sys next told) (silent : ∀ peer msg, .send peer msg ∉ told)
    (greeting : next.Greeting paxid channel second) : sys.Greeting paxid channel second := by
  obtain ⟨msg, waits, hello⟩ := greeting
  exact ⟨msg, (grows.waits waits).resolve_right (silent _ _), hello⟩

/-- What the higher-ranked end was told before is still so, unless it is handed the hello now. -/
theorem Converging.stays {x y : NodeId} {node other : Node} {channel : Nat} {second : Bool}
    {told : List Effect} {what : Option (NodeId × Event)} (converging : Converging sys)
    (near : sys.Live x node) (far : sys.Live y other)
    (less : node.pax.selfId < other.pax.selfId) (listed : Listed other.pax.alist node.pax.selfId)
    (grows : Grows sys next told) (passes : Passes sys next what)
    (joins : next.Joins x y channel second) (holds : next.Holds channel)
    (heard : sys.Heard node other.pax.selfId channel second) :
    Attached other.pax.alist node.pax.selfId (peerOf channel (!second)) ∨
      next.Greeting node.pax.selfId channel (!second) ∨
        ∃ hdr body, hdr.opcode = .hello ∧ hdr.inum = node.pax.selfId ∧
          what = some (y, .message (peerOf channel (!second)) ⟨hdr, body⟩) := by
  have inside := converging.inside near heard
  have joined := grows.joins inside joins
  -- The two were tied before: attached, or by a hello on its way.
  rcases converging.ties near far less listed joined (passes.holds inside holds) heard with
    attached | ⟨⟨hdr, body⟩, waits, opcode, named⟩
  · exact Or.inl attached
  · -- A hello that is on its way still is, or is handed over now.
    rcases passes.stays waits holds with still | ⟨id, owns, handed⟩
    · exact Or.inr (Or.inl ⟨⟨hdr, body⟩, still, opcode, named⟩)
    · obtain rfl := owns.unique joined.2
      exact Or.inr (Or.inr ⟨hdr, body, opcode, named, handed⟩)

/-- Two sessions that nothing happens to. -/
theorem Converging.aside {x y id : NodeId} {step : Step} {event : Event}
    {node other actor : Node} {result : Result} {channel : Nat} {second : Bool}
    (converging : Converging sys) (reacts : Reacts sys next step id event actor result)
    (distant : y ≠ id) (near : sys.Live x node) (far : sys.Live y other)
    (less : node.pax.selfId < other.pax.selfId) (listed : Listed other.pax.alist node.pax.selfId)
    (joins : next.Joins x y channel second) (holds : next.Holds channel)
    (heard : next.Heard node other.pax.selfId channel second) :
    Attached other.pax.alist node.pax.selfId (peerOf channel (!second)) ∨
      next.Greeting node.pax.selfId channel (!second) := by
  -- Whoever knows the channel knew it, or was greeted on it, before the step.
  have heard : sys.Heard node other.pax.selfId channel second := by
    refine heard.imp_right fun greeting => ?_
    rcases reacts.greets converging.upheld greeting with before |
      ⟨-, rfl, rfl, _, _, ⟨_, _, asked, -⟩, -⟩
    · exact before
    · -- The hello would come from the far end.
      obtain ⟨-, -, owns⟩ := reacts.linked asked rfl
      exact absurd (joins.2.unique owns) distant
  rcases converging.stays near far less listed reacts.grows reacts.passes joins holds heard with
    attached | greeting | ⟨_, _, -, -, handed⟩
  · exact Or.inl attached
  · exact Or.inr greeting
  · exact absurd (Prod.mk.inj (Option.some.inj handed)).1.symm distant

/-- The lower-ranked end attaches a channel, and tells the other so. -/
theorem Converging.near {x y : NodeId} {step : Step} {event : Event} {node other last : Node}
    {channel : Nat} {second : Bool} (converging : Converging sys)
    (orderly : Orderly sys step) (reacts : Reacts sys next step x event node (.ok last))
    (distant : y ≠ x) (far : sys.Live y other) (less : last.pax.selfId < other.pax.selfId)
    (listed : Listed other.pax.alist last.pax.selfId) (joins : next.Joins x y channel second)
    (holds : next.Holds channel) (heard : next.Heard last other.pax.selfId channel second) :
    Attached other.pax.alist last.pax.selfId (peerOf channel (!second)) ∨
      next.Greeting last.pax.selfId channel (!second) := by
  -- What the handler gains is attached already, deferred, greeted, or just made.
  have rostered := converging.upheld.live x node reacts.live.1 reacts.live.2
  have routed := reacts.handles.routed rostered.wellFormed rostered.kept
  have self : last.pax.selfId = node.pax.selfId := routed.self
  rw [self] at less listed ⊢
  have before : sys.Heard node other.pax.selfId channel second →
      Attached other.pax.alist node.pax.selfId (peerOf channel (!second)) ∨
        next.Greeting node.pax.selfId channel (!second) := by
    intro heard
    rcases converging.stays reacts.live far less listed reacts.grows reacts.passes joins holds
      heard with attached | greeting | ⟨_, _, -, -, handed⟩
    · exact Or.inl attached
    · exact Or.inr greeting
    · exact absurd (Prod.mk.inj (Option.some.inj handed)).1.symm distant
  rcases heard with attached | greeting
  · cases routed.gains other.pax.selfId (peerOf channel second) attached with
    | attached attached => exact before (Or.inl (Or.inl attached))
    | deferred deferred => exact before (Or.inl (Or.inr deferred))
    -- The hello that makes it known is on its way the other way round.
    | @greeted hdr body asked opcode named =>
      have arrives := reacts.arrives
      rw [asked] at arrives
      obtain ⟨place, side, same, -, waits⟩ := arrives
      obtain ⟨rfl, rfl⟩ := peerOf_inj same
      exact before (Or.inr ⟨_, waits, opcode, named⟩)
    | @made purpose acc continues attaches named =>
      obtain ⟨handle, k, rfl, rest⟩ := continues
      have continues : Continues node.pax (.connected handle (some (peerOf channel second)))
          purpose acc (some (peerOf channel second)) := ⟨handle, k, rfl, rest⟩
      obtain ⟨fresh, rfl, -⟩ := reacts.linked rfl rfl
      obtain ⟨attempt, pending, rfl, held, owner, rfl, -, owns⟩ := reacts.far rfl
      subst fresh
      have reached := joins.2.unique owns
      obtain ⟨attached, effects, out, told⟩ := reacts.handles.reaches continues attaches
      -- A welcome only goes to who is not in the session yet.
      have unwelcome : purpose ≠ .welcome := fun welcome =>
        (orderly.meets attempt pending node other purpose acc rfl held (owner ▸ reacts.live)
          (reached ▸ far) continues attaches).2 welcome named
      obtain ⟨msg, mem, opcode, number⟩ := told unwelcome
      refine Or.inr ⟨msg, reacts.sent ?_ holds, opcode, number⟩
      show _ ∈ last.out.drop node.out.length
      rw [out, List.drop_left]
      exact mem
  · -- The hello would be a new one, from the session itself.
    rcases reacts.greets converging.upheld greeting with old |
      ⟨-, rfl, rfl, _, _, ⟨_, _, asked, -⟩, -⟩
    · exact before (Or.inr old)
    · obtain ⟨-, -, owns⟩ := reacts.linked asked rfl
      exact absurd (joins.2.unique owns) distant

/-- The higher-ranked end keeps a channel that the other knows, until the next hello. -/
theorem Converging.far {x y : NodeId} {step : Step} {event : Event} {node other last : Node}
    {channel : Nat} {second : Bool} (converging : Converging sys) (orderly : Orderly sys step)
    (reacts : Reacts sys next step y event other (.ok last))
    (what : sys.occasion step = some (y, event)) (near : sys.Live x node)
    (less : node.pax.selfId < last.pax.selfId) (listed : Listed last.pax.alist node.pax.selfId)
    (joins : next.Joins x y channel second) (holds : next.Holds channel)
    (heard : next.Heard node last.pax.selfId channel second) :
    Attached last.pax.alist node.pax.selfId (peerOf channel (!second)) ∨
      next.Greeting node.pax.selfId channel (!second) := by
  -- The handler spends a channel only for a reason, each of which is excluded here.
  have rostered := converging.upheld.live y other reacts.live.1 reacts.live.2
  have wf := rostered.wellFormed
  have ranked : Ranked other.pax.alist := rostered.kept.ranked
  have routed := reacts.handles.routed wf rostered.kept
  have self : last.pax.selfId = other.pax.selfId := routed.self
  rw [self] at less heard
  have behind : node.pax.selfId < other.pax.ihole :=
    Nat.lt_trans less (converging.ahead reacts.live)
  have there : Listed other.pax.alist node.pax.selfId := routed.listed _ behind listed
  have before : sys.Heard node other.pax.selfId channel second →
      Attached last.pax.alist node.pax.selfId (peerOf channel (!second)) ∨
        next.Greeting node.pax.selfId channel (!second) := by
    intro heard
    have inside := converging.inside near heard
    rcases converging.stays near reacts.live less there reacts.grows reacts.passes joins holds
      heard with attached | greeting | ⟨hdr, body, opcode, named, handed⟩
    · -- The channel is on the list, unless the handler has spent it.
      left
      rcases routed.spends _ _ behind listed attached with still | spent
      · exact still
      · exfalso
        cases spent with
        -- A hello from below was taken, so the old channel is closed.
        | @replaced source hdr body asked opcode heeded named lower =>
          subst asked
          have closed := (reacts.handles.replaces opcode heeded (Or.inl lower) ranked
            (named ▸ there)).2 _ (named ▸ attached)
          exact reacts.shut closed holds
        -- An attempt that completes replaces it only if the old channel no longer holds.
        | @remade purpose acc chan continues attaches named =>
          have held := attached.peer_eq ranked continues.mem named
          exact orderly.spares y event other purpose acc chan what reacts.live continues attaches
            (named ▸ less) channel (!second) held (reacts.passes.holds inside holds)
        | dropped dropped => exact reacts.passes.lost (by rw [dropped]) holds
    · exact Or.inr greeting
    · -- The hello is handled right now, and attaches the channel.
      obtain ⟨-, rfl⟩ := Prod.mk.inj (Option.some.inj handed)
      have heeded := orderly.heeds y _ hdr body other what opcode reacts.live (named ▸ there)
      left
      rw [← named]
      exact (reacts.handles.replaces opcode heeded (Or.inl (named ▸ less)) ranked
        (named ▸ there)).1
  rcases heard with attached | greeting
  · exact before (Or.inl attached)
  · rcases reacts.greets converging.upheld greeting with old |
      ⟨-, rfl, rfl, purpose, acc, continues, attaches⟩
    · exact before (Or.inr old)
    · -- The hello is our own, and the channel is attached to the acceptor that was meant.
      obtain ⟨handle, k, rfl, rest⟩ := continues
      have continues : Continues other.pax
          (.connected handle (some (peerOf sys.channels.length false))) purpose acc
          (some (peerOf sys.channels.length false)) := ⟨handle, k, rfl, rest⟩
      obtain ⟨attempt, pending, rfl, held, owner, rfl, -, owns⟩ := reacts.far rfl
      have reached := joins.1.unique owns
      have named := (orderly.meets attempt pending other node purpose acc rfl held
        (owner ▸ reacts.live) (reached ▸ near) continues attaches).1 less
      left
      rw [← named]
      exact (reacts.handles.reaches continues attaches).attached

/-- A newcomer knows the people of its welcome, by no channel but the one that it came over. -/
structure Introduced (newcomer : Node) (source : PeerId) (hdr : Header) : Prop where
  self : newcomer.pax.selfId = hdr.inum
  waits : newcomer.pax.adefer = []
  people : ∀ {paxid peer}, Attached newcomer.pax.alist paxid peer →
    peer = source ∧ paxid = hdr.ballot.id
  sender : Listed newcomer.pax.alist hdr.ballot.id →
    Attached newcomer.pax.alist hdr.ballot.id source

/-- So it is with whom a welcome is handed to. -/
theorem acceptorAckWelcome_introduced (source : PeerId) (hdr : Header) (session : Uuid)
    (ibase : Nat) (alist : List PackedAcceptor) (ilist : List PackedInstance) :
    Introduced (acceptorAckWelcome source hdr session ibase alist ilist) source hdr := by
  -- The log of the welcome is read without a look at the people.
  have polity := @welcomeAcceptors_polity source hdr alist
    { pax :=
        { sessionNew session with
          ballot := hdr.ballot, selfId := hdr.inum, genHigh := hdr.ballot.gen, ibase := ibase
          liveCount := 1 }
      out := [.enter]
      script := [] }
  have listed : (acceptorAckWelcome source hdr session ibase alist ilist).pax.alist =
      alist.map (welcomedAcceptor source hdr) := congrArg (fun polity => polity.roster.alist) polity
  constructor
  case self => exact congrArg Polity.selfId polity
  case waits => exact congrArg (fun polity => polity.roster.adefer) polity
  -- Whoever has a channel has that to the sender.
  case people =>
    rintro paxid peer ⟨acc, mem, rfl, held⟩
    rw [listed] at mem
    obtain ⟨packed, -, rfl⟩ := List.mem_map.mp mem
    simp only [welcomedAcceptor] at held ⊢
    split at held
    · rename_i named
      exact ⟨(Option.some.inj held).symm, named⟩
    · contradiction
  -- The sender is on the list, if it is in the welcome.
  case sender =>
    rintro ⟨acc, mem, named⟩
    rw [listed] at mem ⊢
    obtain ⟨packed, there, rfl⟩ := List.mem_map.mp mem
    exact ⟨_, List.mem_map_of_mem there, named, if_pos named⟩

/-- Nobody waits to be attached at a newcomer. -/
theorem Introduced.known {newcomer : Node} {source : PeerId} {hdr : Header} {paxid : Nat}
    {peer : PeerId} (introduced : Introduced newcomer source hdr)
    (known : Attached newcomer.pax.alist paxid peer ∨ Attached newcomer.pax.adefer paxid peer) :
    peer = source ∧ paxid = hdr.ballot.id := by
  rcases known with attached | ⟨acc, mem, -⟩
  · exact introduced.people attached
  · rw [introduced.waits] at mem
    exact absurd mem List.not_mem_nil

/-- The handling of an event keeps channels known at both of their ends. -/
theorem Converging.handle {step : Step} {id : NodeId} {event : Event} {node : Node}
    {result : Result} (converging : Converging sys) (orderly : Orderly sys step)
    (what : sys.occasion step = some (id, event))
    (reacts : Reacts sys next step id event node result)
    (upheld : Upheld Rostered Msg.Rostered next) : Converging next := by
  -- The four parts are shown for whoever has handled the event, and for the rest.
  have rostered := converging.upheld.live id node reacts.live.1 reacts.live.2
  have routed : ∀ {last}, next.Live id last → Routed node event ⟨last, []⟩ := by
    intro last live
    obtain rfl := reacts.ok live
    exact reacts.handles.routed rostered.wellFormed rostered.kept
  constructor
  · exact upheld
  · -- What the handler has attached is a channel that it owns.
    intro other last paxid channel second live attached
    by_cases same : other = id
    · subst same
      cases (routed live).gains paxid _ attached with
      | attached attached =>
        exact reacts.grows.owns (converging.owned reacts.live (Or.inl attached))
      | deferred deferred =>
        exact reacts.grows.owns (converging.owned reacts.live (Or.inr deferred))
      | greeted asked =>
        have arrives := reacts.arrives
        rw [asked] at arrives
        obtain ⟨place, side, same, owns, -⟩ := arrives
        obtain ⟨rfl, rfl⟩ := peerOf_inj same
        exact reacts.grows.owns owns
      | made continues =>
        obtain ⟨handle, k, asked, -⟩ := continues
        obtain ⟨rfl, rfl, owns⟩ := reacts.linked asked rfl
        exact owns
    · exact reacts.grows.owns (converging.owned (reacts.other same live) attached)
  · -- The session stays behind its own hole.
    intro other last live
    by_cases same : other = id
    · subst same
      have self : last.pax.selfId = node.pax.selfId := (routed live).self
      have hole : node.pax.ihole ≤ last.pax.ihole := (routed live).hole
      have ahead := converging.ahead reacts.live
      omega
    · exact converging.ahead (reacts.other same live)
  · -- Either end may be the one that has handled the event, or neither.
    intro x y first second channel side near far less listed joins holds heard
    by_cases here : x = id
    · subst here
      obtain rfl := reacts.ok near
      have distant : y ≠ x := by
        rintro rfl
        rw [near.unique far] at less
        exact Nat.lt_irrefl _ less
      exact converging.near orderly reacts distant (reacts.other distant far) less listed joins
        holds heard
    · have near := reacts.other here near
      by_cases there : y = id
      · subst there
        obtain rfl := reacts.ok far
        exact converging.far orderly reacts what near less listed joins holds heard
      · exact converging.aside reacts there near (reacts.other there far) less listed joins holds
          heard

/-- Sessions that were there before know what they knew, where nobody is handed anything. -/
theorem Converging.keeps {x y : NodeId} {node other : Node} {channel : Nat} {second : Bool}
    {told : List Effect} {what : Option (NodeId × Event)} (converging : Converging sys)
    (grows : Grows sys next told) (passes : Passes sys next what)
    (silent : ∀ peer msg, .send peer msg ∉ told)
    (quiet : ∀ id event, what = some (id, event) →
      (sys.process id).crashed = false → (sys.process id).node = none)
    (near : sys.Live x node) (far : sys.Live y other) (less : node.pax.selfId < other.pax.selfId)
    (listed : Listed other.pax.alist node.pax.selfId) (joins : next.Joins x y channel second)
    (holds : next.Holds channel) (heard : next.Heard node other.pax.selfId channel second) :
    Attached other.pax.alist node.pax.selfId (peerOf channel (!second)) ∨
      next.Greeting node.pax.selfId channel (!second) := by
  -- A hello that is on its way was on its way before.
  have heard : sys.Heard node other.pax.selfId channel second :=
    heard.imp_right (grows.greeting silent)
  rcases converging.stays near far less listed grows passes joins holds heard with
    attached | greeting | ⟨_, _, -, -, handed⟩
  · exact Or.inl attached
  · exact Or.inr greeting
  · -- Whoever was handed the hello would have been in the session.
    have gone := quiet _ _ handed far.1
    rw [far.2] at gone
    contradiction

/-- A founder is alone. -/
theorem Converging.founds {id : NodeId} {session : Uuid}
    (unborn : ∀ id, (sys.process id).node = none)
    (made : next.process id = { sys.process id with node := some (paxosStart session id) })
    (others : ∀ other, other ≠ id → next.process other = sys.process other)
    (upheld : Upheld Rostered Msg.Rostered next) : Converging next := by
  -- All that is live is the founder.
  have alone : ∀ {other node}, next.Live other node → node = paxosStart session id :=
    fun live => (live.alone unborn made others).2
  constructor
  · exact upheld
  · -- It has no channel to itself.
    intro other node paxid channel second live attached
    rw [alone live] at attached
    rcases attached with ⟨acc, mem, -, held⟩ | ⟨acc, mem, -⟩
    · obtain rfl := List.mem_singleton.mp mem
      contradiction
    · exact absurd mem List.not_mem_nil
  · intro other node live
    rw [alone live]
    exact Nat.lt_succ_self 1
  · intro x y node other channel second near far less
    rw [alone near, alone far] at less
    exact absurd less (Nat.lt_irrefl _)

/-- A newcomer has no end of a channel but the one that its welcome came over. -/
theorem Introduced.owned {id : NodeId} {source : PeerId} {hdr : Header} {body : Body}
    {newcomer : Node} {paxid channel : Nat} {second : Bool}
    (introduced : Introduced newcomer source hdr)
    (arrives : Arrives sys next id (.message source ⟨hdr, body⟩))
    (known : Attached newcomer.pax.alist paxid (peerOf channel second) ∨
      Attached newcomer.pax.adefer paxid (peerOf channel second)) : sys.Owns id channel second := by
  obtain ⟨place, side, same, owns, -⟩ := arrives
  obtain ⟨rfl, rfl⟩ := peerOf_inj ((introduced.known known).1.trans same)
  exact owns

/-- What a newcomer knows of the higher-ranked, those have it on their lists for. -/
theorem Introduced.higher {id y : NodeId} {source : PeerId} {hdr : Header} {body : Body}
    {newcomer other : Node} {channel : Nat} {second : Bool} {told : List Effect}
    {what : Option (NodeId × Event)} (introduced : Introduced newcomer source hdr)
    (unknown : sys.Unknown id source hdr)
    (arrives : Arrives sys next id (.message source ⟨hdr, body⟩)) (grows : Grows sys next told)
    (silent : ∀ peer msg, .send peer msg ∉ told) (passes : Passes sys next what)
    (far : sys.Live y other) (less : hdr.inum < other.pax.selfId)
    (joins : next.Joins id y channel second) (holds : next.Holds channel)
    (heard : next.Heard newcomer other.pax.selfId channel second) :
    Attached other.pax.alist hdr.inum (peerOf channel (!second)) := by
  -- The newcomer knows the sender, or is greeted on a channel that there was.
  have heard : (source = peerOf channel second ∧ hdr.ballot.id = other.pax.selfId ∨
      sys.Greeting other.pax.selfId channel second) ∧ channel < sys.channels.length := by
    rcases heard with known | greeting
    · obtain ⟨same, named⟩ := introduced.known known
      exact ⟨Or.inl ⟨same.symm, named.symm⟩, (introduced.owned arrives known).inside⟩
    · have before := grows.greeting silent greeting
      obtain ⟨msg, ⟨chan, held, -⟩, -⟩ := before
      exact ⟨Or.inr (grows.greeting silent greeting), (List.getElem?_eq_some_iff.mp held).1⟩
  exact unknown.higher y other channel second far less (grows.joins heard.2 joins)
    (passes.holds heard.2 holds) heard.1

/-- A lower-ranked member knows a newcomer by the channel of its welcome, as it has sent that. -/
theorem Introduced.lower {id x : NodeId} {source : PeerId} {hdr : Header}
    {newcomer node : Node} {channel : Nat} {second : Bool} {told : List Effect}
    {what : Option (NodeId × Event)} (introduced : Introduced newcomer source hdr)
    (converging : Converging sys) (unknown : sys.Unknown id source hdr)
    (grows : Grows sys next told) (silent : ∀ peer msg, .send peer msg ∉ told)
    (passes : Passes sys next what) (near : sys.Live x node) (less : node.pax.selfId < hdr.inum)
    (listed : Listed newcomer.pax.alist node.pax.selfId) (joins : next.Joins x id channel second)
    (holds : next.Holds channel) (heard : next.Heard node hdr.inum channel second) :
    Attached newcomer.pax.alist node.pax.selfId (peerOf channel (!second)) := by
  -- The newcomer was heard of before the step, by the channel that its welcome went over.
  have heard : sys.Heard node hdr.inum channel second := heard.imp_right (grows.greeting silent)
  have inside := converging.inside near heard
  obtain ⟨same, named⟩ := unknown.lower x node channel second near less (grows.joins inside joins)
    (passes.holds inside holds) heard
  rw [same]
  rw [← named] at listed ⊢
  exact introduced.sender listed

/-- A welcome that is taken in order leaves channels known at both of their ends. -/
theorem Converging.welcomes {id : NodeId} {source : PeerId} {hdr : Header} {body : Body}
    {newcomer : Node} {told : List Effect} (converging : Converging sys)
    (introduced : Introduced newcomer source hdr) (unknown : sys.Unknown id source hdr)
    (ahead : hdr.inum < newcomer.pax.ihole) (gone : (sys.process id).node = none)
    (arrives : Arrives sys next id (.message source ⟨hdr, body⟩))
    (made : next.process id = { sys.process id with node := some newcomer })
    (others : ∀ other, other ≠ id → next.process other = sys.process other)
    (grows : Grows sys next told) (silent : ∀ peer msg, .send peer msg ∉ told)
    (passes : Passes sys next (some (id, .message source ⟨hdr, body⟩)))
    (upheld : Upheld Rostered Msg.Rostered next) : Converging next := by
  -- Nobody else has entered, and the newcomer was in no session.
  have either : ∀ {other node}, next.Live other node →
      other ≠ id ∧ sys.Live other node ∨ other = id ∧ node = newcomer := Live.entered made others
  have quiet : ∀ who event, some (id, Event.message source ⟨hdr, body⟩) = some (who, event) →
      (sys.process who).crashed = false → (sys.process who).node = none := by
    intro who event what _
    rw [← (Prod.mk.inj (Option.some.inj what)).1]
    exact gone
  constructor
  · exact upheld
  · intro other node paxid channel second live known
    rcases either live with ⟨-, live⟩ | ⟨rfl, rfl⟩
    · exact grows.owns (converging.owned live known)
    · exact grows.owns (introduced.owned arrives known)
  · intro other node live
    rcases either live with ⟨-, live⟩ | ⟨rfl, rfl⟩
    · exact converging.ahead live
    · exact introduced.self ▸ ahead
  · -- Either end may be the newcomer, or neither.
    intro x y node other channel second near far less listed joins holds heard
    rcases either near with ⟨-, near⟩ | ⟨rfl, rfl⟩
    · rcases either far with ⟨-, far⟩ | ⟨rfl, rfl⟩
      · exact converging.keeps grows passes silent quiet near far less listed joins holds heard
      · rw [introduced.self] at less heard
        exact Or.inl (introduced.lower converging unknown grows silent passes near less listed
          joins holds heard)
    · rcases either far with ⟨-, far⟩ | ⟨rfl, rfl⟩
      · rw [introduced.self] at less ⊢
        exact Or.inl (introduced.higher unknown arrives grows silent passes far less joins holds
          heard)
      · exact absurd less (Nat.lt_irrefl _)

/-- A step that no session reacts to keeps channels known at both of their ends. -/
theorem Converging.quiet {choice : Choice} {step : Step} (converging : Converging sys)
    (orderly : Orderly sys step) (stepped : sys.step choice step = some next)
    (unborn : sys.started = false → ∀ id, (sys.process id).node = none)
    (quiet : ∀ id event, sys.occasion step = some (id, event) →
      (sys.process id).crashed = false → (sys.process id).node = none)
    (upheld : Upheld Rostered Msg.Rostered next) : Converging next := by
  -- Without a reaction a step is idle, or somebody enters.
  have passes := step_quiet stepped quiet
  have enters := orderly.enters
  have turn := step_turn stepped
  generalize what : sys.occasion step = occasion at turn passes quiet
  -- Only a turn that is idle or enters somebody is left.
  cases turn with
  | idle nodes _ lives _ grows =>
    have before : ∀ {id node}, next.Live id node → sys.Live id node := Live.idle nodes lives
    constructor
    · exact upheld
    · exact fun live attached => grows.owns (converging.owned (before live) attached)
    · exact fun live => converging.ahead (before live)
    · exact fun near far => converging.keeps grows passes (fun _ _ => List.not_mem_nil) quiet
        (before near) (before far)
  | start _ once made others _ _ => exact .founds (unborn once) made others upheld
  -- The order of the step says that nobody else knows the newcomer.
  | greet opcode gone arrives made others _ grows =>
    obtain ⟨ahead, unknown⟩ := enters _ _ _ _ _ _ _ what opcode gone
    refine converging.welcomes (acceptorAckWelcome_introduced _ _ _ _ _ _) unknown ahead gone
      arrives made others grows ?_ passes upheld
    intro peer msg sent
    rcases acceptorAckWelcome_out _ sent with told | ⟨_, _, told⟩ <;> cases told
  -- Nobody is in a session to handle the event.
  | handle up live =>
    rw [quiet _ _ rfl up] at live
    contradiction

/-- Orderly steps keep channels known at both of their ends. -/
theorem Converging.step {choice : Choice} {step : Step} (converging : Converging sys)
    (orderly : Orderly sys step) (stepped : sys.step choice step = some next)
    (unborn : sys.started = false → ∀ id, (sys.process id).node = none) : Converging next := by
  have upheld : Upheld Rostered Msg.Rostered next :=
    rostered_upholds.step converging.upheld (fun _ _ _ _ _ => trivial) stepped
  -- Either a live session handles an event in the step, or nobody does.
  by_cases reacting : ∃ id event node, sys.occasion step = some (id, event) ∧ sys.Live id node
  · obtain ⟨id, event, node, what, live⟩ := reacting
    obtain ⟨result, reacts⟩ := step_handled stepped what live
    exact converging.handle orderly what reacts upheld
  · refine converging.quiet orderly stepped unborn (fun id event what up => ?_) upheld
    by_contra there
    obtain ⟨node, live⟩ := Option.ne_none_iff_exists'.mp there
    exact reacting ⟨id, event, node, what, up, live⟩

/-- In orderly runs channels are known at both of their ends. -/
theorem Conducts.converging (run : Conducts Orderly init sys) : Converging sys := by
  -- By induction on the run, which begins with nobody live.
  induction run with
  | refl =>
    refine ⟨.init _ _, ?_, ?_, ?_⟩
    · intro id node paxid channel second live
      exact absurd live.2 (by simp [init])
    · intro id node live
      exact absurd live.2 (by simp [init])
    · intro x y node other channel second live
      exact absurd live.2 (by simp [init])
  | step run orderly stepped ih =>
    exact ih.step orderly stepped fun unstarted id => ((run.unborn unstarted).1 id).1

/--
Concurrent reconnections converge, in every run of orderly steps.

Any two members that are connected to each other share a channel when nothing between them is on
its way.
-/
theorem reconnection_converges (run : Conducts Orderly init sys) : Converged sys :=
  run.converging.converged

instance (paxid channel : Nat) (second : Bool) : Decidable (sys.Greeting paxid channel second) :=
  decidable_of_iff (∃ chan ∈ sys.channels[channel]?, ∃ msg ∈ (chan.atEnd second).inbox,
      msg.hdr.opcode = .hello ∧ msg.hdr.inum = paxid)
    ⟨fun ⟨chan, held, msg, mem, hello⟩ => ⟨msg, ⟨chan, held, mem⟩, hello⟩,
      fun ⟨msg, ⟨chan, held, mem⟩, hello⟩ => ⟨chan, held, msg, mem, hello⟩⟩

instance (x y : NodeId) (channel : Nat) (second : Bool) :
    Decidable (sys.Joins x y channel second) :=
  inferInstanceAs (Decidable (_ ∧ _))

instance (node : Node) (paxid channel : Nat) (second : Bool) :
    Decidable (sys.Heard node paxid channel second) :=
  inferInstanceAs (Decidable ((_ ∨ _) ∨ _))

/-- What makes the number of a welcome unknown, of one process and one channel between the two. -/
def apart (sys : System) (id : NodeId) (source : PeerId) (hdr : Header) (other : NodeId)
    (node : Node) (channel : Nat) (second : Bool) : Bool :=
  (node.pax.selfId < hdr.inum → sys.Joins other id channel second →
      sys.Heard node hdr.inum channel second →
        peerOf channel (!second) = source ∧ hdr.ballot.id = node.pax.selfId) ∧
    (hdr.inum < node.pax.selfId → sys.Joins id other channel second →
      (source = peerOf channel second ∧ hdr.ballot.id = node.pax.selfId ∨
        sys.Greeting node.pax.selfId channel second) →
          Attached node.pax.alist hdr.inum (peerOf channel (!second)))

/-- An attempt of a session reaches whom it was made for, and nobody higher-ranked twice. -/
def aimed (sys : System) (step : Step) (node : Node) (k : Continuation) (acc : Acceptor) : Bool :=
  (acc.paxid < node.pax.selfId → acc.peer = none) &&
    match step with
    | .complete attempt true => (sys.attempts[attempt]?).all fun pending =>
      (sys.process pending.desc).node.all fun far =>
        (far.pax.selfId < node.pax.selfId → acc.paxid = far.pax.selfId) ∧
          (k.purpose = .welcome → acc.paxid ≠ far.pax.selfId)
    | _ => true

/-- Whether a step is orderly in a system whose sessions are those of some processes. -/
def orderly (names : List NodeId) (sys : System) (step : Step) : Bool :=
  (sys.occasion step).all fun (id, event) =>
    match (sys.process id).node, event with
    | some node, .connected handle _ =>
      (node.pax.clist.find? fun k => k.handle = handle).all fun k =>
        (acceptorFind node.pax.alist k.paxid).all fun acc => aimed sys step node k acc
    | some node, .message _ msg =>
      msg.hdr.opcode ≠ .hello ||
        !(isProposer node.pax && node.pax.prep.isNone && msg.hdr.inum < node.pax.selfId)
    | none, .message source ⟨hdr, .welcome session ibase alist ilist⟩ =>
      hdr.inum < (acceptorAckWelcome source hdr session ibase alist ilist).pax.ihole &&
        names.all fun other => (sys.process other).node.all fun node =>
          (List.range sys.channels.length).all fun channel =>
            apart sys id source hdr other node channel false &&
              apart sys id source hdr other node channel true
    | _, _ => true

/-- Steps that pass the check are orderly. -/
theorem orderly_of_check {names : List NodeId} {step : Step} (within : Within names sys)
    (passed : orderly names sys step = true) : Orderly sys step := by
  -- What the check says of continuations holds of the one at hand.
  have aims : ∀ {id event node purpose acc chan}, sys.occasion step = some (id, event) →
      sys.Live id node → Continues node.pax event purpose acc chan →
        ∃ k, k.purpose = purpose ∧ aimed sys step node k acc = true := by
    rintro id event node purpose acc chan what ⟨-, live⟩ ⟨handle, k, rfl, pending, same, found⟩
    simp only [orderly, what, Option.all_some, live, pending, found] at passed
    exact ⟨k, same, passed⟩
  -- The conditions are read off the check one by one.
  constructor
  · intro id event node purpose acc chan what live continues _ lower channel second held
    obtain ⟨k, -, aimed_⟩ := aims what live continues
    simp only [aimed, Bool.and_eq_true, decide_eq_true_eq] at aimed_
    rw [aimed_.1 lower] at held
    contradiction
  · rintro attempt pending node far purpose acc rfl held live reached continues -
    have what : sys.occasion (.complete attempt true) = some (pending.owner,
        .connected pending.handle (some (peerOf sys.channels.length false))) := by
      simp [occasion, held]
    obtain ⟨k, rfl, aimed_⟩ := aims what live continues
    simp only [aimed, held, reached.2, Option.all_some, Bool.and_eq_true,
      decide_eq_true_eq] at aimed_
    exact aimed_.2
  · rintro id source hdr body node what hello ⟨-, live⟩ - ⟨proposer, idle, higher⟩
    simp [orderly, what, live, hello, proposer, idle, higher] at passed
  · intro id source hdr session ibase alist ilist what opcode gone
    simp only [orderly, what, gone, Option.all_some, Bool.and_eq_true, decide_eq_true_eq,
      List.all_eq_true] at passed
    obtain ⟨ahead, parted⟩ := passed
    -- Whoever is in a session is named, and channels are numbered up to their count.
    have known : ∀ {other node channel} second, sys.Live other node →
        channel < sys.channels.length →
          apart sys id source hdr other node channel second = true := by
      intro other node channel second live inside
      have named : other ∈ names := by
        by_contra stranger
        have absent := (within other stranger).1
        rw [live.2] at absent
        contradiction
      have both := parted other named
      simp only [live.2, Option.all_some, List.all_eq_true, List.mem_range,
        Bool.and_eq_true] at both
      obtain ⟨first, last⟩ := both channel inside
      cases second
      · exact first
      · exact last
    refine ⟨ahead, ?_, ?_⟩
    · intro other node channel second live less joins _ heard
      have fact := known second live joins.1.inside
      simp only [apart, decide_eq_true_eq] at fact
      exact fact.1 less joins heard
    · intro other node channel second live less joins _ heard
      have fact := known second live joins.1.inside
      simp only [apart, decide_eq_true_eq] at fact
      exact fact.2 less joins heard

/-- Three members meet; the first loses the second, and has its part rejected by the third. -/
def rejoining : List Step := [.start [1] 7, .client [1] { dkind := .join, data := [2] },
  .complete 0 true, .deliver 0 true, .client [1] { dkind := .join, data := [3] },
  .deliver 0 true, .deliver 0 true, .deliver 0 false, .deliver 0 true, .complete 0 true,
  .deliver 1 true, .complete 0 true, .deliver 2 true, .cut 0, .eof 0 false, .deliver 1 true,
  .deliver 1 false, .complete 0 true, .deliver 3 true]

/-- The first two reconnect, and both have the new channel in place of the one that was lost. -/
theorem reconnection_converges_rejoined : ∃ sys node other,
    init.exec quiet rejoining = some sys ∧ sys.Live [1] node ∧ sys.Live [2] other ∧
      Attached node.pax.alist other.pax.selfId (peerOf 3 false) ∧
        Attached other.pax.alist node.pax.selfId (peerOf 3 true) ∧ Converged sys := by
  -- The run is computed once, and the steps are checked.
  have able : (init.exec quiet rejoining).any (fun sys =>
      decide (∃ node ∈ (sys.process [1]).node, ∃ other ∈ (sys.process [2]).node,
        (sys.process [1]).crashed = false ∧ (sys.process [2]).crashed = false ∧
          Attached node.pax.alist other.pax.selfId (peerOf 3 false) ∧
            Attached other.pax.alist node.pax.selfId (peerOf 3 true))) = true := by decide +kernel
  obtain ⟨sys, ran, met⟩ := (Option.any_eq_true _ _).mp able
  obtain ⟨node, near, other, far, up, up', here, there⟩ := of_decide_eq_true met
  have run : Conducts Orderly init sys :=
    .exec orderly_of_check .refl (fun _ _ => ⟨rfl, rfl⟩)
      (by decide +kernel : passes [[1], [2], [3]] (orderly [[1], [2], [3]]) init rejoining = true)
      ran
  exact ⟨sys, node, other, ran, ⟨up, near⟩, ⟨up', far⟩, here, there,
    reconnection_converges run⟩

set_option synthInstance.maxSize 512 in
/--
A continuation of a refuse overwrites the channel that a hello has attached in the meantime.

The third member lost the first and was refused by the second, which the first has parted it from.
-/
theorem reconnection_diverges : ∃ sys, Reachable sys ∧ ¬ Converged sys := by
  obtain ⟨sys, reachable, idle, silent, ends, up, node, near, other, far, apart, here, there⟩ :
      ∃ sys, Reachable sys ∧ sys.attempts.isEmpty = true ∧
        (sys.channels.all fun chan => chan.fst.inbox.isEmpty && chan.snd.inbox.isEmpty) = true ∧
          (sys.channels.drop 3).map (fun chan => (chan.fst.owner, chan.snd.owner, chan.up,
            chan.fst.closed, chan.snd.closed)) =
              [([1], [3], true, false, false), ([3], [1], true, false, false)] ∧
            ([[1], [3]].all fun id => !(sys.process id).crashed) = true ∧
              ∃ node ∈ (sys.process [1]).node, ∃ other ∈ (sys.process [3]).node,
                node.pax.selfId ≠ other.pax.selfId ∧
                  (∃ acc ∈ node.pax.alist, acc.paxid = other.pax.selfId ∧
                    acc.peer = some (peerOf 3 false)) ∧
                    ∃ acc ∈ other.pax.alist, acc.paxid = node.pax.selfId ∧
                      acc.peer = some (peerOf 4 false) :=
    exists_played
      (assemble [[1], [2], [3]] ++
        -- The first and the third lose each other.
        [.steps [.cut 1, .eof 1 false, .eof 1 true],
          -- The third asks the second, which refuses, and has the part of itself rejected.
          .steps [.client [3] { dkind := .chat, data := [9] }, .deliver 2 true, .deliver 2 false,
            .deliver 0 true, .deliver 0 false],
          -- Both reconnect, the first as its part was rejected and the third as it was refused.
          .steps [.complete 1 true, .deliver 3 true, .complete 0 true, .deliver 4 true], .drain])
      (by decide +kernel)
  refine ⟨sys, reachable, fun converged => ?_⟩
  -- Both of the new channels hold.
  have holds : ∀ place near far, ([(([1] : NodeId), ([3] : NodeId), true, false, false),
      ([3], [1], true, false, false)] : List _)[place]? = some (near, far, true, false, false) →
        sys.Joins near far (3 + place) false ∧ sys.Holds (3 + place) := by
    intro place near far listed
    rw [← ends, List.getElem?_map, List.getElem?_drop] at listed
    obtain ⟨chan, held, same⟩ := Option.map_eq_some_iff.mp listed
    simp only [Prod.mk.injEq] at same
    obtain ⟨owner, reached, whole, first, last⟩ := same
    refine ⟨⟨⟨chan, held, owner⟩, chan, held, reached⟩, chan, held, whole, fun second => ?_⟩
    cases second
    · exact first
    · exact last
  have quiet : sys.Quiet [1] [3] := by
    constructor
    · rintro channel second - side msg ⟨chan, at_, mem⟩
      have empty := List.all_eq_true.mp silent chan (List.mem_of_getElem? at_)
      simp only [Bool.and_eq_true, List.isEmpty_iff] at empty
      cases side
      · exact absurd (empty.1 ▸ mem) List.not_mem_nil
      · exact absurd (empty.2 ▸ mem) List.not_mem_nil
    · intro attempt mem
      rw [List.isEmpty_iff.mp idle] at mem
      exact absurd mem List.not_mem_nil
  obtain ⟨joins, whole⟩ := holds 0 [1] [3] rfl
  obtain ⟨joined, sound⟩ := holds 1 [3] [1] rfl
  simp only [List.all_cons, List.all_nil, Bool.and_true, Bool.and_eq_true, Bool.not_eq_true'] at up
  have met := converged [1] [3] node other ⟨up.1, near⟩ ⟨up.2, far⟩ apart quiet 3 false 4 false
    ⟨here, joins, whole⟩ ⟨there, joined, sound⟩
  exact absurd met.1 (by decide)

end System

end Motmot
