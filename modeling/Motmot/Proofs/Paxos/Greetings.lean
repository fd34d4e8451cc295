import Motmot.Proofs.Paxos.Links
import Motmot.Proofs.Paxos.Opcodes

/-! Only a channel that a connection attempt has brought carries a hello. -/

namespace Motmot

variable {start node next : Node} {event : Event}

/-- A handler says hello only over the channel that its event has brought, and under our name. -/
theorem Handles.hello {result : Result} (handles : Handles node event result)
    (wf : node.pax.ilist.WellFormed) (lacks : node.pax.ilist.Lacks .hello)
    (brings : event.Lacks .hello)
    {peer : PeerId} {msg : Msg} (sent : .send peer msg ∈ fresh node result)
    (opcode : msg.hdr.opcode = .hello) : ∃ purpose acc,
      Continues node.pax event purpose acc (some peer) ∧ Attaches node.pax acc purpose ∧
        msg.hdr.inum = node.pax.selfId := by
  -- Of all that a handler tells only its own greeting is a hello.
  obtain ⟨script, before, after, made, held, stored, tells⟩ :=
    handles.tells_lacks (.hello _ _) wf lacks brings sent
  cases tells with
  | side side =>
    cases side with
    | send _ _ side =>
      have side := Msg.side_opcode side
      rw [opcode] at side
      contradiction
    | hello continues attaches _ self => exact ⟨_, _, continues, attaches, self⟩
  | inst known => exact absurd opcode (stored _ (Ilist.allots_of_inst? known))
  | prepare => contradiction
  | promise => contradiction
  | accept => contradiction
  | recommit => contradiction
  | welcome => contradiction

/-- An acceptor was reached: it has the channel that was made, and was told who we are. -/
structure Reaches (node : Node) (paxid : Nat) (peer : PeerId) (purpose : Purpose) (next : Node) :
    Prop where
  attached : Attached next.pax.alist paxid peer
  /-- A welcome says more than a hello. -/
  told : ∃ effects, next.out = node.out ++ effects ∧ (purpose ≠ .welcome → ∃ msg,
    .send peer msg ∈ effects ∧ msg.hdr.opcode = .hello ∧ msg.hdr.inum = node.pax.selfId)

namespace Reaches

variable {mid : Node} {paxid : Nat} {peer : PeerId} {purpose : Purpose}

/-- What happens afterwards to something else, and more that is told. -/
theorem later (reaches : Reaches node paxid peer purpose mid) {more : List Effect}
    (alist : next.pax.alist = mid.pax.alist) (out : next.out = mid.out ++ more) :
    Reaches node paxid peer purpose next := by
  obtain ⟨attached, effects, whole, told⟩ := reaches
  refine ⟨alist ▸ attached, effects ++ more, by rw [out, whole, List.append_assoc], ?_⟩
  intro other
  obtain ⟨msg, mem, hello⟩ := told other
  exact ⟨msg, List.mem_append_left _ mem, hello⟩

/-- A channel is attached, and then our hello goes over it. -/
theorem greet {acc : Acceptor} (mem : acc ∈ node.pax.alist)
    (alist : next.pax.alist = (node.setPeer acc.paxid (some peer)).pax.alist)
    (out : next.out = node.out ++ [.watch peer, .send peer
      { hdr := headerInit mid.pax .hello mid.pax.selfId, body := .empty }])
    (self : mid.pax.selfId = node.pax.selfId) : Reaches node acc.paxid peer purpose next := by
  constructor
  · rw [alist, setPeer_attached, if_pos rfl]
    exact ⟨rfl, acc, mem, rfl⟩
  · refine ⟨_, out, fun _ => ⟨_, List.mem_cons_of_mem _ List.mem_cons_self, rfl, self⟩⟩

end Reaches

/-- A send to the proposer adds at most an effect. -/
theorem paxosSendToProposer_told {mid : Node} {msg : Msg}
    (sent : paxosSendToProposer mid msg = .ok next) :
    next.pax = mid.pax ∧ ∃ effects, next.out = mid.out ++ effects := by
  -- Without a proposer nothing is sent.
  unfold paxosSendToProposer at sent
  split at sent
  · obtain rfl := Outcome.ok.inj sent
    exact ⟨rfl, [], (List.append_nil _).symm⟩
  · split at sent
    · unfold paxosSend at sent
      split at sent
      · obtain rfl := Outcome.ok.inj sent
        exact ⟨rfl, [_], rfl⟩
      · contradiction
    · contradiction

/-- A continuation that attaches the channel that was made reaches its acceptor. -/
theorem continuePurpose_reaches {fuel : Nat} {peer : PeerId} {acc : Acceptor} {purpose : Purpose}
    (mem : acc ∈ node.pax.alist) (attaches : Attaches node.pax acc purpose)
    (done : continuePurpose fuel node (some peer) acc purpose = .ok next) :
    Reaches node acc.paxid peer purpose next := by
  -- Every purpose attaches the channel; all but the welcome say hello over it.
  unfold continuePurpose at done
  cases purpose with
  | welcome =>
    obtain rfl := Outcome.ok.inj done
    constructor
    · show Attached (node.setPeer acc.paxid (some peer)).pax.alist _ _
      rw [setPeer_attached, if_pos rfl]
      exact ⟨rfl, acc, mem, rfl⟩
    · exact ⟨[_, _], List.append_assoc _ _ _, fun other => absurd rfl other⟩
  | ackWelcome =>
    obtain rfl := Outcome.ok.inj done
    exact @Reaches.greet node _ node peer _ acc mem rfl (List.append_assoc _ _ _) rfl
  | ackRedirect =>
    obtain ⟨lost, higher⟩ := attaches
    unfold continueAckRedirect at done
    rw [if_neg (not_not.mpr higher), lost] at done
    simp only [Option.isSome_none, Bool.false_eq_true, if_false] at done
    split at done
    · contradiction
    · obtain rfl := Outcome.ok.inj done
      split
      · exact @Reaches.greet node _ node peer _ acc mem rfl (List.append_assoc _ _ _) rfl
      · exact @Reaches.greet node _ node peer _ acc mem rfl (List.append_assoc _ _ _) rfl
  | ackRefuse val =>
    have unprepared : (isProposer node.pax && node.pax.prep.isNone) = false := by
      rcases attaches with follows | preparing
      · simp [follows]
      · obtain ⟨prep, preparing⟩ := Option.isSome_iff_exists.mp preparing
        simp [preparing]
    have greeted : ∀ mid : Node, mid.pax.alist = (node.setPeer acc.paxid (some peer)).pax.alist →
        mid.out = node.out ++ [.watch peer, .send peer
          { hdr := headerInit node.pax .hello node.pax.selfId, body := .empty }] →
            Reaches node acc.paxid peer (.ackRefuse val) mid :=
      fun mid alist out => @Reaches.greet node mid node peer _ acc mem alist out rfl
    unfold continueAckRefuse at done
    rw [unprepared] at done
    simp only [Bool.false_eq_true, if_false, paxosHello, paxosSend, Outcome.andThen_ok] at done
    split at done
    · contradiction
    · split at done
      · -- The refused request follows, to the acceptor that was reached.
        unfold resendRefused at done
        obtain ⟨same, effects, out⟩ := paxosSendToProposer_told done
        refine Reaches.later ?_ (congrArg Session.alist same) out
        exact greeted _ rfl (List.append_assoc _ _ _)
      · obtain rfl := Outcome.ok.inj done
        exact greeted _ rfl (List.append_assoc _ _ _)
  | ackReject inum =>
    obtain ⟨cell, found⟩ := attaches
    unfold continueAckReject at done
    simp only [found, paxosHello, paxosSend, Outcome.andThen_ok] at done
    obtain rfl := Outcome.ok.inj done
    -- The hello goes out in front of the broadcast.
    have greeted : Reaches node acc.paxid peer (.ackReject inum)
        ((attachChannel node acc.paxid (some peer)).emit (.send peer
          { hdr := headerInit node.pax .hello node.pax.selfId, body := .empty })) :=
      @Reaches.greet node _ node peer _ acc mem rfl (List.append_assoc _ _ _) rfl
    exact greeted.later rfl rfl

/-- The completion of a connection attempt that attaches its channel reaches the acceptor. -/
theorem Handles.reaches {handle : Nat} {peer : PeerId} {acc : Acceptor} {purpose : Purpose}
    (handles : Handles node (.connected handle (some peer)) (.ok next))
    (continues : Continues node.pax (.connected handle (some peer)) purpose acc (some peer))
    (attaches : Attaches node.pax acc purpose) : Reaches node acc.paxid peer purpose next := by
  -- The continuation is the one of the attempt, and taking it off the list changes nobody's
  -- channel.
  obtain ⟨fuel, script, done⟩ := handles
  have mem := continues.mem
  obtain ⟨_, k, same, held, rfl, found⟩ := continues
  obtain ⟨rfl, -⟩ := Event.connected.inj same
  change connectinuate fuel { node with script := script } handle (some peer) = _ at done
  unfold connectinuate at done
  simp only [held, found] at done
  cases ran : continuePurpose fuel { node with script := script } (some peer) acc k.purpose with
  | stop => simp [ran] at done
  | ok mid =>
    rw [ran, Outcome.andThen_ok] at done
    obtain rfl := Outcome.ok.inj done
    have reached := @continuePurpose_reaches { node with script := script } mid fuel peer acc
      k.purpose mem attaches ran
    exact ⟨reached.attached, reached.told⟩

/-- A hello that takes effect leaves its own channel, and closes the one before. -/
theorem helloAttach_told {source : PeerId} {hdr : Header} {acc : Acceptor}
    (opens : hdr.inum < node.pax.selfId ∨ acc.peer = none)
    (done : helloAttach node source hdr acc = .ok next) :
    next.pax.alist = (node.setPeer acc.paxid (some source)).pax.alist ∧
      next.out = node.out ++ acc.peer.toList.map Effect.close := by
  -- A channel that is held is closed for one that outranks it.
  unfold helloAttach at done
  cases held : acc.peer with
  | none =>
    simp only [held, Option.isNone_none, if_true] at done
    split at done
    · contradiction
    · split at done
      · obtain rfl := Outcome.ok.inj done
        -- A prepare is ended, or there was none.
        split <;> exact ⟨rfl, (List.append_nil _).symm⟩
      · obtain rfl := Outcome.ok.inj done
        exact ⟨rfl, (List.append_nil _).symm⟩
  | some peer =>
    have lower : hdr.inum < node.pax.selfId := opens.resolve_right (by simp [held])
    simp only [held, Option.isNone_some, Bool.false_eq_true, if_false, lower, if_true] at done
    obtain rfl := Outcome.ok.inj done
    exact ⟨rfl, rfl⟩

/-- Taking over a ballot concerns no channel. -/
theorem helloBallot_told {hdr : Header} (done : helloBallot node hdr = .ok next) :
    next.pax.alist = node.pax.alist ∧ next.out = node.out := by
  unfold helloBallot at done
  -- The handler that is done is in one of the two branches that return.
  split at done
  · contradiction
  · split at done
    · obtain rfl := Outcome.ok.inj done
      exact ⟨rfl, rfl⟩
    · obtain rfl := Outcome.ok.inj done
      exact ⟨rfl, rfl⟩

/-- A hello that is heeded is what the handler of its message does. -/
theorem Handles.greets {source : PeerId} {hdr : Header} {body : Body} {result : Result}
    (handles : Handles node (.message source ⟨hdr, body⟩) result) (opcode : hdr.opcode = .hello)
    (heeded : Heeds node.pax hdr) : ∃ script, result =
      match acceptorFind node.pax.alist hdr.inum with
      | none => .ok ({ node with script := script }.setAdefer (acceptorInsert node.pax.adefer
          { paxid := hdr.inum, peer := some source, desc := [] }))
      | some acc => (helloAttach { node with script := script } source hdr acc).andThen
          fun node => helloBallot node hdr := by
  -- The handler is computed down to what it does with the acceptor that it finds.
  obtain ⟨fuel, script, done⟩ := handles
  refine ⟨script, ?_⟩
  have heeds : (isProposer node.pax && node.pax.prep.isNone &&
      decide (hdr.inum < node.pax.selfId)) = false := by
    by_contra ignored
    simp only [Bool.not_eq_false, Bool.and_eq_true, decide_eq_true_eq,
      Option.isNone_iff_eq_none] at ignored
    exact heeded ⟨ignored.1.1, ignored.1.2, ignored.2⟩
  have ran : paxosAckHello { node with script := script } source hdr = result := by
    obtain ⟨session, ballot, _, inum⟩ := hdr
    subst opcode
    rw [← done]
    simp [handle, paxosDispatch, proposerDispatch, acceptorDispatch]
  rw [← ran]
  unfold paxosAckHello
  refine (if_neg (by simp only [heeds, Bool.false_eq_true, not_false_eq_true])).trans ?_
  cases acceptorFind node.pax.alist hdr.inum with
  | none => rfl
  | some _ => rfl

/--
A hello that is heeded replaces the channel of an acceptor that outranks us or has none.

The channel that was there is closed.
-/
theorem Handles.replaces {source : PeerId} {hdr : Header} {body : Body}
    (handles : Handles node (.message source ⟨hdr, body⟩) (.ok next))
    (opcode : hdr.opcode = .hello) (heeded : Heeds node.pax hdr)
    (opens : hdr.inum < node.pax.selfId ∨ ∀ peer, ¬ Attached node.pax.alist hdr.inum peer)
    (ranked : Ranked node.pax.alist) (listed : Listed node.pax.alist hdr.inum) :
    Attached next.pax.alist hdr.inum source ∧
      ∀ peer, Attached node.pax.alist hdr.inum peer → .close peer ∈ fresh node (.ok next) := by
  -- The acceptor is found by its name, and the channel that it had is closed.
  obtain ⟨acc, mem, named⟩ := listed
  have found : acceptorFind node.pax.alist hdr.inum = some acc :=
    ranked.find_eq_some.mpr ⟨mem, named⟩
  obtain ⟨script, ran⟩ := handles.greets opcode heeded
  simp only [found] at ran
  have opens : hdr.inum < node.pax.selfId ∨ acc.peer = none := by
    refine opens.imp_right fun closed => ?_
    cases held : acc.peer with
    | none => rfl
    | some peer => exact absurd ⟨acc, mem, named, held⟩ (closed peer)
  cases attach : helloAttach { node with script := script } source hdr acc with
  | stop => simp [attach] at ran
  | ok mid =>
    rw [attach, Outcome.andThen_ok] at ran
    obtain ⟨alist, out⟩ := @helloAttach_told { node with script := script } mid _ _ _ opens attach
    obtain ⟨same, silent⟩ := helloBallot_told ran.symm
    constructor
    · rw [same, alist, setPeer_attached, if_pos named.symm]
      exact ⟨rfl, acc, mem, named⟩
    · intro peer attached
      have held := attached.peer_eq ranked mem named
      show _ ∈ next.out.drop node.out.length
      rw [silent, out, held, List.drop_left]
      exact List.mem_cons_self

/-- A hello that is heeded waits for the join of somebody who is not listed. -/
theorem Handles.defers {source : PeerId} {hdr : Header} {body : Body}
    (handles : Handles node (.message source ⟨hdr, body⟩) (.ok next))
    (opcode : hdr.opcode = .hello) (heeded : Heeds node.pax hdr)
    (deferred : Ranked node.pax.adefer) (unlisted : ¬ Listed node.pax.alist hdr.inum)
    (first : ¬ Listed node.pax.adefer hdr.inum) : Attached next.pax.adefer hdr.inum source := by
  -- Whoever is not listed is put with those who wait.
  have absent : acceptorFind node.pax.alist hdr.inum = none := by
    cases found : acceptorFind node.pax.alist hdr.inum with
    | none => rfl
    | some acc =>
      obtain ⟨mem, named⟩ := SortedList.findFwd_mem found
      exact absurd ⟨acc, mem, named⟩ unlisted
  obtain ⟨script, ran⟩ := handles.greets opcode heeded
  simp only [absent] at ran
  obtain rfl := Outcome.ok.inj ran
  obtain ⟨lower, upper, -, made, -, -⟩ := @Ranked.insert_split _
    { paxid := hdr.inum, peer := some source, desc := [] } deferred
      fun other waiting same => first ⟨other, waiting, same⟩
  show Attached (acceptorInsert node.pax.adefer _) _ _
  rw [made]
  exact ⟨_, List.mem_append_right _ List.mem_cons_self, rfl, rfl⟩

end Motmot
