import Motmot.Proofs.Paxos.Asked
import Motmot.Proofs.System.Conduct

/-! No request is learned twice, as long as no proposer is asked for what was decreed. -/

namespace Motmot

/-- A welcome decrees nothing but what it packs. -/
theorem Welcome.stock {welcome : Welcome} {decree : Decree}
    (stocks : welcome.node.pax.ilist.Stocks decree) :
    ∃ packed ∈ welcome.ilist, decree = packed.decree := by
  -- What the newcomer has allocated is on its log, and in limbo there is nothing.
  obtain ⟨inst, ⟨cell, mem, rfl⟩ | ⟨gone, mem, -⟩, rfl⟩ := stocks
  · obtain ⟨run, rest, whole, -, cells, -⟩ := welcome.scan
    -- The scan marks some instances as learned, and rewrites no value.
    obtain ⟨old, memOld, same⟩ : ∃ old ∈ welcomeCells 0 welcome.ilist,
        cell.inst.decree = old.inst.decree := by
      rw [cells] at mem
      rw [whole]
      rcases List.mem_append.mp mem with mem | mem
      · obtain ⟨old, memRun, rfl⟩ := List.mem_map.mp mem
        exact ⟨old, List.mem_append_left _ memRun, rfl⟩
      · exact ⟨cell, List.mem_append_right _ mem, rfl⟩
    obtain ⟨-, -, packed, listed, unpacked⟩ := mem_welcomeCells memOld
    refine ⟨packed, listed, ?_⟩
    rw [same, unpacked]
    rfl
  · contradiction

namespace System

variable {sys next : System}

/-- What was decreed: a live session has it, it is on its way, or somebody has learned it. -/
def Decreed (sys : System) (decree : Decree) : Prop :=
  (∃ id node, (sys.process id).crashed = false ∧ (sys.process id).node = some node ∧
      node.pax.ilist.Stocks decree) ∨
    (∃ channel second msg, sys.Waits channel second msg ∧ msg.Carries decree) ∨
      ∃ id, .learn decree.inum decree.val ∈ (sys.process id).history

/-- Steps that hand no session a request that was decreed before. -/
def Asks (sys : System) (step : Step) : Prop := Each (Unasked sys.Decreed) sys step

/-- Whatever a step leaves as it is, nothing more is decreed by it. -/
theorem Decreed.earlier {decree : Decree} (decreed : next.Decreed decree)
    (live : ∀ id node, (next.process id).crashed = false → (next.process id).node = some node →
      node.pax.ilist.Stocks decree → sys.Decreed decree)
    (waits : ∀ channel second msg, next.Waits channel second msg → msg.Carries decree →
      sys.Decreed decree)
    (history : ∀ id, (next.process id).history = (sys.process id).history) :
    sys.Decreed decree := by
  -- A decree is on a log, on its way, or learned.
  rcases decreed with ⟨id, node, up, held, stocks⟩ | ⟨channel, second, msg, sent, carries⟩ |
    ⟨id, learned⟩
  · exact live id node up held stocks
  · exact waits channel second msg sent carries
  · rw [history] at learned
    exact Or.inr (Or.inr ⟨id, learned⟩)

/-- What waits is what waited, as long as nothing is sent. -/
theorem Grows.decreed {decree : Decree} (grows : Grows sys next []) :
    ∀ channel second msg, next.Waits channel second msg → msg.Carries decree →
      sys.Decreed decree := by
  intro channel second msg waits carries
  rcases grows.waits waits with before | sent
  · exact Or.inr (Or.inl ⟨channel, second, msg, before, carries⟩)
  · contradiction

/-- A step that hands no session an old request decrees no request twice. -/
theorem Asks.single {choice : Choice} {step : Step} (asks : sys.Asks step)
    (stepped : sys.step choice step = some next)
    (sound : Upheld (fun node => node.pax.ilist.WellFormed) Msg.Sound sys)
    (unborn : sys.started = false → (∀ id, (sys.process id).node = none ∧
      (sys.process id).past = []) ∧ ∀ channel second msg, ¬ sys.Waits channel second msg)
    (single : Single sys.Decreed) : Single next.Decreed := by
  -- Decrees are in logs, in flight or learned; each turn adds to these only what was asked for.
  have turn := step_turn stepped
  generalize what : sys.occasion step = occasion at turn
  cases turn with
  | idle nodes past lives started grows =>
    refine single.mono fun decree decreed => decreed.earlier ?_ grows.decreed ?_
    · intro id node up live stocks
      exact Or.inl ⟨id, node, lives id up, (nodes id).symm.trans live, stocks⟩
    · intro id
      rw [Process.history, Process.history, nodes, past]
  | @start id session gone once made others started grows =>
    -- The session that is started is the first thing that happens.
    obtain ⟨nobody, nothing⟩ := unborn once
    -- Whatever is decreed is the founder's join.
    have opening : ∀ decree, next.Decreed decree → decree.inum = 1 := by
      rintro decree (⟨other, node, up, live, inst, keeps, rfl⟩ | ⟨channel, second, msg, sent, -⟩ |
        ⟨other, learned⟩)
      · obtain ⟨-, rfl⟩ := Live.alone (fun id => (nobody id).1) made others ⟨up, live⟩
        rcases keeps with ⟨cell, mem, rfl⟩ | ⟨gone, mem, -⟩
        · obtain rfl := List.mem_singleton.mp mem
          rfl
        · contradiction
      · rcases grows.waits sent with before | sent
        · exact absurd before (nothing channel second msg)
        · contradiction
      · by_cases same : other = id
        · rw [same, made, Process.history, (nobody id).2] at learned
          contradiction
        · rw [others other same, Process.history, (nobody other).1, (nobody other).2] at learned
          contradiction
    intro x y reqid decreedX decreedY _ _
    rw [opening x decreedX, opening y decreedY]
  -- A welcome spreads decrees that there were.
  | @greet id source hdr session ibase alist ilist opcode gone arrives made others started grows =>
    obtain ⟨channel, second, -, -, waits⟩ := arrives
    have welcomed := sound.waiting channel second _ waits
    let welcome : Welcome :=
      { source := source, hdr := hdr, session := session, ibase := ibase, alist := alist
        ilist := ilist, ascending := welcomed.welcome session ibase alist ilist opcode rfl }
    have silent : ∀ effect ∈ welcome.node.out, effect = .enter ∨
        ∃ handle desc, effect = .connect handle desc := acceptorAckWelcome_out
    refine single.mono fun decree decreed => ?_
    rcases decreed with ⟨other, node, up, live, stocks⟩ | ⟨channel, second, msg, sent, carries⟩ |
      ⟨other, learned⟩
    · rcases Live.entered made others ⟨up, live⟩ with ⟨-, up, live⟩ | ⟨-, rfl⟩
      · exact Or.inl ⟨other, node, up, live, stocks⟩
      · -- All that a newcomer has is in the welcome.
        obtain ⟨packed, mem, rfl⟩ := @Welcome.stock welcome decree stocks
        exact Or.inr (Or.inl ⟨channel, second, _, waits, Or.inr (Or.inr ⟨session, ibase, alist,
          ilist, rfl, opcode, packed, mem, rfl⟩)⟩)
    · rcases grows.waits sent with before | told
      · exact Or.inr (Or.inl ⟨channel, second, msg, before, carries⟩)
      · rcases silent _ told with told | ⟨_, _, told⟩ <;> cases told
    · -- What is learned was learned before, for a welcome learns nothing.
      refine Or.inr (Or.inr ⟨other, ?_⟩)
      by_cases same : other = id
      · rw [same, made] at learned
        rcases List.mem_append.mp learned with past | told
        · rw [same]
          exact List.mem_append_left _ past
        · rcases silent _ told with told | ⟨_, _, told⟩ <;> cases told
      · rw [others other same] at learned
        exact learned
  -- A handler decrees what it is asked for, and that is not an old request.
  | @handle id event node result up live arrives handles made others started grows =>
    have wf := sound.live id node up live
    obtain ⟨sum, whole, before, after, told⟩ := handles.sums wf (asks id event what node live)
      (fun decree stocks => Or.inl ⟨id, node, up, live, stocks⟩) single (by
        rintro source msg rfl decree carries
        obtain ⟨channel, second, -, -, waits⟩ := arrives
        exact Or.inr (Or.inl ⟨channel, second, msg, waits, carries⟩))
    refine whole.mono fun decree decreed => ?_
    rcases decreed with ⟨other, last, upright, held, stocks⟩ | ⟨channel, second, msg,
      sent, carries⟩ |
      ⟨other, learned⟩
    · rcases Live.handled made others ⟨upright, held⟩ with ⟨-, upright, held⟩ | ⟨-, same⟩
      · exact before decree (Or.inl ⟨other, last, upright, held, stocks⟩)
      · exact after last same decree stocks
    · rcases grows.waits sent with waited | fresh
      · exact before decree (Or.inr (Or.inl ⟨channel, second, msg, waited, carries⟩))
      · exact told _ fresh decree (Or.inr ⟨_, msg, rfl, carries⟩)
    · by_cases same : other = id
      · rw [same, made, history_after live handles wf] at learned
        rcases List.mem_append.mp learned with past | fresh
        · exact before decree (Or.inr (Or.inr ⟨id, past⟩))
        · exact told _ fresh decree (Or.inl rfl)
      · rw [others other same] at learned
        exact before decree (Or.inr (Or.inr ⟨other, learned⟩))

/-- In a run of such steps no request is decreed twice. -/
theorem Conducts.single (run : Conducts Asks init sys) : Single sys.Decreed := by
  induction run with
  | refl =>
    rintro x y reqid (⟨_, _, _, live, -⟩ | ⟨_, _, _, ⟨_, at_, -⟩, -⟩ | ⟨_, learned⟩) <;>
      contradiction
  | step run ok stepped ih => exact ok.single stepped run.sound run.unborn ih

/-- In a run of such steps no request is learned under two numbers, by whomever. -/
theorem learned_once (run : Conducts Asks init sys) {id other : NodeId} {m n : Nat}
    {val again : Value} (first : .learn m val ∈ (sys.process id).history)
    (second : .learn n again ∈ (sys.process other).history)
    (needs : requestNeedsCached val.dkind = true) (needs' : requestNeedsCached again.dkind = true)
    (same : val.reqid = again.reqid) : m = n :=
  run.single ⟨m, val⟩ ⟨n, again⟩ val.reqid (Or.inr (Or.inr ⟨id, first⟩))
    (Or.inr (Or.inr ⟨other, second⟩)) ⟨needs, rfl⟩ ⟨needs', same.symm⟩

/-- The decrees of an instance list, and of what has been taken off it. -/
def stock (list : Ilist) : List Decree :=
  list.cells.map (fun cell => cell.inst.decree) ++
    list.limbo.map fun gone => gone.cell.inst.decree

/-- The decrees that a message may carry. -/
def carried (msg : Msg) : List Decree :=
  match msg.body with
  | .value val => [⟨msg.hdr.inum, val⟩]
  | .votes _ votes => votes.map PackedInstance.decree
  | .welcome _ _ _ ilist => ilist.map PackedInstance.decree
  | _ => []

/-- The decree that was learned, if any. -/
def heard : Effect → Option Decree
  | .learn inum val => some ⟨inum, val⟩
  | _ => none

/-- All that was decreed in a system whose sessions are those of some processes. -/
def decrees (names : List NodeId) (sys : System) : List Decree :=
  (names.flatMap fun id => ((sys.process id).node.map fun node => stock node.pax.ilist).getD []) ++
    (sys.channels.flatMap fun chan => (chan.fst.inbox ++ chan.snd.inbox).flatMap carried) ++
      names.flatMap fun id => (sys.process id).history.filterMap heard

/-- Nothing else was decreed. -/
theorem Within.decreed {names : List NodeId} {decree : Decree} (within : Within names sys)
    (decreed : sys.Decreed decree) : decree ∈ decrees names sys := by
  -- Whoever is not named has no session.
  have named : ∀ {id node}, (sys.process id).node = some node → id ∈ names := by
    intro id node live
    by_contra stranger
    rw [(within id stranger).1] at live
    contradiction
  simp only [decrees, List.mem_append, List.mem_flatMap]
  rcases decreed with ⟨id, node, -, live, inst, allots, rfl⟩ | ⟨channel, second, msg, ⟨chan, at_,
    waits⟩, carries⟩ | ⟨id, learned⟩
  · -- The decree is in a log or in limbo.
    refine Or.inl (Or.inl ⟨id, named live, ?_⟩)
    rw [live]
    rcases allots with ⟨cell, mem, rfl⟩ | ⟨gone, mem, rfl⟩
    · exact List.mem_append_left _ (List.mem_map_of_mem mem)
    · exact List.mem_append_right _ (List.mem_map_of_mem mem)
  · -- It is in flight, at one end or the other.
    refine Or.inl (Or.inr ⟨chan, List.mem_of_getElem? at_, msg, ?_, ?_⟩)
    · cases second
      · exact Or.inl waits
      · exact Or.inr waits
    · unfold carried
      rcases carries with ⟨val, body, -, rfl⟩ | ⟨_, votes, body, -, vote, mem, rfl⟩ |
        ⟨_, _, _, ilist, body, -, packed, mem, rfl⟩
      · rw [body]
        exact List.mem_singleton_self _
      · rw [body]
        exact List.mem_map_of_mem mem
      · rw [body]
        exact List.mem_map_of_mem mem
  · -- It was learned by somebody with a history.
    have known : id ∈ names := by
      by_contra stranger
      rw [within.history stranger] at learned
      contradiction
    exact Or.inr ⟨id, known, List.mem_filterMap.mpr ⟨_, learned, rfl⟩⟩

/-- No session has counted less than was decreed of it; proposers are asked nothing, nor promised. -/
def unasked (names : List NodeId) (sys : System) (step : Step) : Bool :=
  (sys.occasion step).all fun (id, event) => (sys.process id).node.all fun node =>
    ((decrees names sys).all fun decree =>
      !(requestNeedsCached decree.val.dkind && decree.val.reqid.id = node.pax.selfId &&
        node.pax.reqId < decree.val.reqid.gen)) &&
    match event with
    | .message _ msg =>
      msg.hdr.opcode ≠ .promise && (msg.hdr.opcode ≠ .request || !isProposer node.pax)
    | _ => true

/-- Such steps ask nobody for what was decreed. -/
theorem asks_of_unasked {names : List NodeId} {step : Step} (within : Within names sys)
    (free : unasked names sys step = true) : Asks sys step := by
  intro id event what node live
  -- The check looks at what has been decreed so far, and at the message that comes.
  simp only [unasked, what, Option.all_some, live, Bool.and_eq_true] at free
  obtain ⟨counted, plain⟩ := free
  constructor
  · rintro decree decreed reqid ⟨needs, rfl⟩ ⟨ours, later⟩
    have fact := List.all_eq_true.mp counted decree (within.decreed decreed)
    simp [needs, ours, later] at fact
  · rintro source hdr req rfl opcode ⟨proposer, -⟩
    simp [opcode, proposer] at plain
  · rintro ⟨_, -, -, source, hdr, body, rfl, opcode, -⟩
    simp [opcode] at plain

/-- Both nodes learn the chat under one number. -/
theorem learned_once_chatting : ∃ sys, init.exec quiet chatting = some sys ∧ ∃ m n,
    .learn m ⟨.chat, ⟨1, 3⟩, 0⟩ ∈ (sys.process [1]).history ∧
      .learn n ⟨.chat, ⟨1, 3⟩, 0⟩ ∈ (sys.process [2]).history ∧ m = n := by
  -- The run that both nodes have learned in is checked by evaluation.
  have able : (init.exec quiet chatting).any (fun sys =>
      decide (.learn 3 ⟨.chat, ⟨1, 3⟩, 0⟩ ∈ (sys.process [1]).history ∧
        .learn 3 ⟨.chat, ⟨1, 3⟩, 0⟩ ∈ (sys.process [2]).history)) = true := by decide +kernel
  obtain ⟨sys, ran, learned⟩ := (Option.any_eq_true _ _).mp able
  obtain ⟨first, second⟩ := of_decide_eq_true learned
  have run : Conducts Asks init sys :=
    .exec asks_of_unasked .refl (fun _ _ => ⟨rfl, rfl⟩)
      (by decide +kernel : passes [[1], [2]] (unasked [[1], [2]]) init chatting = true) ran
  exact ⟨sys, ran, 3, 3, first, second, learned_once run first second rfl rfl rfl⟩

/--
A node that prepares defers what the true proposer decrees,
and decrees it again once it is prepared.

The third node sends a chat to the first, who decrees it, and to the second, who has lost the first.
-/
theorem learned_twice : ∃ sys, Reachable sys ∧ ∃ node ∈ (sys.process [2]).node,
    .learn 4 ⟨.chat, ⟨3, 1⟩, 0⟩ ∈ node.out ∧ .learn 6 ⟨.chat, ⟨3, 1⟩, 0⟩ ∈ node.out :=
  exists_played
    (assemble [[1], [2], [3]] ++
      -- The chat of the third node is decreed, accepted and learned by all.
      [.steps [.client [3] { dkind := .chat, data := [4] }, .deliver 1 false, .deliver 0 true,
          .deliver 1 true, .deliver 0 false, .deliver 0 true, .deliver 1 true],
        -- The others lose the first node, and the request reaches the second.
        .steps [.cut 0, .eof 0 true, .cut 1, .eof 1 true], .drain])
    (by decide +kernel)

end System

end Motmot
