import Motmot.Proofs.Paxos.Tells

/-! Runs of one session: from its beginning, one handler after another. -/

namespace Motmot

/-- The logs that a message carries ascend, as those of its sender do. -/
structure Msg.Sound (msg : Msg) : Prop where
  votes : ∀ count votes, msg.hdr.opcode = .promise → msg.body = .votes count votes →
    votes.Pairwise fun x y => x.hdr.inum < y.hdr.inum
  welcome : ∀ session ibase alist ilist, msg.hdr.opcode = .welcome →
    msg.body = .welcome session ibase alist ilist →
      ilist.Pairwise fun x y => x.hdr.inum < y.hdr.inum

/-- An event brings no message whose logs do not ascend. -/
def Event.Sound (event : Event) : Prop :=
  ∀ source msg, event = .message source msg → msg.Sound

/-- The log of a sender ascends as packed. -/
theorem Ilist.WellFormed.packed {list : Ilist} {cells : List Cell} (wf : list.WellFormed)
    (part : cells.Sublist list.cells) :
    (cells.map fun cell => instancePack cell.inst).Pairwise fun x y => x.hdr.inum < y.hdr.inum :=
  List.pairwise_map.mpr (wf.ascending.sublist part)

/-- The messages that a session sends are sound. -/
theorem Tells.sound {start before after : Node} {event : Event} {peer : PeerId} {msg : Msg}
    {made : List Request} (tells : Tells start event made before after (.send peer msg))
    (init : start.pax.ilist.WellFormed)
    (wf : before.pax.ilist.WellFormed) : msg.Sound := by
  -- Only promises and welcomes carry a log, and both pack it in order.
  cases tells with
  | side side =>
    cases side with
    | send _ _ side =>
      have side := Msg.side_opcode side
      constructor
      · intro _ _ opcode
        rw [opcode] at side
        contradiction
      · intro _ _ _ _ opcode
        rw [opcode] at side
        contradiction
    | hello =>
      constructor
      · intro _ _ _ body
        cases body
      · intro _ _ _ _ _ body
        cases body
  | @promise _ hdr _ count votes _ _ _ _ _ packed =>
    constructor
    · intro _ _ _ body
      cases body
      refine init.packed (List.IsSuffix.sublist ?_)
      have suffix := promiseVotes_suffix start.pax.ilist hdr.inum
      rw [packed] at suffix
      exact suffix
    · intro _ _ _ _ _ body
      cases body
  | welcome =>
    constructor
    · intro _ _ _ body
      cases body
    · intro _ _ _ _ _ body
      cases body
      exact wf.packed (List.Sublist.refl _)
  | _ =>
    constructor
    · intro _ _ _ body
      cases body
    · intro _ _ _ _ _ body
      cases body

/-- A welcome, whose log ascends as that of its sender does. -/
structure Welcome where
  source : PeerId
  hdr : Header
  session : Uuid
  ibase : Nat
  alist : List PackedAcceptor
  ilist : List PackedInstance
  ascending : ilist.Pairwise fun x y => x.hdr.inum < y.hdr.inum

/-- The session that a welcome begins. -/
def Welcome.node (welcome : Welcome) : Node :=
  acceptorAckWelcome welcome.source welcome.hdr welcome.session welcome.ibase welcome.alist
    welcome.ilist

/-- The states that sessions begin in, with the first number that each has to learn. -/
inductive Begins (fits : Welcome → Prop) : Node → Nat → Prop where
  | start (session : Uuid) (desc : Bytes) : Begins fits (paxosStart session desc) 2
  | welcome (welcome : Welcome) (fit : fits welcome) :
      Begins fits welcome.node welcome.node.pax.ihole

/-- A handler of an event, with some bound on its loops and some calls from client callbacks. -/
def Handles (node : Node) (event : Event) (result : Result) : Prop :=
  ∃ fuel script, handle fuel { node with script := script } event = result

/-- The states between handlers that a run from a given state goes through. -/
inductive Runs (allowed : Session → Event → Prop) (first : Node) : Node → Prop where
  | refl : Runs allowed first first
  | step {node next : Node} {event : Event} (run : Runs allowed first node)
      (ok : allowed node.pax event) (handles : Handles node event (.ok next)) :
      Runs allowed first next

/--
The instance numbers of a session are values of `paxid_t`, with one left behind each.

Here they are natural numbers and never wrap, so a statement about numbers is one about the source
for as long as they stay in the range.
-/
structure Session.Ranged (pax : Session) : Prop where
  hole : pax.ihole < paxidRange
  numbers : ∀ cell ∈ pax.ilist.cells, cell.inum + 1 < paxidRange

instance (pax : Session) : Decidable pax.Ranged :=
  decidable_of_iff (pax.ihole < paxidRange ∧
    ∀ cell ∈ pax.ilist.cells, cell.inum + 1 < paxidRange)
    ⟨fun ⟨hole, numbers⟩ => ⟨hole, numbers⟩, fun ranged => ⟨ranged.hole, ranged.numbers⟩⟩

/-- A run on which no instance number leaves its range, up to the state that it leads to. -/
structure Unwrapped (allowed : Session → Event → Prop) (first last : Node) : Prop where
  run : Runs (fun pax event => allowed pax event ∧ pax.Ranged) first last
  ranged : last.pax.Ranged

/-- A session that nobody else has entered. -/
def alone : Node := paxosStart 7 [1]

/-- A chat in that session, which is decreed, committed and learned at once. -/
def alone.event : Event := .client { dkind := .chat, data := [9] }

/-- What the chat leaves. -/
def alone.after : Node := (handle 20 alone alone.event).state

/-- The session handles its chat. -/
theorem alone.handles : Handles alone alone.event (.ok alone.after) :=
  ⟨20, [], by decide +kernel⟩

/-- A second member that is welcomed behind the joins of all three. -/
def successor : Welcome where
  source := 1
  hdr := { session := 7, ballot := ⟨1, 1⟩, opcode := .welcome, inum := 2 }
  session := 7
  ibase := 1
  alist := [⟨1, [1]⟩, ⟨2, [2]⟩, ⟨3, [3]⟩]
  ilist :=
    [{ hdr := { session := 7, ballot := ⟨1, 1⟩, opcode := .decree, inum := 1 }, committed := true
       val := { dkind := .join, reqid := ⟨1, 1⟩, extra := 0 } },
     { hdr := { session := 7, ballot := ⟨1, 1⟩, opcode := .commit, inum := 2 }, committed := true
       val := { dkind := .join, reqid := ⟨1, 2⟩, extra := 0 } },
     { hdr := { session := 7, ballot := ⟨1, 1⟩, opcode := .commit, inum := 3 }, committed := true
       val := { dkind := .join, reqid := ⟨1, 3⟩, extra := 0 } }]
  ascending := by decide

/-- What is left once it is connected to the third. -/
def successor.connected : Node := (handle 20 successor.node (.connected 0 (some 3))).state

/-- The second member greets the third. -/
theorem successor.connects :
    Handles successor.node (.connected 0 (some 3)) (.ok successor.connected) :=
  ⟨20, [], by decide +kernel⟩

/-- The only attempt that it makes is for its welcome, and the third has no channel until then. -/
theorem successor.attempt {purpose : Purpose} {acc : Acceptor} {chan : Option PeerId}
    (continues : Continues successor.node.pax (.connected 0 (some 3)) purpose acc chan) :
    purpose = .ackWelcome ∧ acc = { paxid := 3, peer := none, desc := [3] } ∧ chan = some 3 := by
  obtain ⟨handle, k, completed, pending, rfl, found⟩ := continues
  cases completed
  -- The welcome makes one attempt, which is the first on the list of connections.
  have only : successor.node.pax.clist =
    [{ handle := 0, purpose := .ackWelcome, paxid := 3 }] := by decide +kernel
  rw [only] at pending
  obtain rfl := Option.some.inj pending
  have third : acceptorFind successor.node.pax.alist 3 =
    some { paxid := 3, peer := none, desc := [3] } := by decide +kernel
  exact ⟨rfl, Option.some.inj (found.symm.trans third), rfl⟩

/-- What is left once it has lost the first as well, and prepares. -/
def successor.preparing : Node := (handle 20 successor.connected (.drop 1)).state

/-- The second member succeeds the first. -/
theorem successor.loses : Handles successor.connected (.drop 1) (.ok successor.preparing) :=
  ⟨20, [], by decide +kernel⟩

/-- The votes of the third: the join that both have, and a chat that only it has accepted. -/
def successor.reported : List PackedInstance :=
  [{ hdr := { session := 7, ballot := ⟨1, 1⟩, opcode := .commit, inum := 3 }, committed := true
     val := { dkind := .join, reqid := ⟨1, 3⟩, extra := 0 } },
   { hdr := { session := 7, ballot := ⟨1, 1⟩, opcode := .decree, inum := 5 }, committed := false
     val := { dkind := .chat, reqid := ⟨1, 4⟩, extra := 0 } }]

/-- The promise of the third, for the ballot of the second. -/
def successor.promise : Event :=
  .message 3 ⟨⟨7, ⟨2, 2⟩, .promise, 4⟩, .votes successor.reported.length successor.reported⟩

/-- What is left once the third has promised, which makes a majority. -/
def successor.leading : Node := (handle 20 successor.preparing successor.promise).state

/-- The second member ends its prepare. -/
theorem successor.wins :
    Handles successor.preparing successor.promise (.ok successor.leading) :=
  ⟨20, [], by decide +kernel⟩

/-- An accept of the third, for a decree of the second. -/
def successor.accept (inum : Nat) : Event :=
  .message 3 ⟨⟨7, ⟨2, 2⟩, .accept, inum⟩, .empty⟩

/-- What is left once the chat is committed, whose data the second has to ask for. -/
def successor.asking : Node := (handle 20 successor.leading (successor.accept 5)).state

/-- The second member commits the chat, in front of which there is another decree. -/
theorem successor.commits :
    Handles successor.leading (successor.accept 5) (.ok successor.asking) :=
  ⟨20, [], by decide +kernel⟩

/-- The data of the chat, which the third sends. -/
def successor.resend : Event :=
  .message 3 ⟨⟨7, ⟨2, 2⟩, .resend, 5⟩, .request ⟨⟨.chat, ⟨1, 4⟩, 0⟩, [9]⟩⟩

/-- What is left once the second has the data. -/
def successor.waiting : Node := (handle 20 successor.asking successor.resend).state

/-- The second member caches the chat, which it cannot learn yet. -/
theorem successor.caches : Handles successor.asking successor.resend (.ok successor.waiting) :=
  ⟨20, [], by decide +kernel⟩

/-- What is left once there is nothing in front of the chat. -/
def successor.hearing : Node := (handle 20 successor.waiting (successor.accept 4)).state

/-- The second member learns the chat, behind the null in front of it. -/
theorem successor.learns :
    Handles successor.waiting (successor.accept 4) (.ok successor.hearing) :=
  ⟨20, [], by decide +kernel⟩

/-- What is left once the first is struck off the list. -/
def successor.remaining : Node := (handle 20 successor.hearing (successor.accept 6)).state

/-- The second member learns its kill of the first. -/
theorem successor.settles :
    Handles successor.hearing (successor.accept 6) (.ok successor.remaining) :=
  ⟨20, [], by decide +kernel⟩

/-- The second member goes through its prepare to the chat, as far as the events are allowed. -/
theorem successor.decides {allowed : Session → Event → Prop}
    (connected : allowed successor.node.pax (.connected 0 (some 3)))
    (dropped : allowed successor.connected.pax (.drop 1))
    (promised : allowed successor.preparing.pax successor.promise)
    (accepted : allowed successor.leading.pax (successor.accept 5))
    (resent : allowed successor.asking.pax successor.resend) :
    Runs allowed successor.node successor.waiting :=
  ((((Runs.refl.step connected successor.connects).step dropped successor.loses).step promised
    successor.wins).step accepted successor.commits).step resent successor.caches

/-- The hello of the first on a new channel, before it knows of the prepare. -/
def successor.greeting : Event := .message 4 ⟨⟨7, ⟨1, 1⟩, .hello, 1⟩, .empty⟩

/-- What is left once the first has returned. -/
def successor.yielded : Node := (handle 20 successor.preparing successor.greeting).state

/-- The second member gives up its prepare, as the first outranks it. -/
theorem successor.yields :
    Handles successor.preparing successor.greeting (.ok successor.yielded) :=
  ⟨20, [], by decide +kernel⟩

/-- A third member, which is welcomed as the second is. -/
def follower : Welcome where
  source := 1
  hdr := { session := 7, ballot := ⟨1, 1⟩, opcode := .welcome, inum := 3 }
  session := 7
  ibase := 1
  alist := successor.alist
  ilist := successor.ilist
  ascending := successor.ascending

/-- What is left once it is connected to the second. -/
def follower.connected : Node := (handle 20 follower.node (.connected 0 (some 2))).state

/-- The third member greets the second. -/
theorem follower.connects :
    Handles follower.node (.connected 0 (some 2)) (.ok follower.connected) :=
  ⟨20, [], by decide +kernel⟩

/-- What is left once it has lost the first as well. -/
def follower.bereft : Node := (handle 20 follower.connected (.drop 1)).state

/-- The third member takes the second for the proposer. -/
theorem follower.loses : Handles follower.connected (.drop 1) (.ok follower.bereft) :=
  ⟨20, [], by decide +kernel⟩

/-- The prepare of the second. -/
def follower.prepare : Event := .message 2 ⟨⟨7, ⟨2, 2⟩, .prepare, 4⟩, .empty⟩

/-- What is left once the third has promised. -/
def follower.sworn : Node := (handle 20 follower.bereft follower.prepare).state

/-- The third member promises. -/
theorem follower.promises : Handles follower.bereft follower.prepare (.ok follower.sworn) :=
  ⟨20, [], by decide +kernel⟩

/-- The decree of the second, which kills the first. -/
def follower.decree : Event :=
  .message 2 ⟨⟨7, ⟨2, 2⟩, .decree, 4⟩, .value ⟨.kill, ⟨2, 1⟩, 1⟩⟩

/-- What is left once the third has accepted. -/
def follower.bound : Node := (handle 20 follower.sworn follower.decree).state

/-- The third member accepts. -/
theorem follower.accepts : Handles follower.sworn follower.decree (.ok follower.bound) :=
  ⟨20, [], by decide +kernel⟩

/-- A run goes on with another one. -/
theorem Runs.trans {allowed : Session → Event → Prop} {first mid last : Node}
    (run : Runs allowed first mid) (more : Runs allowed mid last) : Runs allowed first last := by
  induction more with
  | refl => exact run
  | step _ ok handles ih => exact ih.step ok handles

/-- What holds at first and survives every handler holds throughout a run. -/
theorem Runs.invariant {allowed : Session → Event → Prop} {first last : Node}
    {inv : Node → Prop} (run : Runs allowed first last) (init : inv first)
    (step : ∀ {node event next}, allowed node.pax event → Handles node event (.ok next) →
      inv node → inv next) : inv last := by
  induction run with
  | refl => exact init
  | step _ ok handles ih => exact step ok handles ih

/-- Events that are allowed by one condition are allowed by a weaker one. -/
theorem Runs.weaken {allowed lenient : Session → Event → Prop} {first last : Node}
    (run : Runs allowed first last) (weaker : ∀ pax event, allowed pax event → lenient pax event) :
    Runs lenient first last := by
  induction run with
  | refl => exact .refl
  | step _ ok handles ih => exact ih.step (weaker _ _ ok) handles

/-- A run whose numbers stay in their range is a run. -/
theorem Unwrapped.runs {allowed : Session → Event → Prop} {first last : Node}
    (unwrapped : Unwrapped allowed first last) : Runs allowed first last :=
  unwrapped.run.weaken fun _ _ => And.left

/-- What survives every move survives a sequence of moves. -/
theorem moves_invariant {start : Node} {event : Event} {inv : Config → Prop}
    (moves : ∀ {config after}, Move start event config after →
      config.node.pax.ilist.WellFormed → inv config → inv after)
    {config after : Config} (path : Relation.ReflTransGen (Move start event) config after)
    (wf : config.node.pax.ilist.WellFormed) (init : inv config) : inv after := by
  induction path with
  | refl => exact init
  | tail before move ih => exact moves move (move_wellFormed before wf) ih

/-- What survives every move holds of the state that a handler returns, or halts from. -/
theorem handle_invariant {start : Node} {fuel : Nat} {event : Event} {inv : Config → Prop}
    (wf : start.pax.ilist.WellFormed) (init : inv ⟨start, []⟩)
    (moves : ∀ {config after}, Move start event config after →
      config.node.pax.ilist.WellFormed → inv config → inv after) :
    (∀ next, handle fuel start event = .ok next → inv ⟨next, []⟩) ∧
      ∀ reason halted, handle fuel start event = .stop reason halted → ∃ reached, inv reached ∧
        reached.node.pax.ilist.WellFormed ∧ Halts reason reached.node halted := by
  have follows : Follows start event start _ := handle_follows fuel event wf
  -- The path that the handler follows ends where it returns or halts.
  generalize handle fuel start event = result at follows
  constructor
  · rintro next rfl
    exact moves_invariant moves follows wf init
  · rintro reason halted rfl
    obtain ⟨reached, path, halts⟩ := follows
    exact ⟨reached, moves_invariant moves path wf init, move_wellFormed path wf, halts⟩

/-- What survives every move holds after a handler, whatever the calls of the client are. -/
theorem Handles.invariant {node : Node} {event : Event} {result : Result} {inv : Config → Prop}
    (handles : Handles node event result) (wf : node.pax.ilist.WellFormed)
    (init : ∀ script, inv ⟨{ node with script := script }, []⟩)
    (moves : ∀ {script config after}, Move { node with script := script } event config after →
      config.node.pax.ilist.WellFormed → inv config → inv after) :
    (∀ next, result = .ok next → inv ⟨next, []⟩) ∧
      ∀ reason halted, result = .stop reason halted → ∃ reached, inv reached ∧
        reached.node.pax.ilist.WellFormed ∧ Halts reason reached.node halted := by
  obtain ⟨fuel, script, rfl⟩ := handles
  exact @handle_invariant { node with script := script } fuel event inv wf (init script) moves

/-- What a handler has done to the outside. -/
def fresh (node : Node) (result : Result) : List Effect :=
  result.state.out.drop node.out.length

/-- Whatever a handler does to the outside, it does in one of its moves, or as it learns. -/
theorem Handles.tells {node : Node} {event : Event} {result : Result} {inv : Config → Prop}
    (handles : Handles node event result) (wf : node.pax.ilist.WellFormed)
    (init : ∀ script, inv ⟨{ node with script := script }, []⟩)
    (moves : ∀ {script config after}, Move { node with script := script } event config after →
      config.node.pax.ilist.WellFormed → inv config → inv after) :
    ∀ effect ∈ fresh node result, ∃ script config,
      config.node.pax.ilist.WellFormed ∧ inv config ∧
        ((∃ after made, Move { node with script := script } event config after ∧
          Tells { node with script := script } event made config.node after.node effect) ∨
            Teaches config.node effect) := by
  -- An effect comes of a move that the handler makes, or of the learn on which it halts.
  let told : Effect → Prop := fun effect => ∃ script config,
    config.node.pax.ilist.WellFormed ∧ inv config ∧
      ((∃ after made, Move { node with script := script } event config after ∧
        Tells { node with script := script } event made config.node after.node effect) ∨
          Teaches config.node effect)
  -- The record only grows, and each addition is told by the move that makes it.
  have traced := @Handles.invariant node event result (fun config => inv config ∧
      ∃ effects, config.node.out = node.out ++ effects ∧ ∀ effect ∈ effects, told effect)
    handles wf (fun script => ⟨init script, [], by simp, by simp⟩) ?_
  · have recorded : ∃ effects, result.state.out = node.out ++ effects ∧
        ∀ effect ∈ effects, told effect := by
      cases result with
      | ok next => exact (traced.1 next rfl).2
      | stop reason halted =>
        obtain ⟨reached, ⟨holds, effects, out, known⟩, wf, halts⟩ := traced.2 reason halted rfl
        obtain ⟨last, more, teaches⟩ := halts.told
        refine ⟨effects ++ last, ?_, ?_⟩
        · rw [← List.append_assoc, ← out]
          exact more
        · intro effect mem
          rcases List.mem_append.mp mem with mem | mem
          · exact known effect mem
          · exact ⟨[], reached, wf, holds, Or.inr (teaches effect mem)⟩
    obtain ⟨effects, out, known⟩ := recorded
    intro effect mem
    rw [fresh, out, List.drop_left] at mem
    exact known effect mem
  · rintro script config after move wf ⟨holds, effects, out, known⟩
    obtain ⟨made, more, tale, tells⟩ := move.tells wf
    refine ⟨moves move wf holds, effects ++ more, ?_, ?_⟩
    · rw [tale.out, out, List.append_assoc]
    · intro effect mem
      rcases List.mem_append.mp mem with mem | mem
      · exact known effect mem
      · exact ⟨script, config, wf, holds, (tells effect mem).imp_left fun tells =>
          ⟨after, made, move, tells⟩⟩

/-- What a handler has done to the outside comes after all that was done before. -/
theorem Handles.out {node : Node} {event : Event} {result : Result}
    (handles : Handles node event result) (wf : node.pax.ilist.WellFormed) :
    result.state.out = node.out ++ fresh node result := by
  -- Each move adds its effects at the end, and so does a halt.
  have traced := @Handles.invariant node event result
    (fun config => ∃ effects, config.node.out = node.out ++ effects) handles wf
    (fun _ => ⟨[], by simp⟩) ?_
  · obtain ⟨effects, out⟩ : ∃ effects, result.state.out = node.out ++ effects := by
      cases result with
      | ok next => exact traced.1 next rfl
      | stop reason halted =>
        obtain ⟨reached, ⟨effects, out⟩, -, halts⟩ := traced.2 reason halted rfl
        obtain ⟨last, more, -⟩ := halts.told
        refine ⟨effects ++ last, ?_⟩
        rw [← List.append_assoc, ← out]
        exact more
    rw [fresh, out, List.drop_left]
  · rintro script config after move wf ⟨effects, out⟩
    obtain ⟨_, more, tale, -⟩ := move.tells wf
    exact ⟨effects ++ more, by rw [tale.out, out, List.append_assoc]⟩

/-- A handler that returns leaves the log well formed. -/
theorem Handles.wellFormed {node next : Node} {event : Event}
    (handles : Handles node event (.ok next)) (wf : node.pax.ilist.WellFormed) :
    next.pax.ilist.WellFormed := by
  have kept := @Handles.invariant _ _ _ (fun config => config.node.pax.ilist.WellFormed) handles
    wf (fun _ => wf) fun move wf _ => move.wellFormed wf
  exact kept.1 next rfl

end Motmot
