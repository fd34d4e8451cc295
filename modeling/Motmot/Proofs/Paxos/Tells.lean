import Mathlib.Data.List.TakeWhile
import Motmot.Proofs.Paxos.Dispatch

/-! What every move tells the outside. -/

namespace Motmot

variable {start : Node} {event : Event}

/-- What a move tells the outside. -/
inductive Tells (start : Node) (event : Event) (made : List Request) (before after : Node) :
    Effect → Prop where
  | side {effect} (side : Side start event before made effect) :
      Tells start event made before after effect
  /-- The header and value of an instance that we hold. -/
  | inst {peer addr inst} (held : after.inst? addr = some inst)
      (named : inst.hdr.opcode = .decree ∨ inst.hdr.opcode = .commit ∨
        ∃ cell ∈ before.pax.ilist.cells, cell.inst.hdr = inst.hdr) :
      Tells start event made before after (.send peer { hdr := inst.hdr, body := .value inst.val })
  | prepare {peer prep} (preparing : before.pax.prep = some prep) :
      Tells start event made before after (.send peer (prepareMsg before.pax prep.ballot))
  | promise {source hdr body count votes} (asked : event = .message source ⟨hdr, body⟩)
      (opcode : hdr.opcode = .prepare) (acceptor : isProposer start.pax = false)
      (newer : ballotCompare hdr.ballot start.pax.ballot = .gt) (first : before = start)
      (packed : promiseVotes start.pax.ilist hdr.inum = (count, votes))
      (sworn : after.pax.ballot = hdr.ballot) :
      Tells start event made before after (.send source
        { hdr := { hdr with opcode := .promise }
          body := .votes count (votes.map fun cell => instancePack cell.inst) })
  | accept {source hdr val next peer} (asked : event = .message source ⟨hdr, .value val⟩)
      (opcode : hdr.opcode = .decree) (acceptor : isProposer start.pax = false)
      (current : hdr.ballot = start.pax.ballot) (first : before = start)
      (stores : Stores hdr val start next) (stored : after.pax = next.pax) :
      Tells start event made before after
        (.send peer { hdr := { hdr with opcode := .accept }, body := .empty })
  | recommit {source hdr body cell peer} (asked : event = .message source ⟨hdr, body⟩)
      (opcode : hdr.opcode = .retry) (proposer : isProposer start.pax = true)
      (mem : cell ∈ after.pax.ilist.cells) (number : cell.inum = hdr.inum)
      (committed : cell.inst.committed = true) :
      Tells start event made before after (.send peer
        { hdr := { hdr with opcode := .recommit }, body := .value cell.inst.val })
  | welcome {acc peer} (prior : Prior start event before)
      (continues : Continues start.pax event .welcome acc (some peer)) :
      Tells start event made before after (.send peer
        { hdr := headerInit before.pax .welcome acc.paxid
          body := .welcome before.pax.sessionId before.pax.ibase
            (before.pax.alist.map acceptorPack)
            (before.pax.ilist.cells.map fun cell => instancePack cell.inst) })
  | commit {cell} (mem : cell ∈ before.pax.ilist.cells)
      (uncommitted : cell.inst.committed = false) (enough : majority before.pax ≤ cell.inst.votes) :
      Tells start event made before after
        (.commit (markCommit cell.inst).hdr cell.inst.val cell.inst.votes)

/-- What a learn tells: that it happened, and then to the client what a chat says. -/
inductive Teaches (before : Node) : Effect → Prop where
  | learn {addr inst} (held : before.inst? addr = some inst)
      (hole : inst.hdr.inum = before.pax.ihole) (committed : inst.committed = true)
      (cached : inst.cached = true) (unlearned : inst.learned = false) :
      Teaches before (.learn inst.hdr.inum inst.val)
  | chat {addr inst req acc} (held : before.inst? addr = some inst)
      (hole : inst.hdr.inum = before.pax.ihole) (kind : inst.val.dkind = .chat)
      (found : requestFind before.pax.rcache inst.val.reqid = some req)
      (sender : acceptorFind before.pax.alist inst.val.reqid.id = some acc) :
      Teaches before (.chat req.data acc.desc)

/-- A handler that halts has told no more than its moves, but for a chat without a sender. -/
theorem Halts.told {reason : Stop} {reached halted : Node} (halts : Halts reason reached halted) :
    ∃ effects, halted.out = reached.out ++ effects ∧ ∀ effect ∈ effects,
      Teaches reached effect := by
  -- A handler that fails on a learn has learned that value.
  rcases halts.out with out | failed
  · exact ⟨[], by rw [out, List.append_nil], by simp⟩
  · cases halts.unsent failed with
    | @learn addr inst held hole committed cached unlearned =>
      refine ⟨[.learn inst.hdr.inum inst.val], rfl, ?_⟩
      intro effect mem
      obtain rfl := List.mem_singleton.mp mem
      exact .learn held hole committed cached unlearned

/-- A truncation frees the requests of the instances that it drops. -/
theorem mem_dropRequests {cache : List Request} {cells : List Cell} {req : Request} :
    req ∈ dropRequests cache cells ↔
      req ∈ cache ∧ ∀ cell ∈ cells, req.val.reqid ≠ cell.inst.val.reqid := by
  unfold dropRequests
  -- By induction on what is dropped, each element of which frees its own request.
  induction cells generalizing cache with
  | nil => simp
  | cons cell rest ih =>
    rw [List.foldl_cons, ih]
    simp only [List.mem_filter, decide_eq_true_eq, List.forall_mem_cons]
    tauto

/-- What a move does to the outside and to the requests that a session knows. -/
structure Tale (start : Node) (event : Event) (before after : Node) (made : List Request)
    (effects : List Effect) : Prop where
  issued : Issued start event before after made
  cached : ∀ req ∈ after.pax.rcache, Source start event before made req
  pending : ∀ k ∈ after.pax.clist, k ∈ before.pax.clist ∨ Expects before.pax event k
  out : after.out = before.out ++ effects

/-- A move that only adds effects, each of which it may tell. -/
def Adds (start : Node) (event : Event) (before after : Node) : Prop :=
  ∃ made effects, Tale start event before after made effects ∧
    ∀ effect ∈ effects, Tells start event made before after effect

variable {before after : Node}

/-- A move that tells what it may, and that neither caches nor expects anything. -/
theorem Adds.many (effects : List Effect) (desk : after.pax.desk = before.pax.desk)
    (out : after.out = before.out ++ effects)
    (tells : ∀ effect ∈ effects, Tells start event [] before after effect) :
    Adds start event before after := by
  obtain ⟨rcache, clist⟩ := Prod.mk.inj desk
  exact ⟨[], effects, ⟨.none, fun _ mem => .cached (rcache ▸ mem),
    fun _ mem => Or.inl (clist ▸ mem), out⟩, tells⟩

/-- A move that tells nothing. -/
theorem Adds.silent (desk : after.pax.desk = before.pax.desk) (out : after.out = before.out) :
    Adds start event before after :=
  .many [] desk (by simp [out]) fun _ mem => absurd mem List.not_mem_nil

/-- A move that tells one thing. -/
theorem Adds.one {effect : Effect} (desk : after.pax.desk = before.pax.desk)
    (out : after.out = before.out ++ [effect])
    (tells : Tells start event [] before after effect) : Adds start event before after :=
  .many [effect] desk out (by simpa using tells)

/-- What a beginning tells is all that is told when silence follows. -/
theorem Beside.adds {mid : Node} (prior : Beside start event before mid)
    (desk : after.pax.desk = mid.pax.desk) (counted : mid.pax.reqId ≤ after.pax.reqId)
    (out : after.out = mid.out) : Adds start event before after := by
  obtain ⟨rcache, clist⟩ := Prod.mk.inj desk
  -- What comes behind the beginning is silent.
  obtain ⟨made, effects, traced⟩ := prior.traced
  refine ⟨made, effects, ⟨traced.issued.later counted, fun req mem => ?_, fun k mem => ?_,
    out.trans traced.out⟩, fun effect mem => .side (traced.sides effect mem)⟩
  · exact traced.cached req (rcache ▸ mem)
  · exact prior.pending k (clist ▸ mem)

/-- A move that tells what happens beside the log. -/
theorem Adds.outer (outer : Beside start event before after) : Adds start event before after :=
  outer.adds rfl (Nat.le_refl _) rfl

/-- A broadcast sends its message and nothing else. -/
theorem Adds.broadcast {msg : Msg} {accs : List Acceptor}
    (desk : after.pax.desk = before.pax.desk)
    (out : after.out = before.out ++ accs.filterMap fun acc => acc.peer.map (Effect.send · msg))
    (tells : ∀ peer, Tells start event [] before after (.send peer msg)) :
    Adds start event before after := by
  refine .many _ desk out fun effect mem => ?_
  obtain ⟨acc, -, sent⟩ := List.mem_filterMap.mp mem
  obtain ⟨peer, -, rfl⟩ := Option.map_eq_some_iff.mp sent
  exact tells peer

@[simp] theorem instanceInsertAndUpstart_desk (node : Node) (inst : Instance) :
    (instanceInsertAndUpstart node inst).pax.desk = node.pax.desk := by
  obtain ⟨_, _, same⟩ := instanceInsertAndUpstart_eq node inst
  rw [same]
  rfl

@[simp] theorem announceDecree_desk (node : Node) (inst : Instance) :
    (announceDecree node inst).pax.desk = node.pax.desk :=
  instanceInsertAndUpstart_desk node (decreeOf node.pax inst)

@[simp] theorem enlist_desk (node : Node) (inum : Nat) (req : Request) :
    (enlist node inum req).pax.desk = node.pax.desk := by
  unfold enlist
  cases acceptorFind node.pax.adefer inum <;> rfl

@[simp] theorem learnt_desk (node : Node) (addr : Addr) (inst : Instance)
    (req : Option Request) : (learnt node addr inst req).pax.desk = node.pax.desk := by
  unfold learnt
  split
  · exact enlist_desk _ _ _
  · rfl

@[simp] theorem delist_desk (node : Node) (paxid : Nat) :
    (delist node paxid).pax.desk = node.pax.desk := by
  unfold delist
  split
  · rw [setLiveCount_desk]
    rfl
  · rfl

@[simp] theorem linkScratch_desk (node : Node) (place : Addr) (cell : Cell) :
    (linkScratch node place cell).pax.desk = node.pax.desk := by
  obtain ⟨_, same⟩ := linkScratch_eq node place cell
  rw [same]
  rfl

@[simp] theorem yieldTo_desk (node : Node) (acc : Acceptor) :
    (yieldTo node acc).pax.desk = node.pax.desk := by
  obtain ⟨_, same⟩ := yieldTo_writes node acc
  rw [same]
  rfl

/-- The replacement of a proposer neither caches nor expects anything. -/
theorem Replaces.desk {node next : Node} (replaces : Replaces node next) :
    next.pax.desk = node.pax.desk := by
  obtain ⟨_, same⟩ := resetProposer_eq node
  -- Neither the choice of a proposer nor a prepare touches the desk.
  cases replaces with
  | elect => rw [same]; rfl
  | begin =>
    show (resetProposer node).pax.desk = _
    rw [same]
    rfl

@[simp] theorem instanceInsertAndUpstart_out (node : Node) (inst : Instance) :
    (instanceInsertAndUpstart node inst).out = node.out := by
  unfold instanceInsertAndUpstart
  split <;> rfl

@[simp] theorem linkScratch_out (node : Node) (place : Addr) (cell : Cell) :
    (linkScratch node place cell).out = node.out := by
  unfold linkScratch
  split <;> rfl

@[simp] theorem resetProposer_out (node : Node) : (resetProposer node).out = node.out := by
  unfold resetProposer
  split <;> rfl

@[simp] theorem yieldTo_out (node : Node) (acc : Acceptor) :
    (yieldTo node acc).out = node.out := by
  obtain ⟨_, same⟩ := yieldTo_writes node acc
  rw [same]

@[simp] theorem yieldTo_reqId (node : Node) (acc : Acceptor) :
    (yieldTo node acc).pax.reqId = node.pax.reqId := by
  obtain ⟨_, same⟩ := yieldTo_writes node acc
  rw [same]

@[simp] theorem enlist_out (node : Node) (inum : Nat) (req : Request) :
    (enlist node inum req).out = node.out := by
  unfold enlist
  cases acceptorFind node.pax.adefer inum <;> rfl

@[simp] theorem learnt_out (node : Node) (addr : Addr) (inst : Instance) (req : Option Request) :
    (learnt node addr inst req).out =
      node.out ++ .learn inst.hdr.inum inst.val :: heard node.pax inst.val req := by
  have noted : (noteLearn node addr inst).out = node.out ++ [.learn inst.hdr.inum inst.val] := rfl
  unfold learnt
  -- A join enlists the newcomer and tells nothing else; otherwise the client is told.
  split
  · rename_i join
    rw [enlist_out, noted]
    simp [heard, join]
  · rw [noted, List.append_assoc]
    rfl

/-- Only of a chat does the client hear as it is learned, and then of its data. -/
theorem mem_heard {pax : Session} {val : Value} {effect : Effect}
    (mem : effect ∈ heard pax val (learnRequest pax val)) : val.dkind = .chat ∧ ∃ req acc,
      requestFind pax.rcache val.reqid = some req ∧
        acceptorFind pax.alist val.reqid.id = some acc ∧ effect = .chat req.data acc.desc := by
  unfold heard at mem
  split at mem
  · -- Only one branch tells the client anything.
    rename_i req acc kind found sender
    obtain rfl := List.mem_singleton.mp mem
    simp only [learnRequest, kind, requestNeedsCached] at found
    exact ⟨kind, req, acc, found, sender, rfl⟩
  · contradiction

/-- What happens beside the log may be followed by a broadcast. -/
theorem Beside.broadcast {mid : Node} {msg : Msg} {accs : List Acceptor}
    (prior : Beside start event before mid) (desk : after.pax.desk = mid.pax.desk)
    (counted : mid.pax.reqId ≤ after.pax.reqId)
    (out : after.out = mid.out ++ accs.filterMap fun acc => acc.peer.map (Effect.send · msg))
    (tells : ∀ made peer, Tells start event made before after (.send peer msg)) :
    Adds start event before after := by
  -- What was told before stays, and the broadcast comes behind it.
  obtain ⟨rcache, clist⟩ := Prod.mk.inj desk
  obtain ⟨made, early, traced⟩ := prior.traced
  refine ⟨made, early ++ accs.filterMap fun acc => acc.peer.map (Effect.send · msg),
    ⟨traced.issued.later counted, fun req mem => ?_, fun k mem => ?_,
      by rw [out, traced.out, List.append_assoc]⟩, fun effect mem => ?_⟩
  · exact traced.cached req (rcache ▸ mem)
  · exact prior.pending k (clist ▸ mem)
  · rcases List.mem_append.mp mem with mem | mem
    · exact .side (traced.sides effect mem)
    · obtain ⟨acc, -, sent⟩ := List.mem_filterMap.mp mem
      obtain ⟨peer, -, rfl⟩ := Option.map_eq_some_iff.mp sent
      exact tells made peer

/-- An instance that was inserted at a free number is held. -/
theorem inst?_insertAndUpstart {node : Node} (wf : node.pax.ilist.WellFormed) {inst : Instance}
    (free : ∀ cell ∈ node.pax.ilist.cells, cell.inum ≠ inst.hdr.inum)
    (sound : inst.learned = true → inst.committed = true ∧ inst.cached = true) :
    (instanceInsertAndUpstart node inst).inst? (nextAddr node) = some inst := by
  show (instanceInsertAndUpstart node inst).pax.ilist.inst? (nextAddr node) = some inst
  rw [instanceInsertAndUpstart_ilist]
  have mem : (⟨nextAddr node, inst⟩ : Cell) ∈ (node.pax.ilist.insert inst).cells :=
    (wf.mem_insert free).mpr (Or.inl rfl)
  exact (wf.insert free sound).inst?_of_mem mem

/-- A decree that is announced is held. -/
theorem announceDecree_tells {made : List Request} {node mid : Node} (inst : Instance)
    (wf : mid.pax.ilist.WellFormed) (peer : PeerId) :
    Tells start event made node (announceDecree mid inst)
      (.send peer ⟨(decreeOf mid.pax inst).hdr, .value inst.val⟩) := by
  have held : (announceDecree mid inst).inst? (nextAddr mid) = some (decreeOf mid.pax inst) :=
    inst?_insertAndUpstart wf (decreeOf_free wf inst) (by simp [decreeOf, instanceInitMetadata])
  exact .inst held (.inl rfl)

/-- A decree is announced over every channel. -/
theorem announceDecree_out (node : Node) (inst : Instance) :
    (announceDecree node inst).out = node.out ++ node.pax.alist.filterMap fun acc =>
      acc.peer.map (Effect.send · ⟨(decreeOf node.pax inst).hdr, .value inst.val⟩) := by
  obtain ⟨_, _, same⟩ := instanceInsertAndUpstart_eq node (decreeOf node.pax inst)
  show (paxosBroadcast (instanceInsertAndUpstart node (decreeOf node.pax inst)) _).out = _
  rw [same]
  rfl

/-- A decree counts no request. -/
theorem announceDecree_reqId (node : Node) (inst : Instance) :
    (announceDecree node inst).pax.reqId = node.pax.reqId := by
  obtain ⟨_, _, same⟩ := instanceInsertAndUpstart_eq node (decreeOf node.pax inst)
  exact congrArg (fun node => node.pax.reqId) same

/-- A commit that is announced is held. -/
theorem announceCommit_adds {node : Node} {cell : Cell} (wf : node.pax.ilist.WellFormed)
    (mem : cell ∈ node.pax.ilist.cells) (uncommitted : cell.inst.committed = false)
    (enough : majority node.pax ≤ cell.inst.votes) :
    Adds start event node (announceCommit node cell) := by
  -- The commit and the messages that announce it both tell of the instance as it is held now.
  have held : (announceCommit node cell).inst? cell.addr = some (markCommit cell.inst) :=
    Ilist.inst?_rewritten (wf.inst?_of_mem mem) markCommit
  refine .many (.commit (markCommit cell.inst).hdr cell.inst.val cell.inst.votes ::
    node.pax.alist.filterMap fun acc => acc.peer.map (Effect.send ·
      ⟨(markCommit cell.inst).hdr, .value cell.inst.val⟩)) rfl (by
        simp [announceCommit, paxosBroadcastInstance, paxosBroadcast, broadcastTo, Node.modify,
          Node.setIlist, Node.emit, markCommit]) ?_
  intro effect mem'
  rcases List.mem_cons.mp mem' with rfl | mem'
  · exact .commit mem uncommitted enough
  · obtain ⟨acc, -, sent⟩ := List.mem_filterMap.mp mem'
    obtain ⟨peer, -, rfl⟩ := Option.map_eq_some_iff.mp sent
    exact .inst held (.inr (.inl rfl))

/-- What a move from within a learn tells. -/
theorem Nest.adds {node next : Node} (act : Nest start event node next)
    (wf : node.pax.ilist.WellFormed) : Adds start event node next := by
  -- A decree, a commit and a prepare are broadcast, and the rest is silent.
  cases act with
  | outer outer => exact .outer outer.toBeside
  | defer prior => exact prior.toBeside.adds rfl (Nat.le_refl _) rfl
  | @decree mid inst prior =>
    exact prior.toBeside.broadcast (announceDecree_desk mid inst)
      (Nat.le_of_eq (announceDecree_reqId mid inst).symm) (announceDecree_out mid inst)
      fun _ => announceDecree_tells inst (prior.wellFormed wf)
  | announce mem uncommitted enough => exact announceCommit_adds wf mem uncommitted enough
  | commit => exact .silent rfl rfl
  | cache => exact .silent rfl rfl
  | aim => exact .silent rfl rfl
  | prepare preparing => exact .broadcast rfl rfl fun peer => .prepare preparing

/-- A promise goes over the channel that the prepare came on. -/
theorem acceptorPromise_out {node : Node} {hdr : Header} {acc : Acceptor} {source : PeerId}
    (found : proposerAcc node.pax = some acc) (bound : acc.peer = some source) :
    (acceptorPromise node hdr).state.out = node.out ++ [.send source
      { hdr := { hdr with opcode := .promise }
        body := .votes (promiseVotes node.pax.ilist hdr.inum).1
          ((promiseVotes node.pax.ilist hdr.inum).2.map fun cell => instancePack cell.inst) }] := by
  -- Swearing the ballot leaves the acceptors alone, so the proposer is found as before.
  have sworn : proposerAcc ((node.setBallot hdr.ballot).setGenHigh hdr.ballot.gen).pax =
    some acc := found
  have known : ((node.setBallot hdr.ballot).setGenHigh hdr.ballot.gen).pax.proposer ≠ none := by
    intro absent
    have absent : node.pax.proposer = none := absent
    simp [proposerAcc, absent] at found
  unfold acceptorPromise paxosSendToProposer paxosSend
  simp only [sworn, bound]
  split
  · contradiction
  · rfl

/-- A decree that is made again is held. -/
theorem Adds.redecree {node : Node} {addr : Addr} {inst : Instance}
    (desk : node.pax.desk = before.pax.desk) (out : node.out = before.out)
    (held : node.inst? addr = some inst) :
    Adds start event before (redecreeInstance node addr inst) :=
  .broadcast (by rw [← desk]; rfl) (by rw [← out]; rfl) fun _ =>
    .inst (Ilist.inst?_rewritten held _) (.inl rfl)

/-- What a move of the handler itself tells. -/
theorem Top.adds {node next : Node} (act : Top start event node next)
    (wf : node.pax.ilist.WellFormed) : Adds start event node next := by
  have after := act.wellFormed wf
  -- Each move tells what its message or its continuation calls for, or nothing.
  cases act with
  | beside prior => exact .outer prior.toBeside
  | depose _ _ out _ replaces _ desk =>
    exact .silent (replaces.desk.trans desk) (replaces.out.trans out)
  | promise asked opcode acceptor newer found bound =>
    exact .one (by rw [acceptorPromise_pax]; rfl) (acceptorPromise_out found bound)
      (.promise asked opcode acceptor newer rfl rfl
      (congrArg Session.ballot (acceptorPromise_pax _ _)))
  | store asked opcode acceptor current stores =>
    obtain ⟨_, _, same⟩ := stores.eq
    exact .silent (by rw [same]; rfl) (by rw [same])
  | accept asked opcode acceptor current stores =>
    obtain ⟨_, _, same⟩ := stores.eq
    exact .one (by rw [same]; rfl) (by rw [same]; rfl) (.accept asked opcode acceptor current
      rfl stores rfl)
  | commitFresh =>
    exact .silent (instanceInsertAndUpstart_desk _ _) (instanceInsertAndUpstart_out _ _)
  | commitOver => exact .silent rfl rfl
  | recommitOver => exact .silent rfl rfl
  | vote => exact .silent rfl rfl
  | reject => exact .silent rfl rfl
  | rebroadcast _ _ _ _ _ mem =>
    exact .broadcast rfl rfl fun peer => .inst (wf.inst?_of_mem mem) (.inr (.inr ⟨_, mem, rfl⟩))
  | @rewrite _ _ _ chan cell prior continues found =>
    -- What is sent again was decreed before.
    have mem := (wf.find_eq_some.mp (by rw [prior.ilist]; exact found)).1
    refine .broadcast rfl rfl fun peer => .inst (Ilist.inst?_rewritten (wf.inst?_of_mem mem) _) ?_
    -- A part that is decreed again keeps its header, a null decree gets the opcode of a decree.
    cases chan with
    | none => exact .inr (.inr ⟨cell, mem, rfl⟩)
    | some peer => exact .inl rfl
  | merge _ _ _ _ _ _ merges =>
    obtain ⟨_, _, same⟩ := merges.eq
    exact .silent (by rw [same]; rfl) (by rw [same])
  | ack => exact .silent rfl rfl
  | win => exact .silent rfl rfl
  | @fill _ _ _ place _ inum _ _ _ whole above below =>
    have filled := fillNull_wellFormed wf whole above below
    have mem := mem_fillNull wf inum whole
    exact .redecree (linkScratch_desk _ _ _) (linkScratch_out _ _ _) (filled.inst?_of_mem mem)
  | redecree _ _ _ held => exact .redecree rfl rfl held
  | settle => exact .silent rfl rfl
  | @undefer _ inst rest =>
    exact .broadcast (announceDecree_desk (node.setIdefer rest) inst)
      (announceDecree_out (node.setIdefer rest) inst) fun _ =>
        @announceDecree_tells _ _ _ _ (node.setIdefer rest) inst wf _
  | redirect => exact .silent rfl rfl
  | rebegin => exact .silent rfl rfl
  | yieldRedirect prior =>
    exact prior.toBeside.adds (yieldTo_desk _ _) (Nat.le_of_eq (yieldTo_reqId _ _).symm)
      (yieldTo_out _ _)
  | yieldRefuse prior =>
    exact prior.toBeside.adds (yieldTo_desk _ _) (Nat.le_of_eq (yieldTo_reqId _ _).symm)
      (yieldTo_out _ _)
  | helloYield prior =>
    refine prior.toBeside.adds ?_ (Nat.le_of_eq ?_) ?_
    · show Session.desk (Node.pax (if _ then _ else _)) = _
      split <;> rfl
    · show _ = (Node.pax (if _ then _ else _)).reqId
      split <;> rfl
    · split <;> rfl
  | helloBallot => exact .silent rfl rfl
  | truncate =>
    -- Requests are dropped along with their instances.
    exact ⟨[], [], ⟨.none, fun req mem => .cached (mem_dropRequests.mp mem).1, fun _ => Or.inl,
      by simp [ilistTruncatePrefix, Node.setRcache, Node.setIlist]⟩,
      fun _ mem => absurd mem List.not_mem_nil⟩
  | recommit asked opcode proposer found committed =>
    obtain ⟨mem, number⟩ := wf.find_eq_some.mp found
    exact .broadcast rfl rfl fun peer => .recommit asked opcode proposer mem number committed
  | welcome prior continues => exact .one rfl rfl (.welcome prior continues)

/-- The scan of a promise ends on an instance that is not past the number, and packs from there on,
or it runs off the list and packs nothing. -/
theorem promiseVotes_cases (list : Ilist) (inum : Nat) :
    (∃ older cell newer, list.cells = older ++ cell :: newer ∧ cell.inum ≤ inum ∧
      (∀ other ∈ newer, inum < other.inum) ∧
        promiseVotes list inum = (newer.length + 1, cell :: newer)) ∨
      (∀ cell ∈ list.cells, inum < cell.inum) ∧
        promiseVotes list inum = (list.cells.length, []) := by
  -- The scan runs backwards, so the list is cut at the first element that is not past the number.
  have whole := @List.takeWhile_append_dropWhile _ (fun cell : Cell => decide (inum < cell.inum))
    list.cells.reverse
  have past := @List.mem_takeWhile_imp _ (fun cell : Cell => decide (inum < cell.inum))
    list.cells.reverse
  have ends := @List.head_dropWhile_not _ (fun cell : Cell => decide (inum < cell.inum))
    list.cells.reverse
  unfold promiseVotes
  simp only
  generalize list.cells.reverse.takeWhile (fun cell => decide (inum < cell.inum)) = upper
    at whole past ⊢
  generalize list.cells.reverse.dropWhile (fun cell => decide (inum < cell.inum)) = lower
    at whole ends
  have rest : list.cells.reverse.drop upper.length = lower := by
    rw [← whole]
    exact List.drop_left
  have turned := congrArg List.reverse whole
  rw [List.reverse_reverse, List.reverse_append] at turned
  rw [rest]
  cases lower with
  | nil =>
    -- Every instance lies past the number.
    simp only [List.reverse_nil, List.nil_append] at turned
    refine Or.inr ⟨fun cell mem => ?_, by rw [← turned, List.length_reverse]⟩
    rw [← turned, List.mem_reverse] at mem
    exact of_decide_eq_true (past mem)
  -- The scan has stopped at this element, and packs it and all that follow.
  | cons cell more =>
    refine Or.inl ⟨more.reverse, cell, upper.reverse, ?_, ?_, fun other mem => ?_, by simp⟩
    · rw [← turned]
      simp
    · have stopped := of_decide_eq_false (ends (List.cons_ne_nil cell more))
      rw [List.head_cons] at stopped
      omega
    · exact of_decide_eq_true (past (List.mem_reverse.mp mem))

/-- A promise packs an end of the log. -/
theorem promiseVotes_suffix (list : Ilist) (inum : Nat) :
    (promiseVotes list inum).2 <:+ list.cells := by
  rcases promiseVotes_cases list inum with ⟨older, cell, newer, cells, -, -, votes⟩ | ⟨-, votes⟩
  · rw [votes, cells]
    exact List.suffix_append older _
  · rw [votes]
    exact List.nil_suffix

/-- A move learns an instance, or only adds what it may tell. -/
theorem Move.adds {config next : Config} (move : Move start event config next)
    (wf : config.node.pax.ilist.WellFormed) :
    Adds start event config.node next.node ∨ ∃ addr inst, config.node.inst? addr = some inst ∧
      inst.hdr.inum = config.node.pax.ihole ∧ inst.committed = true ∧ inst.cached = true ∧
      inst.learned = false ∧
      next.node = learnt config.node addr inst (learnRequest config.node.pax inst.val) := by
  -- Only a learn adds what no other move may tell.
  cases move with
  | top act => exact Or.inl (act.adds wf)
  | inner move =>
    cases move with
    | nest _ act => exact Or.inl (act.adds wf)
    | @learn _ _ addr inst held hole committed cached unlearned =>
      exact Or.inr ⟨addr, inst, held, hole, committed, cached, unlearned, rfl⟩
    | delist => exact Or.inl (.silent (delist_desk _ _) (delist_out _ _))
    | depose _ _ replaces =>
      exact Or.inl (.silent (replaces.desk.trans (delist_desk _ _))
        (replaces.out.trans (delist_out _ _)))
    | enter => exact Or.inl (.silent rfl rfl)
    | next => exact Or.inl (.silent rfl rfl)
    | last => exact Or.inl (.silent rfl rfl)
    | gap => exact Or.inl (.silent rfl rfl)
    | rest => exact Or.inl (.silent rfl rfl)

/-- What a learn does to the outside and to the requests that a session knows. -/
theorem learnt_tale (node : Node) (addr : Addr) (inst : Instance) (req : Option Request) :
    Tale start event node (learnt node addr inst req) []
      (.learn inst.hdr.inum inst.val :: heard node.pax inst.val req) := by
  obtain ⟨rcache, clist⟩ := Prod.mk.inj (learnt_desk node addr inst req)
  exact ⟨.none, fun _ mem => .cached (rcache ▸ mem), fun _ mem => Or.inl (clist ▸ mem),
    learnt_out node addr inst req⟩

/-- What any move tells: a learn tells that it happened, and no other move does. -/
theorem Move.tells {config next : Config} (move : Move start event config next)
    (wf : config.node.pax.ilist.WellFormed) :
    ∃ made effects, Tale start event config.node next.node made effects ∧ ∀ effect ∈ effects,
      Tells start event made config.node next.node effect ∨ Teaches config.node effect := by
  -- A move tells what its steps are entitled to, or it is a learn.
  rcases move.adds wf with ⟨made, effects, tale, tells⟩ |
    ⟨addr, inst, held, hole, committed, cached, unlearned, learns⟩
  · exact ⟨made, effects, tale, fun effect mem => Or.inl (tells effect mem)⟩
  · refine ⟨[], _, learns ▸ learnt_tale config.node addr inst _, fun effect mem => ?_⟩
    rcases List.mem_cons.mp mem with rfl | mem
    · -- The learn itself comes first, and what the client hears behind it.
      exact Or.inr (.learn held hole committed cached unlearned)
    · obtain ⟨kind, req, acc, found, sender, rfl⟩ := mem_heard mem
      exact Or.inr (.chat held hole kind found sender)

end Motmot
