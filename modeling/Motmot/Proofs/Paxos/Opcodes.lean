import Motmot.Proofs.Paxos.Stock
import Motmot.Proofs.Paxos.Welcome

/-! The opcodes of the instances in a log. -/

namespace Motmot

/-- No instance has the opcode. -/
def Ilist.Lacks (list : Ilist) (never : Opcode) : Prop :=
  ∀ inst, list.Allots inst → inst.hdr.opcode ≠ never

/-- No instance that a message carries has the opcode. -/
structure Msg.Lacks (msg : Msg) (never : Opcode) : Prop where
  votes : ∀ count votes, msg.body = .votes count votes → ∀ vote ∈ votes, vote.hdr.opcode ≠ never
  welcome : ∀ session ibase alist ilist, msg.body = .welcome session ibase alist ilist →
    ∀ packed ∈ ilist, packed.hdr.opcode ≠ never

/-- An event brings no instance with the opcode. -/
def Event.Lacks (event : Event) (never : Opcode) : Prop :=
  ∀ source msg, event = .message source msg → msg.Lacks never

/--
Opcodes that no handler of an event writes into the log.

The null that fills a gap passes for a prepare until it is decreed.
-/
structure Unwritten (pax : Session) (event : Event) (never : Opcode) : Prop where
  decree : .decree ≠ never
  commit : .commit ≠ never
  recommit : .recommit ≠ never
  filled : (∃ prep, Completes pax event prep) → .prepare ≠ never

/-- No handler writes a hello into the log. -/
theorem Unwritten.hello (pax : Session) (event : Event) : Unwritten pax event .hello where
  decree := by decide
  commit := by decide
  recommit := by decide
  filled := fun _ => by decide

variable {never : Opcode}

namespace Ilist.Lacks

variable {list : Ilist}

/-- A write that gives no instance the opcode. -/
theorem modify (lacks : list.Lacks never) {addr : Addr} {f : Instance → Instance}
    (keeps : ∀ inst, inst.hdr.opcode ≠ never → (f inst).hdr.opcode ≠ never) :
    (list.modify addr f).Lacks never := by
  intro inst allots
  obtain ⟨old, held, rfl | rfl⟩ := allots_modify allots
  · exact lacks inst held
  · exact keeps old (lacks old held)

/-- An instance of a free number may be inserted. -/
theorem insert (lacks : list.Lacks never) (wf : list.WellFormed) {fresh : Instance}
    (free : ∀ cell ∈ list.cells, cell.inum ≠ fresh.hdr.inum)
    (other : fresh.hdr.opcode ≠ never) : (list.insert fresh).Lacks never := by
  intro inst allots
  rcases wf.allots_insert free allots with rfl | held
  · exact other
  · exact lacks inst held

end Ilist.Lacks

variable {start node next : Node} {event : Event}

/-- A session with the same log. -/
theorem Ilist.Lacks.congr (lacks : node.pax.ilist.Lacks never)
    (same : next.pax.ilist = node.pax.ilist) : next.pax.ilist.Lacks never := by
  rw [same]
  exact lacks

/-- A decree is announced as one. -/
theorem announceDecree_lacks {inst : Instance} (unwritten : Unwritten start.pax event never)
    (lacks : node.pax.ilist.Lacks never) (wf : node.pax.ilist.WellFormed) :
    (announceDecree node inst).pax.ilist.Lacks never := by
  show (instanceInsertAndUpstart node (decreeOf node.pax inst)).pax.ilist.Lacks never
  rw [instanceInsertAndUpstart_ilist]
  exact lacks.insert wf (decreeOf_free wf inst) unwritten.decree

/-- What may be done from within a learn gives no instance the opcode. -/
theorem Nest.lacks (act : Nest start event node next) (unwritten : Unwritten start.pax event never)
    (wf : node.pax.ilist.WellFormed)
    (lacks : node.pax.ilist.Lacks never) : next.pax.ilist.Lacks never := by
  have done : ∀ addr, (finishCommit node addr).pax.ilist.Lacks never := fun addr =>
    (lacks.modify (f := markCommitted) fun _ => id).modify (f := markCached) fun _ => id
  -- Commits write the marks, and a decree writes the opcode of a decree.
  cases act with
  | outer outer => exact outer.ilist ▸ lacks
  | defer prior => exact prior.ilist ▸ lacks
  | decree prior => exact announceDecree_lacks unwritten (prior.ilist ▸ lacks) (prior.ilist ▸ wf)
  | announce => exact lacks.modify fun _ _ => unwritten.commit
  | commit => exact lacks.modify (f := markCommitted) fun _ => id
  | cache => exact done _
  | aim => exact done _
  | prepare => exact lacks

/-- What belongs to a learning loop gives no instance the opcode. -/
theorem Inner.lacks {config after : Config} (move : Inner start event config after)
    (unwritten : Unwritten start.pax event never) (wf : config.node.pax.ilist.WellFormed)
    (lacks : config.node.pax.ilist.Lacks never) :
    after.node.pax.ilist.Lacks never := by
  -- A learn writes a mark, and the nested moves are covered.
  cases move with
  | nest _ act => exact act.lacks unwritten wf lacks
  | @learn node _ addr inst =>
    have core := learnt_core node addr inst (learnRequest node.pax inst.val)
    rw [show (learnt node addr inst (learnRequest node.pax inst.val)).pax.ilist = _ from
      congrArg Core.ilist core]
    exact lacks.modify (f := markLearned) fun _ => id
  | @delist node _ _ paxid => exact lacks.congr (congrArg Core.ilist (delist_core node paxid))
  | @depose node _ _ paxid _ _ _ replaces =>
    obtain ⟨_, _, _, same⟩ := replaces.eq
    rw [same]
    exact lacks.congr (congrArg Core.ilist (delist_core node paxid))
  | enter => exact lacks
  | next => exact lacks
  | last => exact lacks
  | gap => exact lacks
  | rest => exact lacks

/-- The scratch of a vote has the header of the vote. -/
theorem Unpacks.lacks {vote : PackedInstance} {addr : Addr} (unpacks : Unpacks vote node next addr)
    (other : vote.hdr.opcode ≠ never) (lacks : node.pax.ilist.Lacks never) :
    next.pax.ilist.Lacks never := by
  -- A scratch is a new instance, or one that is written over.
  cases unpacks with
  | fresh =>
    intro inst allots
    rcases Ilist.allots_alloc allots with rfl | held
    · exact other
    · exact lacks inst held
  | reused => exact lacks.modify fun _ _ => other

/-- A vote gives an instance its own header at most. -/
theorem VoteStep.lacks {vote : PackedInstance} (step : VoteStep vote node next)
    (other : vote.hdr.opcode ≠ never) (lacks : node.pax.ilist.Lacks never) :
    next.pax.ilist.Lacks never := by
  -- The vote is linked or swapped in, or nothing is written.
  cases step with
  | keep unpacks => exact unpacks.lacks other lacks
  | link unpacks =>
    intro inst allots
    rw [linkScratch_ilist] at allots
    rcases Ilist.allots_insertAfter allots with rfl | held
    · exact other
    · exact unpacks.lacks other lacks inst held
  | swap unpacks mem =>
    intro inst allots
    rcases Ilist.allots_swap mem allots with rfl | held
    · exact other
    · exact unpacks.lacks other lacks inst held

/-- The votes of a promise give instances their own headers at most. -/
theorem Merges.lacks {votes : List PackedInstance} (merges : Merges node votes next)
    (others : ∀ vote ∈ votes, vote.hdr.opcode ≠ never) (lacks : node.pax.ilist.Lacks never) :
    next.pax.ilist.Lacks never := by
  induction merges with
  | nil => exact lacks
  | cons step _ ih =>
    exact ih (fun vote mem => others vote (List.mem_cons_of_mem _ mem))
      (step.lacks (others _ List.mem_cons_self) lacks)

/-- An accepted decree stays one. -/
theorem Stores.lacks {hdr : Header} {val : Value} (stores : Stores hdr val node next)
    (opcode : hdr.opcode = .decree) (unwritten : Unwritten start.pax event never)
    (wf : node.pax.ilist.WellFormed) (lacks : node.pax.ilist.Lacks never) :
    next.pax.ilist.Lacks never := by
  have other : hdr.opcode ≠ never := opcode ▸ unwritten.decree
  -- By how the decree is stored.
  cases stores with
  | fresh absent =>
    rw [instanceInsertAndUpstart_ilist]
    exact lacks.insert wf (wf.find_eq_none.mp absent) other
  | held => exact lacks
  | adopted => exact lacks.modify fun _ _ => other

/-- Moves of the handler itself give no instance the opcode. -/
theorem Top.lacks (act : Top start event node next) (unwritten : Unwritten start.pax event never)
    (wf : node.pax.ilist.WellFormed) (lacks : node.pax.ilist.Lacks never)
    (brings : event.Lacks never) : next.pax.ilist.Lacks never := by
  -- What is stored has the opcode of its message, and what is decreed anew that of a decree.
  cases act with
  | beside prior => exact prior.ilist ▸ lacks
  | @depose _ mid _ closed prior _ _ replaces =>
    have core : mid.pax.core = node.pax.core := prior.core.trans closed.core.symm
    obtain ⟨_, _, _, same⟩ := replaces.eq
    rw [same]
    exact lacks.congr (congrArg Core.ilist core)
  | promise =>
    rw [acceptorPromise_pax]
    exact lacks
  | store _ opcode _ _ stores => exact stores.lacks opcode unwritten wf lacks
  | accept _ opcode _ _ stores => exact stores.lacks opcode unwritten wf lacks
  | @commitFresh _ hdr val _ opcode _ absent =>
    rw [instanceInsertAndUpstart_ilist]
    refine lacks.insert wf (wf.find_eq_none.mp absent) ?_
    rcases opcode with opcode | opcode
    · exact opcode ▸ unwritten.commit
    · exact opcode ▸ unwritten.recommit
  | commitOver => exact lacks.modify fun _ => id
  | recommitOver _ opcode => exact lacks.modify fun _ _ => opcode ▸ unwritten.recommit
  | vote => exact lacks.modify (f := countVote) fun _ => id
  | reject => exact lacks.modify (f := countReject) fun _ => id
  | rebroadcast => exact lacks
  | @rewrite _ inum acc chan =>
    refine lacks.modify (f := redecreeRejected chan) fun inst other => ?_
    unfold redecreeRejected
    split
    · exact unwritten.decree
    · exact other
  | @merge source hdr count votes _ _ _ asked _ _ _ _ before merges =>
    refine merges.lacks (fun vote mem => ?_) lacks
    exact (brings source _ asked).votes count votes rfl vote (before.subset mem)
  | ack => exact lacks
  | win => exact lacks
  | fill _ _ _ _ _ _ _ _ completes =>
    refine Ilist.Lacks.modify (f := redecreed _) ?_ fun _ _ => unwritten.decree
    intro inst allots
    unfold fillNull at allots
    rw [linkScratch_ilist] at allots
    rcases Ilist.allots_insertAfter allots with rfl | allots
    · exact unwritten.filled completes
    · rcases Ilist.allots_alloc allots with rfl | held
      · exact unwritten.filled completes
      · exact lacks inst held
  | redecree =>
    exact lacks.modify (f := redecreed _) fun _ _ => unwritten.decree
  | settle => exact lacks
  | @undefer _ _ rest => exact announceDecree_lacks unwritten lacks wf
  | redirect => exact lacks
  | rebegin => exact lacks
  | @yieldRedirect mid acc _ prior =>
    obtain ⟨_, same⟩ := yieldTo_writes mid acc
    rw [same]
    exact prior.ilist ▸ lacks
  | @yieldRefuse mid _ acc _ prior =>
    obtain ⟨_, same⟩ := yieldTo_writes mid acc
    rw [same]
    exact prior.ilist ▸ lacks
  | helloYield prior =>
    have kept : ∀ {mid : Node}, mid.pax.ilist = start.pax.ilist → mid.pax.ilist.Lacks never :=
      fun same => same ▸ lacks
    refine kept (Eq.trans ?_ prior.ilist)
    show (Node.pax (if _ then _ else _)).ilist = _
    split <;> rfl
  | helloBallot => exact lacks
  | truncate => exact fun inst allots => lacks inst (Ilist.allots_dropBelow allots)
  | recommit => exact lacks
  | welcome => exact lacks

/-- No move gives an instance the opcode. -/
theorem Move.lacks {config after : Config} (move : Move start event config after)
    (unwritten : Unwritten start.pax event never) (wf : config.node.pax.ilist.WellFormed)
    (lacks : config.node.pax.ilist.Lacks never) (brings : event.Lacks never) :
    after.node.pax.ilist.Lacks never := by
  cases move with
  | top act => exact act.lacks unwritten wf lacks brings
  | inner move => exact move.lacks unwritten wf lacks

/-- A message that concerns nothing of the log carries no instance. -/
theorem Msg.side_lacks {msg : Msg} (side : msg.side = true) : msg.Lacks never := by
  have known := Msg.side_opcode side
  simp only [Msg.side, Bool.and_eq_true] at side
  constructor
  · intro count votes body
    -- By the opcode, of which only those with a decree carry instances.
    cases opcode : msg.hdr.opcode <;> simp [opcode, body, Opcode.side, shaped] at known side
  · intro session ibase alist ilist body
    cases opcode : msg.hdr.opcode <;> simp [opcode, body, Opcode.side, shaped] at known side

/-- Whatever a handler sends, it sends from a log without the opcode. -/
theorem Handles.tells_lacks {result : Result} (handles : Handles node event result)
    (unwritten : Unwritten node.pax event never) (wf : node.pax.ilist.WellFormed)
    (lacks : node.pax.ilist.Lacks never) (brings : event.Lacks never) {peer : PeerId} {msg : Msg}
    (sent : .send peer msg ∈ fresh node result) :
    ∃ script before after made, before.pax.ilist.Lacks never ∧ after.pax.ilist.Lacks never ∧
      Tells { node with script := script } event made before after (.send peer msg) := by
  -- The last move before the effect was made from a log that lacks the opcode.
  obtain ⟨script, config, wfMid, kept, ⟨after, made, move, tells⟩ | teaches⟩ :=
    @Handles.tells node event result (fun config => config.node.pax.ilist.Lacks never) handles wf
      (fun _ => lacks) (fun move wf lacks => move.lacks unwritten wf lacks brings) _ sent
  · exact ⟨script, config.node, after.node, made, kept, move.lacks unwritten wfMid kept brings,
      tells⟩
  · contradiction

/-- What a move sends carries no instance with the opcode, if none was in the log. -/
theorem Tells.lacks {made : List Request} {peer : PeerId} {msg : Msg}
    (tells : Tells start event made node next (.send peer msg))
    (held : node.pax.ilist.Lacks never) : msg.Lacks never := by
  -- A promise and a welcome carry the log; the other messages carry no instances.
  cases tells with
  | side side =>
    cases side with
    | send _ _ side => exact Msg.side_lacks side
    | hello =>
      constructor
      · intro _ _ body
        contradiction
      · intro _ _ _ _ body
        contradiction
  | @promise _ hdr _ count votes _ _ _ _ first packed =>
    constructor
    · rintro _ _ ⟨⟩ vote mem
      obtain ⟨cell, memCell, rfl⟩ := List.mem_map.mp mem
      have suffix := promiseVotes_suffix start.pax.ilist hdr.inum
      rw [packed] at suffix
      rw [first] at held
      exact held _ (Ilist.allots_of_mem (suffix.subset memCell))
    · intro _ _ _ _ body
      contradiction
  | welcome =>
    constructor
    · intro _ _ body
      contradiction
    · rintro _ _ _ _ ⟨⟩ packed mem
      obtain ⟨cell, memCell, rfl⟩ := List.mem_map.mp mem
      exact held _ (Ilist.allots_of_mem memCell)
  | _ =>
    constructor
    · intro _ _ body
      contradiction
    · intro _ _ _ _ body
      contradiction

/-- What a session sends carries no instance with the opcode. -/
theorem Handles.sends_lacks {result : Result} (handles : Handles node event result)
    (unwritten : Unwritten node.pax event never) (wf : node.pax.ilist.WellFormed)
    (lacks : node.pax.ilist.Lacks never) (brings : event.Lacks never) {peer : PeerId} {msg : Msg}
    (sent : .send peer msg ∈ fresh node result) : msg.Lacks never := by
  obtain ⟨script, before, after, made, held, -, tells⟩ :=
    handles.tells_lacks unwritten wf lacks brings sent
  exact tells.lacks held

/-- No handler gives an instance the opcode. -/
theorem Handles.lacks (handles : Handles node event (.ok next))
    (unwritten : Unwritten node.pax event never) (wf : node.pax.ilist.WellFormed)
    (lacks : node.pax.ilist.Lacks never) (brings : event.Lacks never) :
    next.pax.ilist.Lacks never :=
  (@Handles.invariant _ _ _ (fun config => config.node.pax.ilist.Lacks never) handles wf
    (fun _ => lacks) fun move wf lacks => move.lacks unwritten wf lacks brings).1 next rfl

/-- A newcomer unpacks the log of its welcome. -/
theorem Welcome.lacks (welcome : Welcome)
    (lacks : ∀ packed ∈ welcome.ilist, packed.hdr.opcode ≠ never) :
    welcome.node.pax.ilist.Lacks never := by
  -- The scan of the welcome marks what it has learned, and writes no opcode.
  obtain ⟨run, rest, whole, -, cells, -⟩ := welcome.scan
  have unpacked : ∀ cell ∈ run ++ rest, cell.inst.hdr.opcode ≠ never := by
    intro cell mem
    obtain ⟨-, -, packed, listed, same⟩ := mem_welcomeCells (whole ▸ mem)
    rw [same]
    exact lacks packed listed
  rintro inst (⟨cell, mem, rfl⟩ | ⟨gone, mem, -⟩)
  · rw [cells] at mem
    rcases List.mem_append.mp mem with mem | mem
    · obtain ⟨prior, memRun, rfl⟩ := List.mem_map.mp mem
      exact unpacked prior (List.mem_append_left _ memRun)
    · exact unpacked cell (List.mem_append_right _ mem)
  · exact absurd mem List.not_mem_nil

end Motmot
