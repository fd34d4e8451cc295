import Motmot.Proofs.Paxos.Runs

/-! What a session has decrees of, and where each of them comes from. -/

namespace Motmot

/-- A decree of a value under a number, whatever ballot it was made under. -/
structure Decree where
  inum : Nat
  val : Value

/-- What an instance decrees. -/
def Instance.decree (inst : Instance) : Decree :=
  { inum := inst.hdr.inum, val := inst.val }

/-- What a packed instance decrees. -/
def PackedInstance.decree (packed : PackedInstance) : Decree :=
  { inum := packed.hdr.inum, val := packed.val }

/-- A message tells of a decree. -/
def Msg.Carries (msg : Msg) (decree : Decree) : Prop :=
  (∃ val, msg.body = .value val ∧ (msg.hdr.opcode = .decree ∨ msg.hdr.opcode = .commit ∨
      msg.hdr.opcode = .recommit) ∧ decree = ⟨msg.hdr.inum, val⟩) ∨
    (∃ count votes, msg.body = .votes count votes ∧ msg.hdr.opcode = .promise ∧
      ∃ vote ∈ votes, decree = vote.decree) ∨
      ∃ session ibase alist ilist, msg.body = .welcome session ibase alist ilist ∧
        msg.hdr.opcode = .welcome ∧ ∃ packed ∈ ilist, decree = packed.decree

namespace Ilist

variable {list : Ilist}

/-- An instance is allocated, on the list or beside it. -/
def Allots (list : Ilist) (inst : Instance) : Prop :=
  (∃ cell ∈ list.cells, cell.inst = inst) ∨ ∃ gone ∈ list.limbo, gone.cell.inst = inst

/-- The elements of a list are allocated. -/
theorem allots_of_mem {cell : Cell} (mem : cell ∈ list.cells) : list.Allots cell.inst :=
  Or.inl ⟨cell, mem, rfl⟩

/-- What is found at an address is allocated. -/
theorem allots_of_inst? {addr : Addr} {inst : Instance} (held : list.inst? addr = some inst) :
    list.Allots inst := by
  -- The address is that of an element, or of an instance off the list.
  unfold inst? at held
  split at held
  · rename_i cell found
    obtain rfl := Option.some.inj held
    exact allots_of_mem (List.mem_of_find?_eq_some found)
  · obtain ⟨gone, found, rfl⟩ := Option.map_eq_some_iff.mp held
    exact Or.inr ⟨gone, List.mem_of_find?_eq_some found, rfl⟩

/-- A write rewrites what is allocated, or leaves it. -/
theorem allots_modify {addr : Addr} {f : Instance → Instance} {inst : Instance}
    (keeps : (list.modify addr f).Allots inst) :
    ∃ old, list.Allots old ∧ (inst = old ∨ inst = f old) := by
  -- What is allocated is listed or in limbo, and the write maps both.
  rcases keeps with ⟨cell, mem, rfl⟩ | ⟨gone, mem, rfl⟩
  · obtain ⟨old, memOld, rfl⟩ := List.mem_map.mp mem
    refine ⟨old.inst, allots_of_mem memOld, ?_⟩
    split
    · exact Or.inr rfl
    · exact Or.inl rfl
  · obtain ⟨old, memOld, rfl⟩ := List.mem_map.mp mem
    refine ⟨old.cell.inst, Or.inr ⟨old, memOld, rfl⟩, ?_⟩
    split
    · exact Or.inr rfl
    · exact Or.inl rfl

/-- A write through the address of an element rewrites that element and nothing else. -/
theorem WellFormed.allots_modify (wf : list.WellFormed) {cell : Cell} (mem : cell ∈ list.cells)
    {f : Instance → Instance} {inst : Instance} (keeps : (list.modify cell.addr f).Allots inst) :
    inst = f cell.inst ∨ list.Allots inst := by
  -- What is allocated afterwards is on the list, or off it and not written to.
  rcases keeps with ⟨other, memOther, rfl⟩ | ⟨gone, memGone, rfl⟩
  · rcases (wf.mem_modify_linked mem f).mp memOther with rfl | ⟨memOther, -⟩
    · exact Or.inl rfl
    · exact Or.inr (allots_of_mem memOther)
  · rw [modify_limbo f fun gone memGone => (wf.apart cell mem gone memGone).symm] at memGone
    exact Or.inr (Or.inr ⟨gone, memGone, rfl⟩)

/-- An allocation outside the list is the only new one. -/
theorem allots_alloc {fresh inst : Instance} (keeps : (list.alloc fresh).Allots inst) :
    inst = fresh ∨ list.Allots inst := by
  rcases keeps with ⟨cell, mem, rfl⟩ | ⟨gone, mem, rfl⟩
  · exact Or.inr (allots_of_mem mem)
  · rcases List.mem_cons.mp mem with rfl | mem
    · exact Or.inl rfl
    · exact Or.inr (Or.inr ⟨gone, mem, rfl⟩)

/-- An insertion of a free number adds one instance. -/
theorem WellFormed.allots_insert (wf : list.WellFormed) {fresh inst : Instance}
    (free : ∀ cell ∈ list.cells, cell.inum ≠ fresh.hdr.inum)
    (keeps : (list.insert fresh).Allots inst) : inst = fresh ∨ list.Allots inst := by
  -- What is allocated afterwards is on the list, or off it as before.
  rcases keeps with ⟨cell, mem, rfl⟩ | ⟨gone, mem, rfl⟩
  · rcases (wf.mem_insert free).mp mem with rfl | mem
    · exact Or.inl rfl
    · exact Or.inr (allots_of_mem mem)
  · obtain ⟨_, _, _, made, -⟩ := wf.insert_split free
    rw [made] at mem
    exact Or.inr (Or.inr ⟨gone, mem, rfl⟩)

/-- A link moves an instance into the list. -/
theorem allots_insertAfter {place : Addr} {cell : Cell} {inst : Instance}
    (keeps : (list.insertAfter place cell).Allots inst) : inst = cell.inst ∨ list.Allots inst := by
  -- An element is followed by the new one or not; the rest was there.
  rcases keeps with ⟨other, mem, rfl⟩ | ⟨gone, mem, rfl⟩
  · obtain ⟨head, memHead, mem⟩ := List.mem_flatMap.mp mem
    split at mem
    · rcases List.mem_cons.mp mem with rfl | mem
      · exact Or.inr (allots_of_mem memHead)
      · obtain rfl := List.mem_singleton.mp mem
        exact Or.inl rfl
    · obtain rfl := List.mem_singleton.mp mem
      exact Or.inr (allots_of_mem memHead)
  · exact Or.inr (Or.inr ⟨gone, (List.mem_filter.mp mem).1, rfl⟩)

/-- A swap moves one instance in and another one out. -/
theorem allots_swap {out cell : Cell} {inst : Instance} (mem : out ∈ list.cells)
    (keeps : (list.swap out cell).Allots inst) : inst = cell.inst ∨ list.Allots inst := by
  -- The old instance goes where the new one came from.
  rcases keeps with ⟨other, memOther, rfl⟩ | ⟨gone, memGone, rfl⟩
  · obtain ⟨old, memOld, rfl⟩ := List.mem_map.mp memOther
    split
    · exact Or.inl rfl
    · exact Or.inr (allots_of_mem memOld)
  · rcases List.mem_cons.mp memGone with rfl | memGone
    · exact Or.inr (allots_of_mem mem)
    · exact Or.inr (Or.inr ⟨gone, (List.mem_filter.mp memGone).1, rfl⟩)

/-- A truncation adds nothing. -/
theorem allots_dropBelow {inum : Nat} {inst : Instance}
    (keeps : (list.dropBelow inum).Allots inst) : list.Allots inst := by
  rcases keeps with ⟨cell, mem, rfl⟩ | ⟨gone, mem, rfl⟩
  · exact allots_of_mem ((List.dropWhile_suffix _).subset mem)
  · exact Or.inr ⟨gone, mem, rfl⟩

/-- The list has a decree of a value. -/
def Stocks (list : Ilist) (decree : Decree) : Prop := ∃ inst, list.Allots inst ∧
    inst.decree = decree

/-- Writes that keep the decrees of instances add none. -/
theorem stocks_modify {addr : Addr} (f : Instance → Instance) {decree : Decree}
    (same : ∀ inst, (f inst).decree = inst.decree) (stocks : (list.modify addr f).Stocks decree) :
    list.Stocks decree := by
  obtain ⟨inst, keeps, rfl⟩ := stocks
  obtain ⟨old, held, rfl | rfl⟩ := allots_modify keeps
  · exact ⟨inst, held, rfl⟩
  · exact ⟨old, held, (same old).symm⟩

end Ilist

variable {start : Node} {event : Event}

/-- Events that put a null in a gap, or in the place of a part that was rejected. -/
def Nullifies (pax : Session) (event : Event) : Prop :=
  (∃ prep, Completes pax event prep) ∨
    ∃ inum acc peer, Continues pax event (.ackReject inum) acc (some peer)

/-- A decree that is not new, or that says nothing. -/
def Known (start : Node) (event : Event) (before : Node) (decree : Decree) : Prop :=
  before.pax.ilist.Stocks decree ∨
    (∃ source msg, event = .message source msg ∧ msg.Carries decree) ∨
      decree.val.dkind = .null ∧ Nullifies start.pax event

/-- A move that makes no request a decree of a new number. -/
structure Idle (start : Node) (event : Event) (before after : Node) : Prop where
  self : after.pax.selfId = before.pax.selfId
  counted : before.pax.reqId ≤ after.pax.reqId
  waiting : after.pax.idefer = before.pax.idefer ∨ after.pax.idefer = []
  stock : ∀ decree, after.pax.ilist.Stocks decree → Known start event before decree

/-- What a move makes of the requests that are decreed, or wait to be. -/
inductive Asks (start : Node) (event : Event) (before : Node) : Node → Prop where
  | idle {after} (idle : Idle start event before after) : Asks start event before after
  | deferred {mid inst} (prior : Outer start event before mid)
      (preparing : mid.pax.prep.isSome = true) (wish : Wish start event before mid inst.val) :
      Asks start event before (mid.setIdefer (mid.pax.idefer ++ [inst]))
  | decreed {mid inst} (prior : Outer start event before mid) (prepared : mid.pax.prep = none)
      (rightful : isProposer mid.pax = true ∨ mid.pax.core = start.pax.core ∧
        ∃ acc, Continues start.pax event .welcome acc none)
      (wish : Wish start event before mid inst.val) :
      Asks start event before (announceDecree mid inst)
  | undeferred {inst rest} (deferred : before.pax.idefer = inst :: rest)
      (completes : ∃ prep, Completes start.pax event prep) :
      Asks start event before (announceDecree (before.setIdefer rest) inst)

variable {node next : Node} {decree : Decree}

/-- A move that leaves the log, and what waits, where they are. -/
theorem Idle.still (self : next.pax.selfId = node.pax.selfId)
    (counted : node.pax.reqId ≤ next.pax.reqId) (idefer : next.pax.idefer = node.pax.idefer)
    (ilist : next.pax.ilist = node.pax.ilist) : Idle start event node next where
  self := self
  counted := counted
  waiting := Or.inl idefer
  stock := fun _ stocks => Or.inl (ilist ▸ stocks)

/-- What happens beside the log makes no decrees. -/
theorem Beside.idle (beside : Beside start event node next) : Idle start event node next :=
  .still (congrArg Core.selfId beside.core) beside.counted (congrArg Core.idefer beside.core)
    beside.ilist

/-- A write through an address that keeps the decree makes none. -/
theorem Idle.modify {addr : Addr} (f : Instance → Instance)
    (same : ∀ inst, (f inst).decree = inst.decree) (self : next.pax.selfId = node.pax.selfId)
    (counted : node.pax.reqId ≤ next.pax.reqId) (idefer : next.pax.idefer = node.pax.idefer)
    (ilist : next.pax.ilist = node.pax.ilist.modify addr f) : Idle start event node next where
  self := self
  counted := counted
  waiting := Or.inl idefer
  stock := fun _ stocks => Or.inl (Ilist.stocks_modify f same (ilist ▸ stocks))

/-- The marks of a commit make no decree. -/
theorem finishCommit_idle {addr : Addr} (self : next.pax.selfId = node.pax.selfId)
    (counted : node.pax.reqId ≤ next.pax.reqId) (idefer : next.pax.idefer = node.pax.idefer)
    (ilist : next.pax.ilist = (finishCommit node addr).pax.ilist) : Idle start event node next where
  self := self
  counted := counted
  waiting := Or.inl idefer
  stock := fun _ stocks => Or.inl (Ilist.stocks_modify markCommitted (fun _ => rfl)
    (Ilist.stocks_modify markCached (fun _ => rfl) (ilist ▸ stocks)))

/-- A decree that is announced is the only new one. -/
theorem announceDecree_stock {inst : Instance} (wf : node.pax.ilist.WellFormed)
    (stocks : (announceDecree node inst).pax.ilist.Stocks decree) :
    decree = ⟨nextInstance node.pax, inst.val⟩ ∨ node.pax.ilist.Stocks decree := by
  obtain ⟨other, keeps, rfl⟩ := stocks
  have keeps : (instanceInsertAndUpstart node (decreeOf node.pax inst)).pax.ilist.Allots other :=
    keeps
  rw [instanceInsertAndUpstart_ilist] at keeps
  -- The new decree is free when it is inserted.
  rcases wf.allots_insert (decreeOf_free wf inst) keeps with rfl | keeps
  · exact Or.inl rfl
  · exact Or.inr ⟨other, keeps, rfl⟩

@[simp] theorem enlist_reqId (node : Node) (inum : Nat) (req : Request) :
    (enlist node inum req).pax.reqId = node.pax.reqId := by
  unfold enlist
  cases acceptorFind node.pax.adefer inum <;> rfl

@[simp] theorem learnt_reqId (node : Node) (addr : Addr) (inst : Instance)
    (req : Option Request) : (learnt node addr inst req).pax.reqId = node.pax.reqId := by
  unfold learnt
  split
  · exact enlist_reqId _ _ _
  · rfl

@[simp] theorem delist_reqId (node : Node) (paxid : Nat) :
    (delist node paxid).pax.reqId = node.pax.reqId := by
  -- The part asks for nothing.
  have kept : ∀ (node : Node) (count : Nat), (node.setLiveCount count).pax.reqId = node.pax.reqId :=
    fun _ _ => rfl
  unfold delist
  split
  · rw [kept]
    rfl
  · rfl

/-- What may be done from within a learn asks for what is wished for, and nothing else. -/
theorem Nest.asks (act : Nest start event node next) : Asks start event node next := by
  -- By the move, of which only the decree is new.
  cases act with
  | outer outer => exact .idle outer.toBeside.idle
  | defer prior preparing wish => exact .deferred prior preparing wish
  | decree prior prepared rightful wish => exact .decreed prior prepared rightful wish
  | announce => exact .idle (.modify markCommit (fun _ => rfl) rfl (Nat.le_refl _) rfl rfl)
  | commit => exact .idle (.modify markCommitted (fun _ => rfl) rfl (Nat.le_refl _) rfl rfl)
  | cache => exact .idle (finishCommit_idle rfl (Nat.le_refl _) rfl rfl)
  | aim => exact .idle (finishCommit_idle rfl (Nat.le_refl _) rfl rfl)
  | prepare => exact .idle (.still rfl (Nat.le_refl _) rfl rfl)

/-- What belongs to a learning loop asks for nothing else either. -/
theorem Inner.asks {config after : Config} (move : Inner start event config after) :
    Asks start event config.node after.node := by
  -- A learn, a delisting and the steps of the loop write no decree.
  cases move with
  | nest _ act => exact act.asks
  | @learn node _ addr inst =>
    have core := learnt_core node addr inst (learnRequest node.pax inst.val)
    refine .idle (.modify markLearned (fun _ => rfl) (congrArg Core.selfId core) ?_
      (congrArg Core.idefer core) (congrArg Core.ilist core))
    exact Nat.le_of_eq (learnt_reqId node addr inst _).symm
  | @delist node _ _ paxid =>
    have core := delist_core node paxid
    refine .idle (.still (congrArg Core.selfId core) ?_ (congrArg Core.idefer core)
      (congrArg Core.ilist core))
    exact Nat.le_of_eq (delist_reqId node paxid).symm
  | @depose node _ _ paxid _ _ _ replaces =>
    have core := delist_core node paxid
    obtain ⟨_, _, _, same⟩ := replaces.eq
    rw [same]
    refine .idle (.still (congrArg Core.selfId core) ?_ (congrArg Core.idefer core)
      (congrArg Core.ilist core))
    exact Nat.le_of_eq (delist_reqId node paxid).symm
  | enter => exact .idle (.still rfl (Nat.le_refl _) rfl rfl)
  | next => exact .idle (.still rfl (Nat.le_refl _) rfl rfl)
  | last => exact .idle (.still rfl (Nat.le_refl _) rfl rfl)
  | gap => exact .idle (.still rfl (Nat.le_refl _) rfl rfl)
  | rest => exact .idle (.still rfl (Nat.le_refl _) rfl rfl)

/-- The scratch of a vote has the decree of the vote, and nothing else is new. -/
theorem Unpacks.stock {vote : PackedInstance} {mid : Node} {addr : Addr}
    (unpacks : Unpacks vote node mid addr) (stocks : mid.pax.ilist.Stocks decree) :
    decree = vote.decree ∨ node.pax.ilist.Stocks decree := by
  obtain ⟨inst, keeps, rfl⟩ := stocks
  cases unpacks with
  | fresh =>
    -- A fresh scratch has the decree of the vote.
    rcases Ilist.allots_alloc keeps with rfl | keeps
    · exact Or.inl rfl
    · exact Or.inr ⟨inst, keeps, rfl⟩
  | reused =>
    -- A scratch that is written over had a decree before.
    obtain ⟨old, held, rfl | rfl⟩ := Ilist.allots_modify keeps
    · exact Or.inr ⟨inst, held, rfl⟩
    · exact Or.inl rfl

/-- A vote adds no decree but its own. -/
theorem VoteStep.stock {vote : PackedInstance} (step : VoteStep vote node next)
    (stocks : next.pax.ilist.Stocks decree) :
    decree = vote.decree ∨ node.pax.ilist.Stocks decree := by
  -- A vote is linked, swapped in or lost; in each case the log gets nothing but the vote.
  cases step with
  | keep unpacks => exact unpacks.stock stocks
  | @link mid addr _ place _ unpacks =>
    obtain ⟨inst, keeps, rfl⟩ := stocks
    rw [linkScratch_ilist] at keeps
    rcases Ilist.allots_insertAfter keeps with rfl | keeps
    · exact Or.inl rfl
    · exact unpacks.stock ⟨inst, keeps, rfl⟩
  | swap unpacks mem =>
    obtain ⟨inst, keeps, rfl⟩ := stocks
    rcases Ilist.allots_swap mem keeps with rfl | keeps
    · exact Or.inl rfl
    · exact unpacks.stock ⟨inst, keeps, rfl⟩

/-- The votes of a promise add no decrees but their own. -/
theorem Merges.stock {votes : List PackedInstance} (merges : Merges node votes next)
    (stocks : next.pax.ilist.Stocks decree) :
    (∃ vote ∈ votes, decree = vote.decree) ∨ node.pax.ilist.Stocks decree := by
  -- By induction on the votes.
  induction merges with
  | nil => exact Or.inr stocks
  | cons step _ ih =>
    rcases ih stocks with ⟨vote, mem, same⟩ | stocks
    · exact Or.inl ⟨vote, List.mem_cons_of_mem _ mem, same⟩
    · exact (step.stock stocks).imp (fun same => ⟨_, List.mem_cons_self, same⟩) id

/-- An accepted decree adds nothing but itself. -/
theorem Stores.stock {hdr : Header} {val : Value} (stores : Stores hdr val node next)
    (wf : node.pax.ilist.WellFormed) (stocks : next.pax.ilist.Stocks decree) :
    decree = ⟨hdr.inum, val⟩ ∨ node.pax.ilist.Stocks decree := by
  -- An accepted decree is new, there already, or written over a vote of the same number.
  obtain ⟨inst, keeps, rfl⟩ := stocks
  cases stores with
  | fresh absent =>
    rw [instanceInsertAndUpstart_ilist] at keeps
    rcases wf.allots_insert (wf.find_eq_none.mp absent) keeps with rfl | keeps
    · exact Or.inl rfl
    · exact Or.inr ⟨inst, keeps, rfl⟩
  | held => exact Or.inr ⟨inst, keeps, rfl⟩
  | adopted =>
    obtain ⟨old, held, rfl | rfl⟩ := Ilist.allots_modify keeps
    · exact Or.inr ⟨inst, held, rfl⟩
    · exact Or.inl rfl

/-- A move that does nothing but write decrees of its message. -/
theorem Idle.brought (self : next.pax.selfId = node.pax.selfId)
    (counted : node.pax.reqId ≤ next.pax.reqId) (idefer : next.pax.idefer = node.pax.idefer)
    {source : PeerId} {msg : Msg} (asked : event = .message source msg)
    (stock : ∀ decree, next.pax.ilist.Stocks decree →
      node.pax.ilist.Stocks decree ∨ msg.Carries decree) : Idle start event node next where
  self := self
  counted := counted
  waiting := Or.inl idefer
  stock := fun decree stocks => (stock decree stocks).imp id
    fun carries => Or.inl ⟨source, msg, asked, carries⟩

/-- Whoever yields gives up what waits. -/
theorem yieldTo_idle {mid : Node} {acc : Acceptor} (prior : Beside start event node mid) :
    Idle start event node (yieldTo mid acc) := by
  obtain ⟨_, same⟩ := yieldTo_writes mid acc
  have idle := prior.idle
  rw [same]
  exact ⟨idle.self, idle.counted, Or.inr rfl, idle.stock⟩

/-- An accepted decree asks for nothing. -/
theorem Stores.idle {source : PeerId} {hdr : Header} {val : Value}
    (stores : Stores hdr val node next) (wf : node.pax.ilist.WellFormed)
    (asked : event = .message source ⟨hdr, .value val⟩) (opcode : hdr.opcode = .decree) :
    Idle start event node next := by
  obtain ⟨_, _, same⟩ := stores.eq
  refine .brought (by rw [same]) (Nat.le_of_eq (by rw [same]))
    (by rw [same]) asked fun decree stocks => ?_
  -- What is stored is the decree that came, or was there.
  rcases stores.stock wf stocks with rfl | stocks
  · exact Or.inr (Or.inl ⟨val, rfl, Or.inl opcode, rfl⟩)
  · exact Or.inl stocks

/-- Moves of the handler itself ask only for what was deferred, once a prepare is completed. -/
theorem Top.asks (act : Top start event node next) (wf : node.pax.ilist.WellFormed) :
    Asks start event node next := by
  -- Whatever enters the log comes from the message, from the prepare, or from what was deferred.
  cases act with
  | beside prior => exact .idle prior.toBeside.idle
  | @depose _ mid _ closed prior _ _ replaces counted =>
    have core : mid.pax.core = node.pax.core := prior.core.trans closed.core.symm
    obtain ⟨_, _, _, same⟩ := replaces.eq
    rw [same]
    exact .idle (.still (congrArg Core.selfId core) counted (congrArg Core.idefer core)
      (congrArg Core.ilist core))
  | promise =>
    have same := acceptorPromise_pax start
    refine .idle (.still ?_ ?_ ?_ ?_) <;> simp [same]
  | store asked opcode _ _ stores => exact .idle (stores.idle wf asked opcode)
  | @accept _ _ _ mid _ asked opcode _ _ stores =>
    obtain ⟨self, counted, waiting, stock⟩ := stores.idle wf asked opcode
    exact .idle ⟨self, counted, waiting, stock⟩
  -- A commit brings its own value.
  | @commitFresh _ hdr val asked opcode _ absent =>
    obtain ⟨_, _, same⟩ := instanceInsertAndUpstart_eq start (freshInstance hdr val)
    refine .idle (.brought (by rw [same]) (Nat.le_of_eq (by rw [same]))
      (by rw [same]) asked fun decree stocks => ?_)
    obtain ⟨inst, keeps, rfl⟩ := stocks
    rw [instanceInsertAndUpstart_ilist] at keeps
    rcases wf.allots_insert (wf.find_eq_none.mp absent) keeps with rfl | keeps
    · exact Or.inr (Or.inl ⟨val, rfl, Or.inr opcode, rfl⟩)
    · exact Or.inl ⟨inst, keeps, rfl⟩
  | @commitOver _ hdr val cell asked opcode _ found =>
    obtain ⟨mem, same⟩ := wf.find_eq_some.mp found
    refine .idle (.brought rfl (Nat.le_refl _) rfl asked fun decree stocks => ?_)
    obtain ⟨inst, keeps, rfl⟩ := stocks
    rcases wf.allots_modify mem keeps with rfl | keeps
    · refine Or.inr (Or.inl ⟨val, rfl, Or.inr (Or.inl opcode), ?_⟩)
      show (⟨cell.inum, val⟩ : Decree) = _
      rw [same]
    · exact Or.inl ⟨inst, keeps, rfl⟩
  | @recommitOver _ hdr val _ asked opcode =>
    refine .idle (.brought rfl (Nat.le_refl _) rfl asked fun decree stocks => ?_)
    obtain ⟨inst, keeps, rfl⟩ := stocks
    obtain ⟨old, held, rfl | rfl⟩ := Ilist.allots_modify keeps
    · exact Or.inl ⟨inst, held, rfl⟩
    · exact Or.inr (Or.inl ⟨val, rfl, Or.inr (Or.inr opcode), rfl⟩)
  | vote => exact .idle (.modify countVote (fun _ => rfl) rfl (Nat.le_refl _) rfl rfl)
  | reject => exact .idle (.modify countReject (fun _ => rfl) rfl (Nat.le_refl _) rfl rfl)
  | rebroadcast => exact .idle (.still rfl (Nat.le_refl _) rfl rfl)
  -- A rejected part is decreed again as a null, unless its originator is gone.
  | @rewrite _ inum acc chan _ _ continues =>
    refine .idle ⟨rfl, Nat.le_refl _, Or.inl rfl, fun decree stocks => ?_⟩
    obtain ⟨inst, keeps, rfl⟩ := stocks
    obtain ⟨old, held, rfl | rfl⟩ := Ilist.allots_modify keeps
    · exact Or.inl ⟨inst, held, rfl⟩
    · cases chan with
      | some peer => exact Or.inr (Or.inr ⟨rfl, Or.inr ⟨inum, acc, peer, continues⟩⟩)
      | none => exact Or.inl ⟨old, held, rfl⟩
  -- A promise brings its votes.
  | @merge source hdr count votes done _ _ asked opcode _ _ _ before merges =>
    obtain ⟨_, _, same⟩ := merges.eq
    refine .idle (.brought (by rw [same]) (Nat.le_of_eq (by rw [same]))
      (by rw [same]) asked fun decree stocks => ?_)
    rcases merges.stock stocks with ⟨vote, mem, same⟩ | stocks
    · exact Or.inr (Or.inr (Or.inl ⟨count, votes, rfl, opcode, vote, before.subset mem, same⟩))
    · exact Or.inl stocks
  | ack => exact .idle (.still rfl (Nat.le_refl _) rfl rfl)
  | win => exact .idle (.still rfl (Nat.le_refl _) rfl rfl)
  | @fill _ _ _ place _ inum _ _ _ _ _ _ _ _ completes =>
    obtain ⟨_, same⟩ := linkScratch_eq (node.bumpReqId.setIlist (node.bumpReqId.pax.ilist.alloc
      (nullInstance node.bumpReqId.pax inum))) place.addr
        ⟨nextAddr node.bumpReqId, nullInstance node.bumpReqId.pax inum⟩
    have filled : fillNull node place.addr inum = _ := same
    refine .idle ⟨congrArg (fun node => node.pax.selfId) filled, ?_,
      Or.inl (congrArg (fun node => node.pax.idefer) filled), fun decree stocks => ?_⟩
    · show node.pax.reqId ≤ (fillNull node place.addr inum).pax.reqId
      rw [filled]
      exact Nat.le_succ _
    · -- The null is linked in, and then made a decree of the current ballot.
      have stocks : (fillNull node place.addr inum).pax.ilist.Stocks decree :=
        Ilist.stocks_modify (redecreed _) (fun _ => rfl) stocks
      obtain ⟨inst, keeps, rfl⟩ := stocks
      unfold fillNull at keeps
      rw [linkScratch_ilist] at keeps
      rcases Ilist.allots_insertAfter keeps with rfl | keeps
      · exact Or.inr (Or.inr ⟨rfl, Or.inl completes⟩)
      · rcases Ilist.allots_alloc keeps with rfl | keeps
        · exact Or.inr (Or.inr ⟨rfl, Or.inl completes⟩)
        · exact Or.inl ⟨inst, keeps, rfl⟩
  | redecree => exact .idle (.modify (redecreed _) (fun _ => rfl) rfl (Nat.le_refl _) rfl rfl)
  | settle => exact .idle (.still rfl (Nat.le_refl _) rfl rfl)
  | undefer _ _ deferred completes => exact .undeferred deferred completes
  | redirect => exact .idle (.still rfl (Nat.le_refl _) rfl rfl)
  | rebegin => exact .idle (.still rfl (Nat.le_refl _) rfl rfl)
  | yieldRedirect prior => exact .idle (yieldTo_idle prior.toBeside)
  | yieldRefuse prior => exact .idle (yieldTo_idle prior.toBeside)
  | @helloYield mid _ hdr _ _ _ prior =>
    have same : ∀ {node : Node}, Idle start event start node → Idle start event start
        ((node.setProposer hdr.inum).setBallot hdr.ballot) :=
      fun idle => ⟨idle.self, idle.counted, idle.waiting, idle.stock⟩
    refine .idle (same ?_)
    have idle := prior.toBeside.idle
    split
    · exact ⟨idle.self, idle.counted, idle.waiting, idle.stock⟩
    · exact idle
  | helloBallot => exact .idle (.still rfl (Nat.le_refl _) rfl rfl)
  | truncate =>
    refine .idle ⟨rfl, Nat.le_refl _, Or.inl rfl, fun decree stocks => ?_⟩
    obtain ⟨inst, keeps, rfl⟩ := stocks
    exact Or.inl ⟨inst, Ilist.allots_dropBelow keeps, rfl⟩
  | recommit => exact .idle (.still rfl (Nat.le_refl _) rfl rfl)
  | welcome => exact .idle (.still rfl (Nat.le_refl _) rfl rfl)

/-- Every move asks for what may be asked for. -/
theorem Move.asks {config after : Config} (move : Move start event config after)
    (wf : config.node.pax.ilist.WellFormed) : Asks start event config.node after.node := by
  cases move with
  | top act => exact act.asks wf
  | inner move => exact move.asks

/-- An effect tells of a decree: it was learned, or it is sent. -/
def Effect.Discloses (effect : Effect) (decree : Decree) : Prop :=
  effect = .learn decree.inum decree.val ∨
    ∃ peer msg, effect = .send peer msg ∧ msg.Carries decree

/-- A message that concerns nothing of the log carries no decree. -/
theorem Msg.not_carries {msg : Msg} (side_ : msg.side = true) : ¬ msg.Carries decree := by
  have side := Msg.side_opcode side_
  rintro (⟨_, -, opcode | opcode | opcode, -⟩ | ⟨_, _, -, opcode, -⟩ | ⟨_, _, _, _, -, opcode, -⟩)
  all_goals
    rw [opcode] at side
    contradiction

/-- What a message with the value of an instance carries is what the instance decrees. -/
theorem Msg.carries_value {hdr : Header} {val : Value}
    (carries : Msg.Carries ⟨hdr, .value val⟩ decree) : decree = ⟨hdr.inum, val⟩ := by
  rcases carries with ⟨other, body, -, rfl⟩ | ⟨_, _, body, -⟩ | ⟨_, _, _, _, body, -⟩
  · obtain rfl := Body.value.inj body
    rfl
  · contradiction
  · contradiction

/-- What a move tells of is in the log, before the move or after it. -/
theorem Tells.discloses {before after : Node} {effect : Effect}
    {made : List Request} (tells : Tells start event made before after effect)
    (discloses : effect.Discloses decree) :
    before.pax.ilist.Stocks decree ∨ after.pax.ilist.Stocks decree := by
  -- Only learns say what was learned, and those are no such tellings.
  obtain ⟨peer, msg, rfl, carries⟩ : ∃ peer msg, effect = .send peer msg ∧ msg.Carries decree := by
    rcases discloses with rfl | sent
    · cases tells with
      | side side => cases side
    · exact sent
  -- Messages beside the log carry no decree; the others carry what the log has at their number.
  cases tells with
  | side side =>
    cases side with
    | send _ _ side => exact absurd carries (Msg.not_carries side)
    | hello =>
      rcases carries with ⟨_, body, _⟩ | ⟨_, _, body, _⟩ | ⟨_, _, _, _, body, _⟩ <;> cases body
  | @inst _ addr inst held =>
    right
    obtain rfl := Msg.carries_value carries
    exact ⟨inst, Ilist.allots_of_inst? held, rfl⟩
  | prepare =>
    rcases carries with ⟨_, body, -⟩ | ⟨_, _, body, -⟩ | ⟨_, _, _, _, body, -⟩ <;> contradiction
  -- What a promise packs is a suffix of the log.
  | @promise _ hdr _ count votes _ _ _ _ first packed =>
    left
    rcases carries with ⟨_, body, -⟩ | ⟨_, _, body, -, vote, mem, rfl⟩ | ⟨_, _, _, _, body, -⟩
    · contradiction
    · obtain ⟨-, rfl⟩ := Body.votes.inj body
      obtain ⟨cell, voted, rfl⟩ := List.mem_map.mp mem
      have suffix := promiseVotes_suffix start.pax.ilist hdr.inum
      rw [packed] at suffix
      rw [first]
      exact ⟨cell.inst, Ilist.allots_of_mem (suffix.subset voted), rfl⟩
    · contradiction
  | accept =>
    rcases carries with ⟨_, body, -⟩ | ⟨_, _, body, -⟩ | ⟨_, _, _, _, body, -⟩ <;> contradiction
  | @recommit _ hdr _ cell _ _ _ _ mem number =>
    right
    obtain rfl := Msg.carries_value carries
    refine ⟨cell.inst, Ilist.allots_of_mem mem, ?_⟩
    show (⟨cell.inum, cell.inst.val⟩ : Decree) = _
    rw [number]
  -- A welcome packs the whole log.
  | welcome =>
    left
    rcases carries with ⟨_, body, -⟩ | ⟨_, _, body, -⟩ | ⟨_, _, _, _, body, -, packed, mem, rfl⟩
    · contradiction
    · contradiction
    · obtain ⟨-, -, -, rfl⟩ := Body.welcome.inj body
      obtain ⟨cell, listed, rfl⟩ := List.mem_map.mp mem
      exact ⟨cell.inst, Ilist.allots_of_mem listed, rfl⟩

/-- A learn tells of the instance that the cursor is at. -/
theorem Teaches.discloses {before : Node} {effect : Effect} (teaches : Teaches before effect)
    (discloses : effect.Discloses decree) : before.pax.ilist.Stocks decree := by
  cases teaches with
  -- The learn quotes the instance; the callback of a chat quotes no instance.
  | @learn _ inst held =>
    rcases discloses with same | ⟨_, _, same, -⟩
    · obtain ⟨number, val⟩ := Effect.learn.inj same
      refine ⟨inst, Ilist.allots_of_inst? held, ?_⟩
      obtain ⟨inum, value⟩ := decree
      obtain rfl : inst.hdr.inum = inum := number
      obtain rfl : inst.val = value := val
      rfl
    · contradiction
  | chat => rcases discloses with same | ⟨_, _, same, -⟩ <;> contradiction

/-- Every move tells only of what it finds in the log, or puts there. -/
theorem Move.discloses {config after : Config} (move : Move start event config after)
    (wf : config.node.pax.ilist.WellFormed) :
    ∃ effects, after.node.out = config.node.out ++ effects ∧ ∀ effect ∈ effects, ∀ decree,
      effect.Discloses decree → config.node.pax.ilist.Stocks decree ∨
        after.node.pax.ilist.Stocks decree := by
  obtain ⟨_, effects, tale, tells⟩ := move.tells wf
  refine ⟨effects, tale.out, fun effect mem decree discloses => ?_⟩
  rcases tells effect mem with tells | teaches
  · exact tells.discloses discloses
  · exact Or.inl (teaches.discloses discloses)

end Motmot
