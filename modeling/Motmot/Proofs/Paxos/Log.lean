import Motmot.Proofs.Containers.Ilist
import Motmot.Proofs.Paxos.Moves

/-! Every move of a handler keeps the log well formed. -/

namespace Motmot

@[simp] theorem instanceInsertAndUpstart_ilist (node : Node) (inst : Instance) :
    (instanceInsertAndUpstart node inst).pax.ilist = node.pax.ilist.insert inst := by
  unfold instanceInsertAndUpstart
  split <;> rfl

@[simp] theorem linkScratch_ilist (node : Node) (place : Addr) (cell : Cell) :
    (linkScratch node place cell).pax.ilist = node.pax.ilist.insertAfter place cell := by
  unfold linkScratch
  split <;> rfl

@[simp] theorem resetProposer_ilist (node : Node) :
    (resetProposer node).pax.ilist = node.pax.ilist := by
  unfold resetProposer
  split <;> rfl

/-- Yielding gives up the prepare and what was deferred, and may change the proposer. -/
theorem yieldTo_writes (node : Node) (acc : Acceptor) : ∃ proposer, yieldTo node acc =
    { node with pax.prep := none, pax.idefer := [], pax.proposer := proposer } := by
  unfold yieldTo
  split
  · split <;> exact ⟨_, rfl⟩
  · exact ⟨_, rfl⟩

@[simp] theorem yieldTo_ilist (node : Node) (acc : Acceptor) :
    (yieldTo node acc).pax.ilist = node.pax.ilist := by
  obtain ⟨_, same⟩ := yieldTo_writes node acc
  rw [same]

@[simp] theorem delist_ilist (node : Node) (paxid : Nat) :
    (delist node paxid).pax.ilist = node.pax.ilist :=
  congrArg Core.ilist (delist_core node paxid)

@[simp] theorem enlist_ilist (node : Node) (inum : Nat) (req : Request) :
    (enlist node inum req).pax.ilist = node.pax.ilist :=
  congrArg Core.ilist (enlist_core node inum req)

/-- What a learn does at once marks the instance and nothing else of the core. -/
theorem learnt_core (node : Node) (addr : Addr) (inst : Instance) (req : Option Request) :
    (learnt node addr inst req).pax.core =
      { node.pax.core with ilist := node.pax.ilist.modify addr markLearned } := by
  unfold learnt
  split
  · rw [enlist_core]
    rfl
  · rfl

@[simp] theorem learnt_ilist (node : Node) (addr : Addr) (inst : Instance)
    (req : Option Request) :
    (learnt node addr inst req).pax.ilist = node.pax.ilist.modify addr markLearned := by
  unfold learnt
  split
  · rw [enlist_ilist]
    rfl
  · rfl

@[simp] theorem finishCommit_ilist (node : Node) (addr : Addr) :
    (finishCommit node addr).pax.ilist =
      (node.pax.ilist.modify addr markCommitted).modify addr markCached := rfl

@[simp] theorem paxosSend_pax (node : Node) (acc : Acceptor) (msg : Msg) :
    (paxosSend node acc msg).state.pax = node.pax := by
  unfold paxosSend
  split <;> rfl

@[simp] theorem paxosSendToProposer_pax (node : Node) (msg : Msg) :
    (paxosSendToProposer node msg).state.pax = node.pax := by
  -- Wherever the send goes, the session is as it was.
  unfold paxosSendToProposer
  split
  · rfl
  · split
    · exact paxosSend_pax node _ msg
    · rfl

/-- A promise moves the ballot and its generation. -/
theorem acceptorPromise_pax (node : Node) (hdr : Header) :
    (acceptorPromise node hdr).state.pax =
      { node.pax with ballot := hdr.ballot, genHigh := hdr.ballot.gen } := by
  unfold acceptorPromise
  exact paxosSendToProposer_pax _ _

/-- What happens beside the log leaves it alone. -/
theorem Beside.ilist {start : Node} {event : Event} {node next : Node}
    (outer : Beside start event node next) : next.pax.ilist = node.pax.ilist :=
  congrArg Core.ilist outer.core

/-- What happens beside the log keeps it well formed. -/
theorem Beside.wellFormed {start : Node} {event : Event} {node next : Node}
    (outer : Beside start event node next) (wf : node.pax.ilist.WellFormed) :
    next.pax.ilist.WellFormed := by
  rw [outer.ilist]
  exact wf

@[simp] theorem setLiveCount_out (node : Node) (count : Nat) :
    (node.setLiveCount count).out = node.out := rfl

@[simp] theorem setLiveCount_desk (node : Node) (count : Nat) :
    (node.setLiveCount count).pax.desk = node.pax.desk := rfl

@[simp] theorem delist_out (node : Node) (paxid : Nat) : (delist node paxid).out = node.out := by
  -- The part tells nobody anything.
  unfold delist
  simp only
  split
  · rw [setLiveCount_out]
    rfl
  · rfl

/-- An election changes nothing but the proposer. -/
theorem resetProposer_eq (node : Node) :
    ∃ proposer, resetProposer node = { node with pax.proposer := proposer } := by
  unfold resetProposer
  split
  · exact ⟨_, rfl⟩
  · exact ⟨node.pax.proposer, rfl⟩

/-- A core determines whether its session is a proposer. -/
theorem isProposer_congr {pax next : Session} (core : next.core = pax.core) :
    isProposer next = isProposer pax := by
  have proposer : next.proposer = pax.proposer := congrArg Core.proposer core
  have self : next.selfId = pax.selfId := congrArg Core.selfId core
  simp only [isProposer, proposer, self]

/-- An insertion changes nothing but the list and the cursor. -/
theorem instanceInsertAndUpstart_eq (node : Node) (inst : Instance) :
    ∃ ilist istart, instanceInsertAndUpstart node inst =
      { node with pax.ilist := ilist, pax.istart := istart } := by
  unfold instanceInsertAndUpstart
  simp only
  split
  · exact ⟨_, _, rfl⟩
  · exact ⟨_, node.pax.istart, rfl⟩

/-- The replacement of a proposer changes the proposer, and may begin a prepare. -/
theorem Replaces.eq {node next : Node} (replaces : Replaces node next) :
    ∃ proposer gen prep, next =
      { node with pax.proposer := proposer, pax.genHigh := gen, pax.prep := prep } := by
  -- Only the proposer, the mark and the prepare are written.
  obtain ⟨proposer, same⟩ := resetProposer_eq node
  cases replaces with
  | elect =>
    rw [same]
    exact ⟨proposer, node.pax.genHigh, node.pax.prep, rfl⟩
  | begin =>
    rw [same]
    exact ⟨proposer, _, _, rfl⟩

/-- The replacement of a proposer leaves the log alone. -/
theorem Replaces.ilist {node next : Node} (replaces : Replaces node next) :
    next.pax.ilist = node.pax.ilist := by
  obtain ⟨_, _, _, same⟩ := replaces.eq
  rw [same]

/-- The replacement of a proposer tells nothing. -/
theorem Replaces.out {node next : Node} (replaces : Replaces node next) : next.out = node.out := by
  obtain ⟨_, _, _, same⟩ := replaces.eq
  rw [same]

/-- The replacement of a proposer does not move the hole. -/
theorem Replaces.ihole {node next : Node} (replaces : Replaces node next) :
    next.pax.ihole = node.pax.ihole := by
  obtain ⟨_, _, _, same⟩ := replaces.eq
  rw [same]

/-- The next free number lies past every instance. -/
theorem lt_nextInstance {pax : Session} (wf : pax.ilist.WellFormed) {cell : Cell}
    (mem : cell ∈ pax.ilist.cells) : cell.inum < nextInstance pax := by
  -- The next number is one past that of the last element.
  have order := wf.ascending
  unfold nextInstance Ilist.last
  obtain ⟨front, final, whole⟩ : ∃ front final, pax.ilist.cells = front ++ [final] :=
    ⟨_, _, (List.dropLast_append_getLast (List.ne_nil_of_mem mem)).symm⟩
  rw [whole] at mem order ⊢
  simp only [List.getLast?_concat]
  -- The last element is the greatest.
  rcases List.mem_append.mp mem with before | last
  · have below : cell.inum < final.inum :=
      (List.pairwise_append.mp order).2.2 cell before final (by simp)
    omega
  · obtain rfl : cell = final := by simpa using last
    omega

/-- The number of a decree that is made now is free. -/
theorem decreeOf_free {pax : Session} (wf : pax.ilist.WellFormed) (inst : Instance) :
    ∀ cell ∈ pax.ilist.cells, cell.inum ≠ (decreeOf pax inst).hdr.inum :=
  fun _ mem => Nat.ne_of_lt (lt_nextInstance wf mem)

/-- Marking an element committed and then cached rewrites it once. -/
theorem mem_finishCommit {list : Ilist} (wf : list.WellFormed) {cell other : Cell}
    (mem : cell ∈ list.cells) :
    other ∈ ((list.modify cell.addr markCommitted).modify cell.addr markCached).cells ↔
      other = { cell with inst := markCached (markCommitted cell.inst) } ∨
        other ∈ list.cells ∧ other ≠ cell := by
  -- Both marks go to the same element, which its address tells from the others.
  simp only [Ilist.mem_modify]
  constructor
  · rintro ⟨mid, ⟨old, memOld, rfl⟩, rfl⟩
    by_cases same : old.addr = cell.addr
    · left
      obtain rfl : old = cell := wf.addr_inj memOld mem same
      simp
    · right
      simp only [same, if_false]
      exact ⟨memOld, fun equal => same (by rw [equal])⟩
  · rintro (rfl | ⟨memOther, differ⟩)
    · exact ⟨_, ⟨cell, mem, rfl⟩, by simp⟩
    · have apart : other.addr ≠ cell.addr :=
        fun same => differ (wf.addr_inj memOther mem same)
      exact ⟨other, ⟨other, memOther, if_neg apart⟩, if_neg apart⟩

section Writes

variable {node : Node} (wf : node.pax.ilist.WellFormed)
include wf

/-- Marking an element committed keeps the log well formed. -/
theorem modify_markCommitted_wellFormed {cell : Cell} (mem : cell ∈ node.pax.ilist.cells) :
    (node.modify cell.addr markCommitted).pax.ilist.WellFormed :=
  wf.modify_linked mem rfl fun learned => ⟨rfl, (wf.sound cell mem learned).2⟩

/-- Finishing a commit keeps the log well formed. -/
theorem finishCommit_wellFormed {cell : Cell} (mem : cell ∈ node.pax.ilist.cells) :
    (finishCommit node cell.addr).pax.ilist.WellFormed := by
  have marked := modify_markCommitted_wellFormed wf mem
  have still : { cell with inst := markCommitted cell.inst } ∈
      (node.modify cell.addr markCommitted).pax.ilist.cells :=
    (wf.mem_modify_linked mem _).mpr (Or.inl rfl)
  exact marked.modify_linked still rfl fun _ => ⟨rfl, rfl⟩

/-- A decree keeps the log well formed. -/
theorem announceDecree_wellFormed (inst : Instance) :
    (announceDecree node inst).pax.ilist.WellFormed := by
  show (instanceInsertAndUpstart node (decreeOf node.pax inst)).pax.ilist.WellFormed
  rw [instanceInsertAndUpstart_ilist]
  exact wf.insert (decreeOf_free wf inst) (by simp [decreeOf, instanceInitMetadata])

/-- Announcing a commit keeps the log well formed. -/
theorem announceCommit_wellFormed {cell : Cell} (mem : cell ∈ node.pax.ilist.cells) :
    (announceCommit node cell).pax.ilist.WellFormed := by
  show (node.pax.ilist.modify cell.addr markCommit).WellFormed
  exact wf.modify_linked mem rfl (wf.sound cell mem)

/-- Moves from within a learn keep the log well formed. -/
theorem Nest.wellFormed {start next : Node} {event : Event}
    (act : Nest start event node next) : next.pax.ilist.WellFormed := by
  -- By the move; only a decree inserts, and the others write one element.
  cases act with
  | outer outer => exact outer.wellFormed wf
  | defer prior => exact prior.wellFormed wf
  | decree prior => exact announceDecree_wellFormed (prior.wellFormed wf) _
  | announce mem => exact announceCommit_wellFormed wf mem
  | commit mem => exact modify_markCommitted_wellFormed wf mem
  | cache mem => exact finishCommit_wellFormed wf mem
  | aim mem => exact finishCommit_wellFormed wf mem
  | prepare => exact wf

end Writes

/-- Unpacking a vote leaves the list as it was, and the scratch outside it. -/
theorem Unpacks.spec {vote : PackedInstance} {node mid : Node} {addr : Addr}
    (unpacks : Unpacks vote node mid addr) (wf : node.pax.ilist.WellFormed) :
    mid.pax.ilist.WellFormed ∧ mid.pax.ilist.cells = node.pax.ilist.cells ∧
      mid.pax.ilist.onList addr = false ∧ addr < mid.pax.ilist.brk := by
  -- The scratch is a new allocation, or the spare one is written over.
  cases unpacks with
  | fresh =>
    refine ⟨wf.alloc rfl, rfl, ?_, Nat.lt_succ_self _⟩
    -- The next address is past every element's.
    by_contra on
    obtain ⟨cell, mem, same⟩ := Ilist.onList_iff.mp (by simpa using on)
    exact Nat.ne_of_lt (wf.linked cell mem) same
  -- The spare allocation is off the list, and a write leaves it there.
  | reused off bound =>
    have cells : (node.modify addr fun _ => voteInstance vote).pax.ilist.cells =
        node.pax.ilist.cells := Ilist.modify_cells _ off
    have wfMid : (node.pax.ilist.modify addr fun _ => voteInstance vote).WellFormed :=
      wf.modify_unlinked off fun _ _ => rfl
    refine ⟨wfMid, cells, ?_, bound⟩
    simpa only [Ilist.onList, cells] using off

/-- Whatever one vote does keeps the log well formed. -/
theorem VoteStep.wellFormed {vote : PackedInstance} {node next : Node}
    (step : VoteStep vote node next) (wf : node.pax.ilist.WellFormed) :
    next.pax.ilist.WellFormed := by
  -- The scratch is well formed by itself; it is linked or swapped in where it belongs.
  cases step with
  | keep unpacks => exact (unpacks.spec wf).1
  | link unpacks whole above below =>
    obtain ⟨wfMid, -, off, bound⟩ := unpacks.spec wf
    rw [linkScratch_ilist]
    exact wfMid.insertAfter whole bound off above below (by simp [voteInstance])
  | swap unpacks mem same uncommitted =>
    obtain ⟨wfMid, -, off, bound⟩ := unpacks.spec wf
    exact wfMid.swap mem bound off same.symm uncommitted (by simp [voteInstance])

/-- The votes of a promise keep the log well formed. -/
theorem Merges.wellFormed {node next : Node} {votes : List PackedInstance}
    (merges : Merges node votes next) (wf : node.pax.ilist.WellFormed) :
    next.pax.ilist.WellFormed := by
  induction merges with
  | nil => exact wf
  | cons step _ ih => exact ih (step.wellFormed wf)

/-- A fresh instance under a free number keeps the log well formed. -/
theorem insertFresh_wellFormed {node : Node} (wf : node.pax.ilist.WellFormed) {hdr : Header}
    {val : Value} (absent : node.pax.ilist.find hdr.inum = none) :
    (instanceInsertAndUpstart node (freshInstance hdr val)).pax.ilist.WellFormed := by
  rw [instanceInsertAndUpstart_ilist]
  exact wf.insert (wf.find_eq_none.mp absent) (by simp [freshInstance])

/-- A header of the same number may be adopted by an element. -/
theorem adopt_wellFormed {node : Node} (wf : node.pax.ilist.WellFormed) {hdr : Header}
    {val : Value} {cell : Cell} (found : node.pax.ilist.find hdr.inum = some cell) :
    (node.modify cell.addr (adopt hdr val)).pax.ilist.WellFormed := by
  obtain ⟨mem, same⟩ := wf.find_eq_some.mp found
  exact wf.modify_linked mem same.symm (wf.sound cell mem)

/-- An accepted decree keeps the log well formed. -/
theorem Stores.wellFormed {hdr : Header} {val : Value} {node next : Node}
    (stores : Stores hdr val node next) (wf : node.pax.ilist.WellFormed) :
    next.pax.ilist.WellFormed := by
  cases stores with
  | fresh absent => exact insertFresh_wellFormed wf absent
  | held => exact wf
  | adopted found => exact adopt_wellFormed wf found

/-- A null that fills a gap keeps the log well formed. -/
theorem fillNull_wellFormed {node : Node} (wf : node.pax.ilist.WellFormed)
    {lower upper : List Cell} {place : Cell} {inum : Nat}
    (whole : node.pax.ilist.cells = lower ++ place :: upper) (above : place.inum < inum)
    (below : ∀ x ∈ upper, inum < x.inum) :
    (fillNull node place.addr inum).pax.ilist.WellFormed := by
  unfold fillNull
  rw [linkScratch_ilist]
  have wfMid : (node.pax.ilist.alloc (nullInstance node.bumpReqId.pax inum)).WellFormed :=
    wf.alloc rfl
  refine wfMid.insertAfter whole (Nat.lt_succ_self _) ?_ above below (by simp [nullInstance])
  -- The next address is past every element's.
  by_contra on
  obtain ⟨cell, mem, same⟩ := Ilist.onList_iff.mp (by simpa using on)
  exact Nat.ne_of_lt (wf.linked cell mem) same

/-- The null that fills a gap is an element of the log. -/
theorem fillNull_cells {node : Node} (wf : node.pax.ilist.WellFormed)
    {lower upper : List Cell} {place : Cell} (inum : Nat)
    (whole : node.pax.ilist.cells = lower ++ place :: upper) :
    (fillNull node place.addr inum).pax.ilist.cells =
      lower ++ place :: ⟨nextAddr node, nullInstance node.bumpReqId.pax inum⟩ :: upper := by
  unfold fillNull
  rw [linkScratch_ilist]
  exact Ilist.insertAfter_cells (wf.alloc rfl) whole

/-- The null that fills a gap is the element that was just linked. -/
theorem mem_fillNull {node : Node} (wf : node.pax.ilist.WellFormed) {lower upper : List Cell}
    {place : Cell} (inum : Nat) (whole : node.pax.ilist.cells = lower ++ place :: upper) :
    (⟨nextAddr node, nullInstance node.bumpReqId.pax inum⟩ : Cell) ∈
      (fillNull node place.addr inum).pax.ilist.cells := by
  rw [fillNull_cells wf _ whole]
  exact List.mem_append_right _ (List.mem_cons_of_mem _ List.mem_cons_self)

/-- A decree that is made again keeps the log well formed. -/
theorem redecreeInstance_wellFormed {node : Node} (wf : node.pax.ilist.WellFormed) {addr : Addr}
    {inst : Instance} (held : node.inst? addr = some inst) :
    (redecreeInstance node addr inst).pax.ilist.WellFormed := by
  show (node.pax.ilist.modify addr (redecreed node.pax)).WellFormed
  -- The cursor may rest on an element or, when it was swapped out, on a detached allocation.
  by_cases on : node.pax.ilist.onList addr = true
  · exact wf.modify_linked (wf.mem_of_inst? held on) rfl
      (by simp [redecreed, instanceInitMetadata])
  · exact wf.modify_unlinked (by simpa using on) fun _ _ => rfl

/-- A link changes nothing but the list and the cursor. -/
theorem linkScratch_eq (node : Node) (place : Addr) (cell : Cell) :
    ∃ istart, linkScratch node place cell =
      { node with pax.ilist := node.pax.ilist.insertAfter place cell, pax.istart := istart } := by
  unfold linkScratch
  simp only
  split
  · exact ⟨_, rfl⟩
  · exact ⟨node.pax.istart, rfl⟩

/-- A vote changes nothing but the list and the cursor. -/
theorem VoteStep.eq {vote : PackedInstance} {node next : Node} (step : VoteStep vote node next) :
    ∃ ilist istart, next = { node with pax.ilist := ilist, pax.istart := istart } := by
  -- Unpacking writes the list alone, and the step that follows at most the cursor as well.
  have unpacked : ∀ {mid addr}, Unpacks vote node mid addr →
      ∃ ilist, mid = { node with pax.ilist := ilist } := by
    intro mid addr unpacks
    cases unpacks with
    | fresh => exact ⟨_, rfl⟩
    | reused => exact ⟨_, rfl⟩
  cases step with
  | keep unpacks =>
    obtain ⟨ilist, rfl⟩ := unpacked unpacks
    exact ⟨ilist, node.pax.istart, rfl⟩
  | @link mid addr _ place _ unpacks =>
    obtain ⟨ilist, rfl⟩ := unpacked unpacks
    obtain ⟨istart, same⟩ := linkScratch_eq { node with pax.ilist := ilist } place.addr
      ⟨addr, voteInstance vote⟩
    exact ⟨_, istart, same⟩
  | swap unpacks =>
    obtain ⟨ilist, rfl⟩ := unpacked unpacks
    exact ⟨_, node.pax.istart, rfl⟩

/-- The votes of a promise change nothing but the list and the cursor. -/
theorem Merges.eq {node next : Node} {votes : List PackedInstance}
    (merges : Merges node votes next) :
    ∃ ilist istart, next = { node with pax.ilist := ilist, pax.istart := istart } := by
  -- By induction on the votes: each changes the list and the cursor.
  induction merges with
  | nil node => exact ⟨node.pax.ilist, node.pax.istart, rfl⟩
  | cons step _ ih =>
    obtain ⟨_, _, rfl⟩ := step.eq
    obtain ⟨ilist, istart, rfl⟩ := ih
    exact ⟨ilist, istart, rfl⟩

/-- An accepted decree changes nothing but the list and the cursor. -/
theorem Stores.eq {hdr : Header} {val : Value} {node next : Node}
    (stores : Stores hdr val node next) :
    ∃ ilist istart, next = { node with pax.ilist := ilist, pax.istart := istart } := by
  cases stores with
  | fresh => exact instanceInsertAndUpstart_eq _ _
  | held => exact ⟨node.pax.ilist, node.pax.istart, rfl⟩
  | adopted => exact ⟨_, node.pax.istart, rfl⟩

/-- Moves of the handler itself keep the log well formed. -/
theorem Top.wellFormed {start node next : Node} {event : Event} (act : Top start event node next)
    (wf : node.pax.ilist.WellFormed) : next.pax.ilist.WellFormed := by
  -- Every move writes an instance in place, inserts a free number or drops a front.
  cases act with
  | beside prior => exact prior.wellFormed wf
  | depose closed prior _ _ replaces =>
    rw [replaces.ilist, prior.ilist, ← closed.ilist]
    exact wf
  | promise =>
    rw [acceptorPromise_pax]
    exact wf
  | store _ _ _ _ stores => exact stores.wellFormed wf
  | accept _ _ _ _ stores => exact stores.wellFormed wf
  | commitFresh _ _ _ absent => exact insertFresh_wellFormed wf absent
  | commitOver _ _ _ found =>
    obtain ⟨mem, -⟩ := wf.find_eq_some.mp found
    exact wf.modify_linked mem rfl (wf.sound _ mem)
  | recommitOver _ _ _ found => exact adopt_wellFormed wf found
  | vote _ _ _ _ found =>
    obtain ⟨mem, -⟩ := wf.find_eq_some.mp found
    exact wf.modify_linked mem rfl (wf.sound _ mem)
  | reject _ _ _ _ found =>
    obtain ⟨mem, -⟩ := wf.find_eq_some.mp found
    exact wf.modify_linked mem rfl (wf.sound _ mem)
  | rebroadcast => exact wf
  | rewrite prior _ found =>
    have mem := (wf.find_eq_some.mp (by rw [prior.ilist]; exact found)).1
    refine wf.modify_linked mem ?_ (by simp [redecreeRejected, instanceInitMetadata])
    unfold redecreeRejected
    split <;> rfl
  | merge _ _ _ _ _ _ merges => exact merges.wellFormed wf
  | ack => exact wf
  | win => exact wf
  | @fill _ _ _ place _ inum _ _ _ whole above below =>
    have filled := fillNull_wellFormed wf whole above below
    exact redecreeInstance_wellFormed filled (filled.inst?_of_mem (mem_fillNull wf inum whole))
  | redecree _ _ _ held => exact redecreeInstance_wellFormed wf held
  | settle => exact wf
  | @undefer _ _ rest => exact @announceDecree_wellFormed (node.setIdefer rest) wf _
  | redirect => exact wf
  | rebegin => exact wf
  | yieldRedirect prior =>
    rw [yieldTo_ilist]
    exact prior.wellFormed wf
  | yieldRefuse prior =>
    rw [yieldTo_ilist]
    exact prior.wellFormed wf
  | helloYield prior =>
    show Ilist.WellFormed (Node.pax (if _ then _ else _)).ilist
    split <;> exact prior.wellFormed wf
  | helloBallot => exact wf
  | truncate => exact wf.dropBelow _
  | recommit => exact wf
  | welcome => exact wf

/-- Moves of learning loops keep the log well formed. -/
theorem Inner.wellFormed {start : Node} {event : Event} {config after : Config}
    (move : Inner start event config after) (wf : config.node.pax.ilist.WellFormed) :
    after.node.pax.ilist.WellFormed := by
  -- Only a learn writes to the log, and it marks what is committed and cached.
  cases move with
  | nest _ act => exact act.wellFormed wf
  | enter => exact wf
  | learn held _ committed cached =>
    rw [learnt_ilist]
    have on := wf.onList_of_committed held committed
    exact wf.modify_linked (wf.mem_of_inst? held on) rfl fun _ => ⟨committed, cached⟩
  | delist =>
    rw [delist_ilist]
    exact wf
  | depose _ _ replaces =>
    rw [replaces.ilist, delist_ilist]
    exact wf
  | next => exact wf
  | last => exact wf
  | gap => exact wf
  | rest => exact wf

/-- Every move keeps the log well formed. -/
theorem Move.wellFormed {start : Node} {event : Event} {config after : Config}
    (move : Move start event config after) (wf : config.node.pax.ilist.WellFormed) :
    after.node.pax.ilist.WellFormed := by
  cases move with
  | inner inner => exact inner.wellFormed wf
  | top act => exact act.wellFormed wf

/-- A sequence of inner moves keeps the log well formed. -/
theorem inner_wellFormed {start : Node} {event : Event} {config after : Config}
    (path : Relation.ReflTransGen (Inner start event) config after)
    (wf : config.node.pax.ilist.WellFormed) : after.node.pax.ilist.WellFormed := by
  induction path with
  | refl => exact wf
  | tail _ move ih => exact move.wellFormed ih

/-- A sequence of moves keeps the log well formed. -/
theorem move_wellFormed {start : Node} {event : Event} {config after : Config}
    (path : Relation.ReflTransGen (Move start event) config after)
    (wf : config.node.pax.ilist.WellFormed) : after.node.pax.ilist.WellFormed := by
  induction path with
  | refl => exact wf
  | tail _ move ih => exact move.wellFormed ih

end Motmot
