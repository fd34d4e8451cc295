import Motmot.Proofs.Paxos.Welcome

/-! Committed instances are retained by every move but a few. -/

namespace Motmot

/-- What may become of an instance that is committed. -/
structure Instance.Retained (old new : Instance) : Prop where
  inum : new.hdr.inum = old.hdr.inum
  val : new.val = old.val
  committed : new.committed = true
  cached : old.cached = true → new.cached = true
  learned : old.learned = true → new.learned = true

/-- A committed instance is retained when nothing happens to it. -/
theorem Instance.Retained.refl {inst : Instance} (committed : inst.committed = true) :
    inst.Retained inst :=
  ⟨rfl, rfl, committed, id, id⟩

/-- What is retained twice is retained. -/
theorem Instance.Retained.trans {x y z : Instance} (first : x.Retained y) (second : y.Retained z) :
    x.Retained z :=
  ⟨second.inum.trans first.inum, second.val.trans first.val, second.committed,
    fun cached => second.cached (first.cached cached),
    fun learned => second.learned (first.learned learned)⟩

namespace Ilist

/-- Every committed element stays in its place. -/
def Retains (old new : Ilist) : Prop :=
  ∀ cell ∈ old.cells, cell.inst.committed = true →
    ∃ inst, ⟨cell.addr, inst⟩ ∈ new.cells ∧ cell.inst.Retained inst

namespace Retains

variable {list mid new : Ilist}

/-- More elements may come. -/
theorem of_subset (more : ∀ cell ∈ list.cells, cell ∈ new.cells) : list.Retains new :=
  fun cell mem committed => ⟨cell.inst, more cell mem, .refl committed⟩

theorem refl (list : Ilist) : list.Retains list := of_subset fun _ => id

theorem trans (first : list.Retains mid) (second : mid.Retains new) : list.Retains new := by
  intro cell mem committed
  obtain ⟨inst, memMid, retained⟩ := first cell mem committed
  obtain ⟨last, memNew, again⟩ := second ⟨cell.addr, inst⟩ memMid retained.committed
  exact ⟨last, memNew, retained.trans again⟩

/-- An element may be rewritten when it is retained, or was not committed yet. -/
theorem modify (wf : list.WellFormed) {cell : Cell} (mem : cell ∈ list.cells)
    {f : Instance → Instance}
    (keeps : cell.inst.committed = true → cell.inst.Retained (f cell.inst)) :
    list.Retains (list.modify cell.addr f) := by
  intro other memOther committed
  by_cases same : other = cell
  · subst same
    exact ⟨_, (wf.mem_modify_linked mem f).mpr (Or.inl rfl), keeps committed⟩
  · exact ⟨_, (wf.mem_modify_linked mem f).mpr (Or.inr ⟨memOther, same⟩), .refl committed⟩

/-- An uncommitted instance may be rewritten wherever it is. -/
theorem modify_open (wf : list.WellFormed) {addr : Addr} {inst : Instance}
    (held : list.inst? addr = some inst) (uncommitted : inst.committed = false)
    (f : Instance → Instance) : list.Retains (list.modify addr f) := by
  -- On the list the instance is not committed, and off the list no element is written.
  by_cases on : list.onList addr = true
  · refine modify wf (wf.mem_of_inst? held on) fun committed => ?_
    rw [uncommitted] at committed
    contradiction
  · refine of_subset fun cell mem => ?_
    rw [modify_cells f (by simpa using on)]
    exact mem

/-- An element may be inserted at a free number. -/
theorem insert (wf : list.WellFormed) {inst : Instance}
    (free : ∀ cell ∈ list.cells, cell.inum ≠ inst.hdr.inum) : list.Retains (list.insert inst) :=
  of_subset fun _ mem => (wf.mem_insert free).mpr (Or.inr mem)

/-- An element may be linked behind another. -/
theorem insertAfter (wf : list.WellFormed) {lower upper : List Cell} {place cell : Cell}
    (whole : list.cells = lower ++ place :: upper) :
    list.Retains (list.insertAfter place.addr cell) := by
  refine of_subset fun other mem => ?_
  rw [insertAfter_cells wf whole]
  rw [whole] at mem
  grind

/-- An uncommitted element may be put out. -/
theorem swap (wf : list.WellFormed) {out cell : Cell} (mem : out ∈ list.cells)
    (uncommitted : out.inst.committed = false) : list.Retains (list.swap out cell) := by
  intro other memOther committed
  refine ⟨other.inst, (wf.mem_swap mem).mpr (Or.inr ⟨memOther, ?_⟩), .refl committed⟩
  rintro rfl
  rw [uncommitted] at committed
  contradiction

end Retains

end Ilist

variable {start : Node} {event : Event}

/-- Finishing a commit retains what was committed. -/
theorem finishCommit_retains {node : Node} {cell : Cell} (wf : node.pax.ilist.WellFormed)
    (mem : cell ∈ node.pax.ilist.cells) :
    node.pax.ilist.Retains (finishCommit node cell.addr).pax.ilist := by
  -- Both marks keep what a commit is retained by.
  have marked : node.pax.ilist.Retains (node.modify cell.addr markCommitted).pax.ilist :=
    .modify wf mem fun _ => ⟨rfl, rfl, rfl, id, id⟩
  have still : (⟨cell.addr, markCommitted cell.inst⟩ : Cell) ∈
      (node.modify cell.addr markCommitted).pax.ilist.cells :=
    (wf.mem_modify_linked mem _).mpr (Or.inl rfl)
  exact marked.trans (.modify (modify_markCommitted_wellFormed wf mem) still
    fun committed => ⟨rfl, rfl, committed, fun _ => rfl, id⟩)

/-- A decree retains what was committed. -/
theorem announceDecree_retains {node : Node} (inst : Instance) (wf : node.pax.ilist.WellFormed) :
    node.pax.ilist.Retains (announceDecree node inst).pax.ilist := by
  show node.pax.ilist.Retains
    (instanceInsertAndUpstart node (decreeOf node.pax inst)).pax.ilist
  rw [instanceInsertAndUpstart_ilist]
  exact .insert wf (decreeOf_free wf inst)

/-- Moves from within a learn retain what was committed. -/
theorem Nest.retains {node next : Node} (act : Nest start event node next)
    (wf : node.pax.ilist.WellFormed) : node.pax.ilist.Retains next.pax.ilist := by
  -- A commit is written over only by its own marks, and a decree adds to the log.
  cases act with
  | outer outer => exact outer.ilist ▸ .refl _
  | @defer mid _ prior =>
    show node.pax.ilist.Retains mid.pax.ilist
    exact prior.ilist ▸ .refl _
  | decree prior =>
    rw [← prior.ilist]
    exact announceDecree_retains _ (prior.wellFormed wf)
  | announce mem => exact .modify wf mem fun committed => ⟨rfl, rfl, committed, id, id⟩
  | commit mem => exact .modify wf mem fun _ => ⟨rfl, rfl, rfl, id, id⟩
  | cache mem => exact finishCommit_retains wf mem
  | aim mem => exact finishCommit_retains wf mem
  | prepare => exact .refl _

/-- Unpacking a vote retains what was committed. -/
theorem Unpacks.retains {vote : PackedInstance} {node mid : Node} {addr : Addr}
    (unpacks : Unpacks vote node mid addr) (wf : node.pax.ilist.WellFormed) :
    node.pax.ilist.Retains mid.pax.ilist :=
  .of_subset fun _ mem => (unpacks.spec wf).2.1.symm ▸ mem

/-- A vote retains what was committed. -/
theorem VoteStep.retains {vote : PackedInstance} {node next : Node}
    (step : VoteStep vote node next) (wf : node.pax.ilist.WellFormed) :
    node.pax.ilist.Retains next.pax.ilist := by
  -- The scratch retains everything, and what it replaces is not committed.
  cases step with
  | keep unpacks => exact unpacks.retains wf
  | link unpacks whole =>
    rw [linkScratch_ilist]
    exact (unpacks.retains wf).trans (.insertAfter (unpacks.spec wf).1 whole)
  | swap unpacks mem _ uncommitted =>
    exact (unpacks.retains wf).trans (.swap (unpacks.spec wf).1 mem uncommitted)

/-- The votes of a promise retain what was committed. -/
theorem Merges.retains {node next : Node} {votes : List PackedInstance}
    (merges : Merges node votes next) (wf : node.pax.ilist.WellFormed) :
    node.pax.ilist.Retains next.pax.ilist := by
  induction merges with
  | nil => exact .refl _
  | cons step _ ih => exact (step.retains wf).trans (ih (step.wellFormed wf))

/-- An accepted decree retains what was committed. -/
theorem Stores.retains {hdr : Header} {val : Value} {node next : Node}
    (stores : Stores hdr val node next) (wf : node.pax.ilist.WellFormed) :
    node.pax.ilist.Retains next.pax.ilist := by
  -- What is taken over is not committed.
  cases stores with
  | fresh absent =>
    rw [instanceInsertAndUpstart_ilist]
    exact .insert wf (wf.find_eq_none.mp absent)
  | held => exact .refl _
  | adopted found uncommitted =>
    exact .modify wf (wf.find_eq_some.mp found).1 fun committed => by
      rw [uncommitted] at committed
      contradiction

/--
Moves of the handler itself retain what was committed.

The exceptions are a truncation, which frees it, and the rewrite after a reconnection to an acceptor
that was to be parted.
-/
theorem Top.retains {node next : Node} (act : Top start event node next)
    (wf : node.pax.ilist.WellFormed) :
    node.pax.ilist.Retains next.pax.ilist ∨
      (∃ bound, Truncates start.pax event bound ∧ node.pax.core = start.pax.core ∧
        next.pax.ilist = node.pax.ilist.dropBelow bound) ∨
      ∃ inum acc chan cell, Continues start.pax event (.ackReject inum) acc chan ∧
        start.pax.ilist.find inum = some cell ∧ start.pax.ilist = node.pax.ilist ∧
        next.pax.ilist = node.pax.ilist.modify cell.addr (redecreeRejected chan) := by
  -- The moves that write over an instance do so while it is not committed.
  cases act with
  | beside prior => exact Or.inl (prior.ilist ▸ .refl _)
  | depose closed prior _ _ replaces =>
    rw [replaces.ilist, prior.ilist, ← closed.ilist]
    exact Or.inl (.refl _)
  | promise =>
    rw [acceptorPromise_pax]
    exact Or.inl (.refl _)
  | store _ _ _ _ stores => exact Or.inl (stores.retains wf)
  | accept _ _ _ _ stores => exact Or.inl (stores.retains wf)
  | commitFresh _ _ _ absent =>
    rw [instanceInsertAndUpstart_ilist]
    exact Or.inl (.insert wf (wf.find_eq_none.mp absent))
  | commitOver _ _ _ found uncommitted =>
    exact Or.inl (.modify_open wf (wf.inst?_of_mem (wf.find_eq_some.mp found).1) uncommitted _)
  | recommitOver _ _ _ found uncommitted =>
    exact Or.inl (.modify_open wf (wf.inst?_of_mem (wf.find_eq_some.mp found).1) uncommitted _)
  | vote _ _ _ _ found =>
    exact Or.inl (.modify wf (wf.find_eq_some.mp found).1
      fun committed => ⟨rfl, rfl, committed, id, id⟩)
  | reject _ _ _ _ found =>
    exact Or.inl (.modify wf (wf.find_eq_some.mp found).1
      fun committed => ⟨rfl, rfl, committed, id, id⟩)
  | rebroadcast => exact Or.inl (.refl _)
  | rewrite prior continues found =>
    exact Or.inr (Or.inr ⟨_, _, _, _, continues, found, prior.ilist.symm, rfl⟩)
  | merge _ _ _ _ _ _ merges => exact Or.inl (merges.retains wf)
  | ack => exact Or.inl (.refl _)
  | win => exact Or.inl (.refl _)
  | @fill _ _ _ place _ inum _ _ _ whole above below =>
    have filled := fillNull_wellFormed wf whole above below
    -- The null is linked between the elements that were there.
    have linked : node.pax.ilist.Retains (fillNull node place.addr inum).pax.ilist :=
      .of_subset fun cell mem => by
        rw [fillNull_cells wf inum whole]
        rw [whole] at mem
        grind
    exact Or.inl (linked.trans
      (.modify_open filled (filled.inst?_of_mem (mem_fillNull wf inum whole)) rfl _))
  | redecree _ _ _ held uncommitted => exact Or.inl (.modify_open wf held uncommitted _)
  | settle => exact Or.inl (.refl _)
  | @undefer _ inst rest =>
    exact Or.inl (@announceDecree_retains (node.setIdefer rest) inst wf)
  | redirect => exact Or.inl (.refl _)
  | rebegin => exact Or.inl (.refl _)
  | yieldRedirect prior =>
    rw [yieldTo_ilist, prior.ilist]
    exact Or.inl (.refl _)
  | yieldRefuse prior =>
    rw [yieldTo_ilist, prior.ilist]
    exact Or.inl (.refl _)
  | helloYield prior =>
    left
    rw [← prior.ilist]
    show Ilist.Retains _ (Node.pax (if _ then _ else _)).ilist
    split <;> exact .refl _
  | helloBallot => exact Or.inl (.refl _)
  | truncate prior truncates => exact Or.inr (Or.inl ⟨_, truncates, prior.core, rfl⟩)
  | recommit => exact Or.inl (.refl _)
  | welcome => exact Or.inl (.refl _)

/-- What belongs to a learning loop retains what was committed. -/
theorem Inner.retains {config after : Config} (move : Inner start event config after)
    (wf : config.node.pax.ilist.WellFormed) :
    config.node.pax.ilist.Retains after.node.pax.ilist := by
  -- A learn marks a committed instance, and leaves the value as it is.
  cases move with
  | nest _ act => exact act.retains wf
  | @learn node _ addr inst held _ committed =>
    have mem := wf.mem_of_inst? held (wf.onList_of_committed held committed)
    show node.pax.ilist.Retains (learnt node addr inst _).pax.ilist
    rw [learnt_ilist]
    exact Ilist.Retains.modify wf mem fun committed => ⟨rfl, rfl, committed, id, fun _ => rfl⟩
  | delist =>
    simp only [delist_ilist]
    exact .refl _
  | depose _ _ replaces =>
    simp only [replaces.ilist, delist_ilist]
    exact .refl _
  | enter => exact .refl _
  | next => exact .refl _
  | last => exact .refl _
  | gap => exact .refl _
  | rest => exact .refl _

end Motmot
