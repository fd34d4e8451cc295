import Motmot.Proofs.Paxos.Roster
import Motmot.Proofs.Paxos.Stability

/-! Events that may not commit leave the commits, the hole and what was asked for as they are. -/

namespace Motmot

namespace Ilist

/-- Nothing is committed anew. -/
def Commitless (old new : Ilist) : Prop :=
  ∀ cell ∈ new.cells, cell.inst.committed = true →
    ∃ prior ∈ old.cells, prior.inum = cell.inum ∧ prior.inst.committed = true

namespace Commitless

variable {list mid new : Ilist}

/-- Whatever comes is uncommitted. -/
theorem of_fresh (comes : ∀ cell ∈ new.cells, cell ∈ list.cells ∨ cell.inst.committed = false) :
    list.Commitless new := by
  intro cell mem committed
  rcases comes cell mem with before | uncommitted
  · exact ⟨cell, before, rfl, committed⟩
  · rw [uncommitted] at committed
    contradiction

theorem refl (list : Ilist) : list.Commitless list := of_fresh fun _ => Or.inl

theorem trans (first : list.Commitless mid) (second : mid.Commitless new) :
    list.Commitless new := by
  intro cell mem committed
  obtain ⟨prior, memMid, same, held⟩ := second cell mem committed
  obtain ⟨old, memOld, number, before⟩ := first prior memMid held
  exact ⟨old, memOld, number.trans same, before⟩

/-- A write that keeps numbers and commits nothing, wherever it goes. -/
theorem modify {addr : Addr} {f : Instance → Instance}
    (number : ∀ inst, (f inst).hdr.inum = inst.hdr.inum)
    (commits : ∀ inst, (f inst).committed = true → inst.committed = true) :
    list.Commitless (list.modify addr f) := by
  -- A committed cell afterwards was one before, whether it was written to or not.
  intro cell mem committed
  obtain ⟨old, memOld, rfl⟩ := mem_modify.mp mem
  refine ⟨old, memOld, ?_, ?_⟩
  · split
    · exact (number old.inst).symm
    · rfl
  · split at committed
    · exact commits old.inst committed
    · exact committed

/-- A write that leaves its element uncommitted. -/
theorem modify_open (wf : list.WellFormed) {cell : Cell} (mem : cell ∈ list.cells)
    {f : Instance → Instance} (uncommitted : (f cell.inst).committed = false) :
    list.Commitless (list.modify cell.addr f) := by
  refine of_fresh fun other memOther => ?_
  rcases (wf.mem_modify_linked mem f).mp memOther with rfl | ⟨before, -⟩
  · exact Or.inr uncommitted
  · exact Or.inl before

/-- An uncommitted element may be inserted. -/
theorem insert (wf : list.WellFormed) {inst : Instance}
    (free : ∀ cell ∈ list.cells, cell.inum ≠ inst.hdr.inum)
    (uncommitted : inst.committed = false) : list.Commitless (list.insert inst) := by
  refine of_fresh fun cell mem => ?_
  rcases (wf.mem_insert free).mp mem with rfl | before
  · exact Or.inr uncommitted
  · exact Or.inl before

/-- An uncommitted element may be linked behind another. -/
theorem insertAfter (wf : list.WellFormed) {lower upper : List Cell} {place cell : Cell}
    (whole : list.cells = lower ++ place :: upper) (uncommitted : cell.inst.committed = false) :
    list.Commitless (list.insertAfter place.addr cell) := by
  refine of_fresh fun other mem => ?_
  rw [insertAfter_cells wf whole] at mem
  rw [whole]
  grind

/-- An uncommitted element may be put in. -/
theorem swap (wf : list.WellFormed) {out cell : Cell} (mem : out ∈ list.cells)
    (uncommitted : cell.inst.committed = false) : list.Commitless (list.swap out cell) := by
  refine of_fresh fun other memOther => ?_
  rcases (wf.mem_swap mem).mp memOther with rfl | ⟨before, -⟩
  · exact Or.inr uncommitted
  · exact Or.inl before

end Commitless

end Ilist

variable {start : Node} {event : Event}

/-- Unpacking a vote commits nothing. -/
theorem Unpacks.commitless {vote : PackedInstance} {node mid : Node} {addr : Addr}
    (unpacks : Unpacks vote node mid addr) (wf : node.pax.ilist.WellFormed) :
    node.pax.ilist.Commitless mid.pax.ilist :=
  .of_fresh fun _ mem => Or.inl ((unpacks.spec wf).2.1 ▸ mem)

/-- A vote commits nothing: it is unpacked as uncommitted. -/
theorem VoteStep.commitless {vote : PackedInstance} {node next : Node}
    (step : VoteStep vote node next) (wf : node.pax.ilist.WellFormed) :
    node.pax.ilist.Commitless next.pax.ilist := by
  -- The vote is kept scratch, linked, or swapped for the instance that was there.
  cases step with
  | keep unpacks => exact unpacks.commitless wf
  | link unpacks whole =>
    rw [linkScratch_ilist]
    exact (unpacks.commitless wf).trans (.insertAfter (unpacks.spec wf).1 whole rfl)
  | swap unpacks mem =>
    exact (unpacks.commitless wf).trans (.swap (unpacks.spec wf).1 mem rfl)

/-- The votes of a promise commit nothing. -/
theorem Merges.commitless {node next : Node} {votes : List PackedInstance}
    (merges : Merges node votes next) (wf : node.pax.ilist.WellFormed) :
    node.pax.ilist.Commitless next.pax.ilist := by
  induction merges with
  | nil => exact .refl _
  | cons step _ ih => exact (step.commitless wf).trans (ih (step.wellFormed wf))

/-- An accepted decree commits nothing. -/
theorem Stores.commitless {hdr : Header} {val : Value} {node next : Node}
    (stores : Stores hdr val node next) (wf : node.pax.ilist.WellFormed) :
    node.pax.ilist.Commitless next.pax.ilist := by
  -- By how the decree is stored: what is new or taken over is not committed.
  cases stores with
  | fresh absent =>
    rw [instanceInsertAndUpstart_ilist]
    exact .insert wf (wf.find_eq_none.mp absent) rfl
  | held => exact .refl _
  | adopted found uncommitted => exact .modify_open wf (wf.find_eq_some.mp found).1 uncommitted

/-- A decree commits nothing. -/
theorem announceDecree_commitless {node : Node} (inst : Instance)
    (wf : node.pax.ilist.WellFormed) :
    node.pax.ilist.Commitless (announceDecree node inst).pax.ilist := by
  show node.pax.ilist.Commitless
    (instanceInsertAndUpstart node (decreeOf node.pax inst)).pax.ilist
  rw [instanceInsertAndUpstart_ilist]
  exact .insert wf (decreeOf_free wf inst) rfl

/-- Without a licence nothing is committed from within a learn. -/
theorem Nest.commitless {node next : Node} (act : Nest start event node next)
    (unlicensed : ¬ Licenses start event) (wf : node.pax.ilist.WellFormed) :
    node.pax.ilist.Commitless next.pax.ilist := by
  -- The moves that commit are those that need a licence; a decree adds an uncommitted instance.
  cases act with
  | outer outer => exact outer.ilist ▸ .refl _
  | @defer mid _ prior =>
    show node.pax.ilist.Commitless mid.pax.ilist
    exact prior.ilist ▸ .refl _
  | decree prior =>
    rw [← prior.ilist]
    exact announceDecree_commitless _ (prior.wellFormed wf)
  | announce _ _ _ licensed => exact absurd licensed unlicensed
  | commit _ _ licensed => exact absurd licensed unlicensed
  | cache _ _ _ _ licensed => exact absurd licensed unlicensed
  | aim _ _ _ _ _ _ _ licensed => exact absurd licensed unlicensed
  | prepare => exact .refl _

/-- Moves of the handler itself commit nothing. -/
theorem Top.commitless {node next : Node} (act : Top start event node next)
    (wf : node.pax.ilist.WellFormed) : node.pax.ilist.Commitless next.pax.ilist := by
  -- The log is kept, or written where nothing is committed, or an open instance is committed over.
  cases act with
  | beside prior => exact prior.ilist ▸ .refl _
  | depose closed prior _ _ replaces =>
    rw [replaces.ilist, prior.ilist, ← closed.ilist]
    exact .refl _
  | promise =>
    rw [acceptorPromise_pax]
    exact .refl _
  | store _ _ _ _ stores => exact stores.commitless wf
  | accept _ _ _ _ stores => exact stores.commitless wf
  | commitFresh _ _ _ absent =>
    rw [instanceInsertAndUpstart_ilist]
    exact .insert wf (wf.find_eq_none.mp absent) rfl
  | commitOver _ _ _ found uncommitted =>
    exact .modify_open wf (wf.find_eq_some.mp found).1 uncommitted
  | recommitOver _ _ _ found uncommitted =>
    exact .modify_open wf (wf.find_eq_some.mp found).1 uncommitted
  | vote => exact .modify (fun _ => rfl) fun _ => id
  | reject => exact .modify (fun _ => rfl) fun _ => id
  | rebroadcast => exact .refl _
  | @rewrite _ _ chan =>
    refine .modify (fun inst => ?_) fun inst committed => ?_
    · unfold redecreeRejected
      split <;> rfl
    · contradiction
  | merge _ _ _ _ _ _ merges => exact merges.commitless wf
  | ack => exact .refl _
  | win => exact .refl _
  | @fill _ _ _ place _ inum _ _ _ whole =>
    -- A null is linked between elements that were there, and is itself not committed.
    have linked : node.pax.ilist.Commitless (fillNull node place.addr inum).pax.ilist := by
      refine .of_fresh fun cell mem => ?_
      rw [fillNull_cells wf inum whole] at mem
      rw [whole]
      rcases List.mem_append.mp mem with mem | mem
      · exact Or.inl (List.mem_append_left _ mem)
      · rcases List.mem_cons.mp mem with rfl | mem
        · exact Or.inl (List.mem_append_right _ List.mem_cons_self)
        · rcases List.mem_cons.mp mem with rfl | mem
          · exact Or.inr rfl
          · exact Or.inl (List.mem_append_right _ (List.mem_cons_of_mem _ mem))
    exact linked.trans (.modify (fun _ => rfl) fun _ committed => by contradiction)
  | redecree => exact .modify (fun _ => rfl) fun _ committed => by contradiction
  | settle => exact .refl _
  | @undefer _ inst rest => exact @announceDecree_commitless (node.setIdefer rest) inst wf
  | redirect => exact .refl _
  | rebegin => exact .refl _
  | yieldRedirect prior =>
    rw [yieldTo_ilist, prior.ilist]
    exact .refl _
  | yieldRefuse prior =>
    rw [yieldTo_ilist, prior.ilist]
    exact .refl _
  | helloYield prior =>
    rw [← prior.ilist]
    show Ilist.Commitless _ (Node.pax (if _ then _ else _)).ilist
    split <;> exact .refl _
  | helloBallot => exact .refl _
  | truncate => exact .of_fresh fun cell mem => Or.inl (wf.mem_dropBelow.mp mem).1
  | recommit => exact .refl _
  | welcome => exact .refl _

/-- Whatever yields brings a hello or a channel. -/
theorem Yields.greets {pax : Session} (yields : Yields pax event) : event.greets = true := by
  cases yields with
  | hello asked opcode => simp [asked, Event.greets, opcode]
  | «continue» _ continues =>
    obtain ⟨_, _, rfl, -⟩ := continues
    rfl

/-- Whoever has the same leader is as much a proposer. -/
theorem isProposer_same {pax next : Session} (self : next.selfId = pax.selfId)
    (led : next.proposer = pax.proposer) : isProposer next = isProposer pax := by
  rw [isProposer, isProposer, self, led]

/-- Moves of the handler itself leave a proposer in place, unless it yields. -/
theorem Top.leads {node next : Node} (act : Top start event node next)
    (keeps : ¬ Yields start.pax event) (proposer : isProposer start.pax = true)
    (leads : isProposer node.pax = true) : isProposer next.pax = true := by
  -- A session that keeps its name and its proposer stays what it was.
  have same : next.pax.selfId = node.pax.selfId → next.pax.proposer = node.pax.proposer →
      isProposer next.pax = true :=
    fun self led => (isProposer_same self led).trans leads
  have own : start.pax.proposer = some start.pax.selfId := by simpa [isProposer] using proposer
  -- Whoever is yielded to without being preferred does not outrank us.
  have stays : ∀ {mid : Node} {acc : Acceptor}, Prior start event mid →
      start.pax.selfId ≤ acc.paxid → isProposer (yieldTo mid acc).pax = true := by
    intro mid acc prior lower
    have self : mid.pax.selfId = start.pax.selfId := congrArg Core.selfId prior.core
    have led : mid.pax.proposer = start.pax.proposer := congrArg Core.proposer prior.core
    have polity := yieldTo_polity mid acc
    have selfNext := congrArg Polity.selfId polity
    have ledNext := congrArg Polity.proposer polity
    change (yieldTo mid acc).pax.selfId = _ at selfNext
    change (yieldTo mid acc).pax.proposer = _ at ledNext
    rw [isProposer, selfNext, ledNext, led, self, own, Option.map_some, Nat.min_eq_right lower]
    simp
  -- Only a yield changes who leads, and it is excluded or gives way to somebody lower.
  cases act with
  | beside prior => exact isProposer_congr prior.core ▸ leads
  | depose _ _ _ lost =>
    obtain ⟨_, _, _, _, acceptor, _⟩ := lost
    rw [proposer] at acceptor
    contradiction
  | promise =>
    refine same ?_ ?_ <;> rw [acceptorPromise_pax]
  | store _ _ _ _ stores =>
    obtain ⟨_, _, eq⟩ := stores.eq
    exact same (by rw [eq]) (by rw [eq])
  | accept _ _ _ _ stores =>
    obtain ⟨_, _, eq⟩ := stores.eq
    exact same (by rw [eq]; rfl) (by rw [eq]; rfl)
  | @commitFresh _ hdr val =>
    have polity := instanceInsertAndUpstart_polity start (freshInstance hdr val)
    exact same (congrArg Polity.selfId polity) (congrArg Polity.proposer polity)
  | merge _ _ _ _ _ _ merges =>
    obtain ⟨_, _, eq⟩ := merges.eq
    exact same (by rw [eq]) (by rw [eq])
  | @fill _ _ _ place _ inum =>
    obtain ⟨_, eq⟩ := linkScratch_eq (node.bumpReqId.setIlist (node.bumpReqId.pax.ilist.alloc
      (nullInstance node.bumpReqId.pax inum))) place.addr
        ⟨nextAddr node.bumpReqId, nullInstance node.bumpReqId.pax inum⟩
    have filled : (fillNull node place.addr inum).pax.polity = node.pax.polity :=
      congrArg (fun node => node.pax.polity) eq
    exact same (congrArg Polity.selfId filled) (congrArg Polity.proposer filled)
  | @undefer _ inst rest =>
    have polity := announceDecree_polity (node.setIdefer rest) inst
    exact same (congrArg Polity.selfId polity) (congrArg Polity.proposer polity)
  | yieldRedirect prior continues lost higher =>
    exact absurd (.«continue» (Or.inl rfl) continues ⟨lost, higher⟩ own higher) keeps
  | @yieldRefuse mid val acc peer prior continues unprepared =>
    refine stays prior (Nat.le_of_not_lt fun higher => keeps ?_)
    exact .«continue» (Or.inr ⟨val, rfl⟩) continues unprepared own higher
  | helloYield _ asked opcode heeded found lost current higher =>
    exact absurd (.hello asked opcode heeded found lost current higher) keeps
  | _ => exact same rfl rfl

/-- A learning loop leaves a proposer in place, since it never learns its own part. -/
theorem Inner.leads {config after : Config} (move : Inner start event config after)
    (leads : isProposer config.node.pax = true) : isProposer after.node.pax = true := by
  -- Neither a learn nor what it nests changes who the proposer is, but for the part of another.
  cases move with
  | nest _ act =>
    have polity := act.polity
    exact (isProposer_same (congrArg Polity.selfId polity)
      (congrArg Polity.proposer polity)).trans leads
  | @learn node _ addr inst =>
    have core := learnt_core node addr inst (learnRequest node.pax inst.val)
    exact (isProposer_same (congrArg Core.selfId core) (congrArg Core.proposer core)).trans leads
  | delist => exact (isProposer_congr (delist_core _ _)).trans leads
  | depose other led =>
    simp only [isProposer, led] at leads
    simp at leads
    contradiction
  | enter => exact leads
  | next => exact leads
  | last => exact leads
  | gap => exact leads
  | rest => exact leads

/-- However a learning loop goes on, a proposer stays in place. -/
theorem inner_leads {config after : Config}
    (path : Relation.ReflTransGen (Inner start event) config after)
    (leads : isProposer config.node.pax = true) : isProposer after.node.pax = true := by
  induction path with
  | refl => exact leads
  | tail _ move ih => exact move.leads ih

/-- A proposer that does not yield is still one when its handler returns. -/
theorem Handles.leads {node next : Node} (handles : Handles node event (.ok next))
    (wf : node.pax.ilist.WellFormed) (keeps : ¬ Yields node.pax event)
    (proposer : isProposer node.pax = true) : isProposer next.pax = true := by
  -- No move of the handler resigns unless the event makes it.
  have kept := @Handles.invariant _ _ _ (fun config => isProposer config.node.pax = true) handles
    wf (fun _ => proposer) fun {script config after} move _ leads => ?_
  · exact kept.1 next rfl
  · cases move with
    | inner move => exact move.leads leads
    | top act => exact @Top.leads { node with script := script } event _ _ act keeps proposer leads

/-- Commits, the hole and what was asked for stay as they are; the one at the hole may need more. -/
structure Calm (stays : Prop) (before after : Node) : Prop where
  hole : after.pax.ihole = before.pax.ihole
  commits : before.pax.ilist.Commitless after.pax.ilist
  kept : stays → ∀ cell ∈ before.pax.ilist.cells, cell.inst.committed = true →
    cell.inum = before.pax.ihole → ∃ later ∈ after.pax.ilist.cells,
      later.inum = before.pax.ihole ∧ later.inst.committed = true
  told : ∃ effects, after.out = before.out ++ effects ∧
    ∀ effect ∈ effects, effect.learned = none

/-- Nothing but the script has changed. -/
theorem Calm.script (stays : Prop) (node : Node) (script : List Visit) :
    Calm stays node { node with script := script } where
  hole := rfl
  commits := .refl _
  kept := fun _ cell mem committed hole => ⟨cell, mem, hole, committed⟩
  told := ⟨[], by simp, by simp⟩

/-- What stays twice stays. -/
theorem Calm.trans {stays : Prop} {before mid after : Node} (first : Calm stays before mid)
    (later : Calm stays mid after) : Calm stays before after where
  hole := later.hole.trans first.hole
  commits := first.commits.trans later.commits
  -- A commit at the hole is carried to the middle state, and from there to the last.
  kept := by
    intro stay cell mem committed hole
    obtain ⟨next, memMid, number, held⟩ := first.kept stay cell mem committed hole
    have number : next.inum = mid.pax.ihole := number.trans first.hole.symm
    obtain ⟨last, memAfter, same, still⟩ := later.kept stay next memMid held number
    exact ⟨last, memAfter, same.trans first.hole, still⟩
  told := by
    obtain ⟨early, told, quiet⟩ := first.told
    obtain ⟨late, more, hushed⟩ := later.told
    refine ⟨early ++ late, by rw [more, told, List.append_assoc], fun effect mem => ?_⟩
    rcases List.mem_append.mp mem with mem | mem
    · exact quiet effect mem
    · exact hushed effect mem

/-- Events that take no commit at the hole away. -/
structure Lenient (pax : Session) (event : Event) : Prop where
  truncated : ∀ bound, Truncates pax event bound → bound ≤ pax.ihole
  rejected : ∀ inum acc chan cell, Continues pax event (.ackReject inum) acc chan →
    pax.ilist.find inum = some cell → cell.inst.committed = true → cell.inum ≠ pax.ihole

/-- Retained commits are still there at the hole. -/
theorem Ilist.Retains.kept {list new : Ilist} (retains : list.Retains new) {hole : Nat} :
    ∀ cell ∈ list.cells, cell.inst.committed = true → cell.inum = hole →
      ∃ later ∈ new.cells, later.inum = hole ∧ later.inst.committed = true := by
  intro cell mem committed number
  obtain ⟨inst, memNew, retained⟩ := retains cell mem committed
  exact ⟨_, memNew, retained.inum.trans number, retained.committed⟩

/-- Moves of the handler itself leave the commits alone, and a lenient one keeps the hole's. -/
theorem Top.calm {node next : Node} (act : Top start event node next)
    (wf : node.pax.ilist.WellFormed) (hole : node.pax.ihole = start.pax.ihole) :
    Calm (Lenient start.pax event) node next where
  hole := act.ihole
  commits := act.commitless wf
  kept := by
    intro lenient
    -- Only a truncation and a rewrite drop commits, and a lenient event spares the hole in both.
    rcases act.retains wf with retains | ⟨bound, truncates, -, dropped⟩ |
      ⟨inum, acc, chan, cell, continues, found, same, rewritten⟩
    · exact retains.kept
    · intro cell mem committed number
      have below := lenient.truncated bound truncates
      refine ⟨cell, ?_, number, committed⟩
      rw [dropped]
      exact wf.mem_dropBelow.mpr ⟨mem, by omega⟩
    · intro other mem committed number
      have memOld : cell ∈ node.pax.ilist.cells := by
        rw [same] at found
        exact (wf.find_eq_some.mp found).1
      -- The instance that is rewritten is not a commit at the hole.
      have apart : other ≠ cell := by
        rintro rfl
        exact lenient.rejected inum acc chan other continues found committed (number.trans hole)
      refine ⟨other, ?_, number, committed⟩
      rw [rewritten]
      exact (wf.mem_modify_linked memOld _).mpr (Or.inr ⟨mem, apart⟩)
  told := by
    obtain ⟨_, effects, tale, tells⟩ := act.adds wf
    exact ⟨effects, tale.out, fun effect mem => (tells effect mem).learned⟩

/-- Moves from within a learn leave the commits as they are without a licence. -/
theorem Nest.calm {stays : Prop} {node next : Node} (act : Nest start event node next)
    (unlicensed : ¬ Licenses start event) (wf : node.pax.ilist.WellFormed) :
    Calm stays node next where
  -- Each part is a property of one move, which its own lemma gives.
  hole := act.ihole
  commits := act.commitless unlicensed wf
  kept := fun _ => (act.retains wf).kept
  told := by
    obtain ⟨_, effects, tale, tells⟩ := act.adds wf
    exact ⟨effects, tale.out, fun effect mem => (tells effect mem).learned⟩

/-- A handler that may not commit leaves the commits as they are. -/
theorem Handles.calm {node next : Node} (handles : Handles node event (.ok next))
    (wf : node.pax.ilist.WellFormed) (unlicensed : ¬ Licenses node event) :
    Calm (Lenient node.pax event) node next := by
  -- No loop is entered without a licence, so the handler makes no other moves.
  have kept := @Handles.invariant _ _ _
    (fun config => config.loops = [] ∧ Calm (Lenient node.pax event) node config.node) handles wf
    (fun script => ⟨rfl, .script _ node script⟩) fun {script config after} move wf inv => ?_
  · exact (kept.1 next rfl).2
  · obtain ⟨idle, calm⟩ := inv
    have unlicensed : ¬ Licenses { node with script := script } event := by
      intro licensed
      refine unlicensed ?_
      cases licensed with
      | leads proposer busy => exact .leads proposer busy
      | finishes asked opcode => exact .finishes asked opcode
      | alone lapsed few => exact .alone lapsed few
    cases move with
    | top act =>
      exact ⟨rfl, calm.trans (@Top.calm { node with script := script } event _ _ act wf calm.hole)⟩
    | inner move =>
      cases move with
      | nest _ act => exact ⟨idle, calm.trans (act.calm unlicensed wf)⟩
      | enter _ _ _ _ licensed => exact absurd licensed unlicensed
      | _ => contradiction

end Motmot
