import Motmot.Proofs.Paxos.Learning

/-! The numbers on the instance list: what enters it, and what leaves it. -/

namespace Motmot

namespace Ilist

/-- Whether a number is taken. -/
def Has (list : Ilist) (inum : Nat) : Prop := ∃ cell ∈ list.cells, cell.inum = inum

variable {list : Ilist}

/-- A number that is not taken is not found. -/
theorem WellFormed.find_eq_none_iff (wf : list.WellFormed) {inum : Nat} :
    list.find inum = none ↔ ¬ list.Has inum := by
  rw [wf.find_eq_none]
  exact ⟨fun free ⟨cell, mem, same⟩ => free cell mem same, fun absent cell mem same =>
    absent ⟨cell, mem, same⟩⟩

/-- A write that keeps the number of an element keeps all numbers. -/
theorem WellFormed.has_modify (wf : list.WellFormed) {cell : Cell} (mem : cell ∈ list.cells)
    {f : Instance → Instance} (keeps : (f cell.inst).hdr.inum = cell.inum) {inum : Nat} :
    (list.modify cell.addr f).Has inum ↔ list.Has inum := by
  -- What the write produces is the new element, or another one that was there.
  constructor
  · rintro ⟨other, memOther, rfl⟩
    rcases (wf.mem_modify_linked mem f).mp memOther with rfl | ⟨old, -⟩
    · exact ⟨cell, mem, keeps.symm⟩
    · exact ⟨other, old, rfl⟩
  · rintro ⟨other, memOther, rfl⟩
    by_cases same : other = cell
    · subst same
      exact ⟨_, (wf.mem_modify_linked mem f).mpr (Or.inl rfl), keeps⟩
    · exact ⟨other, (wf.mem_modify_linked mem f).mpr (Or.inr ⟨memOther, same⟩), rfl⟩

/-- A write that keeps the number of what it rewrites keeps all numbers. -/
theorem WellFormed.has_modify_held (wf : list.WellFormed) {addr : Addr} {inst : Instance}
    (held : list.inst? addr = some inst) {f : Instance → Instance}
    (keeps : (f inst).hdr.inum = inst.hdr.inum) {inum : Nat} :
    (list.modify addr f).Has inum ↔ list.Has inum := by
  by_cases on : list.onList addr = true
  · exact wf.has_modify (wf.mem_of_inst? held on) keeps
  · unfold Has
    rw [modify_cells f (by simpa using on)]

/-- An insertion takes the number of the instance. -/
theorem WellFormed.has_insert (wf : list.WellFormed) {inst : Instance}
    (free : ∀ cell ∈ list.cells, cell.inum ≠ inst.hdr.inum) {inum : Nat} :
    (list.insert inst).Has inum ↔ inum = inst.hdr.inum ∨ list.Has inum := by
  unfold Has
  simp only [wf.mem_insert free]
  grind

/-- A link takes the number of the cell. -/
theorem WellFormed.has_insertAfter (wf : list.WellFormed) {lower upper : List Cell}
    {place cell : Cell} (whole : list.cells = lower ++ place :: upper) {inum : Nat} :
    (list.insertAfter place.addr cell).Has inum ↔ inum = cell.inum ∨ list.Has inum := by
  unfold Has
  rw [insertAfter_cells wf whole, whole]
  grind

/-- A swap between cells of one number keeps all numbers. -/
theorem WellFormed.has_swap (wf : list.WellFormed) {out cell : Cell} (mem : out ∈ list.cells)
    (same : cell.inum = out.inum) {inum : Nat} :
    (list.swap out cell).Has inum ↔ list.Has inum := by
  -- The element that is swapped in stands for the one that goes out.
  unfold Has
  simp only [wf.mem_swap mem]
  constructor
  · rintro ⟨x, rfl | ⟨old, -⟩, rfl⟩
    · exact ⟨out, mem, same.symm⟩
    · exact ⟨x, old, rfl⟩
  · rintro ⟨x, old, rfl⟩
    by_cases equal : x = out
    · subst equal
      exact ⟨cell, Or.inl rfl, same⟩
    · exact ⟨x, Or.inr ⟨old, equal⟩, rfl⟩

/-- A truncation frees exactly the numbers below its bound. -/
theorem WellFormed.has_dropBelow (wf : list.WellFormed) {bound inum : Nat} :
    (list.dropBelow bound).Has inum ↔ list.Has inum ∧ bound ≤ inum := by
  unfold Has
  simp only [wf.mem_dropBelow]
  grind

end Ilist

variable {start : Node} {event : Event}

/-- Finishing a commit keeps all numbers. -/
theorem has_finishCommit {node : Node} {cell : Cell} (wf : node.pax.ilist.WellFormed)
    (mem : cell ∈ node.pax.ilist.cells) {inum : Nat} :
    (finishCommit node cell.addr).pax.ilist.Has inum ↔ node.pax.ilist.Has inum := by
  have still : (⟨cell.addr, markCommitted cell.inst⟩ : Cell) ∈
      (node.modify cell.addr markCommitted).pax.ilist.cells :=
    (wf.mem_modify_linked mem _).mpr (Or.inl rfl)
  exact ((modify_markCommitted_wellFormed wf mem).has_modify still rfl).trans
    (wf.has_modify mem rfl)

/-- A decree takes the next number. -/
theorem has_announceDecree {node : Node} (inst : Instance) (wf : node.pax.ilist.WellFormed)
    (inum : Nat) : (announceDecree node inst).pax.ilist.Has inum ↔
      inum = nextInstance node.pax ∨ node.pax.ilist.Has inum := by
  show (instanceInsertAndUpstart node (decreeOf node.pax inst)).pax.ilist.Has inum ↔ _
  rw [instanceInsertAndUpstart_ilist]
  exact wf.has_insert (decreeOf_free wf inst)

/-- Moves from within a learn take no number but the next. -/
theorem Nest.numbers {node next : Node} (act : Nest start event node next)
    (wf : node.pax.ilist.WellFormed) {inum : Nat} :
    (node.pax.ilist.Has inum → next.pax.ilist.Has inum) ∧
      (next.pax.ilist.Has inum → node.pax.ilist.Has inum ∨ inum = nextInstance node.pax) := by
  have same : ∀ {list : Ilist}, (list.Has inum ↔ node.pax.ilist.Has inum) →
      (node.pax.ilist.Has inum → list.Has inum) ∧
        (list.Has inum → node.pax.ilist.Has inum ∨ inum = nextInstance node.pax) :=
    fun iff => ⟨iff.mpr, fun has => Or.inl (iff.mp has)⟩
  -- Only a decree adds a number, which is the next one.
  cases act with
  | outer outer => exact same (outer.ilist ▸ Iff.rfl)
  | @defer mid _ prior =>
    have equal : mid.pax.ilist.Has inum ↔ node.pax.ilist.Has inum := prior.ilist ▸ Iff.rfl
    exact same equal
  | @decree mid inst prior =>
    have iff := has_announceDecree inst (prior.wellFormed wf) inum
    rw [prior.ilist] at iff
    have next : nextInstance mid.pax = nextInstance node.pax := by
      unfold nextInstance
      rw [prior.ilist]
    rw [next] at iff
    exact ⟨fun has => iff.mpr (Or.inr has), fun has => (iff.mp has).symm⟩
  | announce mem => exact same (wf.has_modify mem rfl)
  | commit mem => exact same (wf.has_modify mem rfl)
  | cache mem => exact same (has_finishCommit wf mem)
  | aim mem => exact same (has_finishCommit wf mem)
  | prepare => exact same Iff.rfl

/-- What belongs to a learning loop takes no number but the next. -/
theorem Inner.numbers {config after : Config} (move : Inner start event config after)
    (wf : config.node.pax.ilist.WellFormed) {inum : Nat} :
    (config.node.pax.ilist.Has inum → after.node.pax.ilist.Has inum) ∧
      (after.node.pax.ilist.Has inum →
        config.node.pax.ilist.Has inum ∨ inum = nextInstance config.node.pax) := by
  have same : ∀ {list : Ilist}, (list.Has inum ↔ config.node.pax.ilist.Has inum) →
      (config.node.pax.ilist.Has inum → list.Has inum) ∧
        (list.Has inum → config.node.pax.ilist.Has inum ∨ inum = nextInstance config.node.pax) :=
    fun iff => ⟨iff.mpr, fun has => Or.inl (iff.mp has)⟩
  -- Only what is nested in a learn adds a number.
  cases move with
  | nest _ act => exact act.numbers wf
  | learn held =>
    refine same ?_
    rw [learnt_ilist]
    exact wf.has_modify_held held rfl
  | delist => exact same (by rw [delist_ilist])
  | depose _ _ replaces => exact same (by rw [replaces.ilist, delist_ilist])
  | enter => exact same Iff.rfl
  | next => exact same Iff.rfl
  | last => exact same Iff.rfl
  | gap => exact same Iff.rfl
  | rest => exact same Iff.rfl

/-- How a number comes to be taken by a move of the handler itself. -/
inductive Enters (start : Node) (event : Event) (node : Node) (inum : Nat) : Prop where
  | next (same : inum = nextInstance node.pax)
  /-- A gap in the log of a proposer that nobody in the quorum could fill. -/
  | gap (ahead : node.pax.ihole ≤ inum) (above : ∃ higher, inum < higher ∧
    node.pax.ilist.Has higher)
  | message {source hdr val} (asked : event = .message source ⟨hdr, .value val⟩)
      (opcode : hdr.opcode = .decree ∧ hdr.ballot = start.pax.ballot ∨ hdr.opcode = .commit ∨
        hdr.opcode = .recommit)
      (acceptor : isProposer start.pax = false) (first : node = start)
      (absent : ¬ start.pax.ilist.Has hdr.inum) (same : inum = hdr.inum)
  | vote {source hdr count votes prep vote}
      (asked : event = .message source ⟨hdr, .votes count votes⟩) (opcode : hdr.opcode = .promise)
      (proposer : isProposer start.pax = true) (preparing : start.pax.prep = some prep)
      (current : hdr.ballot = prep.ballot) (first : node = start) (mem : vote ∈ votes)
      (absent : ¬ start.pax.ilist.Has vote.hdr.inum) (same : inum = vote.hdr.inum)

/-- A vote takes no number but its own. -/
theorem VoteStep.numbers {vote : PackedInstance} {node next : Node}
    (step : VoteStep vote node next) (wf : node.pax.ilist.WellFormed) (inum : Nat) :
    (node.pax.ilist.Has inum → next.pax.ilist.Has inum) ∧
      (next.pax.ilist.Has inum → node.pax.ilist.Has inum ∨ inum = vote.hdr.inum) := by
  have unpacked : ∀ {mid addr}, Unpacks vote node mid addr →
      (mid.pax.ilist.Has inum ↔ node.pax.ilist.Has inum) := by
    intro mid addr unpacks
    unfold Ilist.Has
    rw [(unpacks.spec wf).2.1]
  -- A link adds the number of the vote, a swap replaces an element of that number.
  cases step with
  | keep unpacks => exact ⟨(unpacked unpacks).mpr, fun has => Or.inl ((unpacked unpacks).mp has)⟩
  | link unpacks whole =>
    have iff := unpacked unpacks
    rw [linkScratch_ilist, (unpacks.spec wf).1.has_insertAfter whole]
    exact ⟨fun has => Or.inr (iff.mpr has), fun has => (has.imp id iff.mp).symm⟩
  | @swap mid addr out unpacks mem same =>
    have iff := unpacked unpacks
    have swapped : (mid.pax.ilist.swap out ⟨addr, voteInstance vote⟩).Has inum ↔
        mid.pax.ilist.Has inum := (unpacks.spec wf).1.has_swap mem same.symm
    exact ⟨fun has => swapped.mpr (iff.mpr has), fun has => Or.inl (iff.mp (swapped.mp has))⟩

/-- The votes of a promise take no numbers but their own. -/
theorem Merges.numbers {node next : Node} {votes : List PackedInstance}
    (merges : Merges node votes next) (wf : node.pax.ilist.WellFormed) (inum : Nat) :
    (node.pax.ilist.Has inum → next.pax.ilist.Has inum) ∧
      (next.pax.ilist.Has inum → node.pax.ilist.Has inum ∨ ∃ vote ∈ votes,
        inum = vote.hdr.inum) := by
  -- By induction on the votes, the list staying well formed on the way.
  induction merges with
  | nil => exact ⟨id, Or.inl⟩
  | cons step _ ih =>
    obtain ⟨keep, come⟩ := step.numbers wf inum
    obtain ⟨keeps, comes⟩ := ih (step.wellFormed wf)
    refine ⟨fun has => keeps (keep has), fun has => ?_⟩
    rcases comes has with has | ⟨vote, mem, same⟩
    · exact (come has).imp id fun same => ⟨_, List.mem_cons_self, same⟩
    · exact Or.inr ⟨vote, List.mem_cons_of_mem _ mem, same⟩

/-- An accepted decree takes no number but its own. -/
theorem Stores.numbers {hdr : Header} {val : Value} {node next : Node}
    (stores : Stores hdr val node next) (wf : node.pax.ilist.WellFormed) (inum : Nat) :
    (node.pax.ilist.Has inum → next.pax.ilist.Has inum) ∧
      (next.pax.ilist.Has inum →
        node.pax.ilist.Has inum ∨ inum = hdr.inum ∧ ¬ node.pax.ilist.Has hdr.inum) := by
  -- Only a number that is not there is inserted.
  cases stores with
  | fresh absent =>
    rw [instanceInsertAndUpstart_ilist, wf.has_insert (wf.find_eq_none.mp absent)]
    exact ⟨Or.inr, fun has => has.symm.imp id fun same => ⟨same, wf.find_eq_none_iff.mp absent⟩⟩
  | held => exact ⟨id, Or.inl⟩
  | adopted found =>
    obtain ⟨mem, same⟩ := wf.find_eq_some.mp found
    have iff : (node.modify _ (adopt hdr val)).pax.ilist.Has inum ↔ node.pax.ilist.Has inum :=
      wf.has_modify mem same.symm
    exact ⟨iff.mpr, fun has => Or.inl (iff.mp has)⟩

/-- Moves of the handler itself keep all numbers but those that a truncation frees. -/
theorem Top.numbers {node next : Node} (act : Top start event node next)
    (wf : node.pax.ilist.WellFormed) {inum : Nat} :
    (node.pax.ilist.Has inum → next.pax.ilist.Has inum ∨
        ∃ bound, Truncates start.pax event bound ∧ node.pax.core = start.pax.core ∧ inum < bound) ∧
      (next.pax.ilist.Has inum → node.pax.ilist.Has inum ∨ Enters start event node inum) := by
  have same : ∀ {list : Ilist}, (list.Has inum ↔ node.pax.ilist.Has inum) →
      (node.pax.ilist.Has inum → list.Has inum ∨
          ∃ bound, Truncates start.pax event bound ∧ node.pax.core = start.pax.core ∧
            inum < bound) ∧
        (list.Has inum → node.pax.ilist.Has inum ∨ Enters start event node inum) :=
    fun iff => ⟨fun has => Or.inl (iff.mpr has), fun has => Or.inl (iff.mp has)⟩
  have found_same : ∀ {cell : Cell} {number : Nat} {f : Instance → Instance},
      node.pax.ilist.find number = some cell → (f cell.inst).hdr.inum = cell.inum →
        ((node.pax.ilist.modify cell.addr f).Has inum ↔ node.pax.ilist.Has inum) :=
    fun found keeps => wf.has_modify (wf.find_eq_some.mp found).1 keeps
  -- Decrees, votes and fillings add a number, and only a truncation frees any.
  cases act with
  | beside prior => exact same (by rw [prior.ilist])
  | depose closed prior _ _ replaces =>
    exact same (by rw [replaces.ilist, prior.ilist, ← closed.ilist])
  | promise =>
    refine same ?_
    rw [acceptorPromise_pax]
  | store asked opcode acceptor current stores =>
    obtain ⟨keep, come⟩ := stores.numbers wf inum
    exact ⟨fun has => Or.inl (keep has), fun has => (come has).imp id fun ⟨equal, absent⟩ =>
      .message asked (Or.inl ⟨opcode, current⟩) acceptor rfl absent equal⟩
  | accept asked opcode acceptor current stores =>
    obtain ⟨keep, come⟩ := stores.numbers wf inum
    exact ⟨fun has => Or.inl (keep has), fun has => (come has).imp id fun ⟨equal, absent⟩ =>
      .message asked (Or.inl ⟨opcode, current⟩) acceptor rfl absent equal⟩
  | @commitFresh _ hdr val asked opcode acceptor absent =>
    have iff : (start.pax.ilist.insert (freshInstance hdr val)).Has inum ↔
        inum = hdr.inum ∨ start.pax.ilist.Has inum := wf.has_insert (wf.find_eq_none.mp absent)
    rw [instanceInsertAndUpstart_ilist]
    exact ⟨fun has => Or.inl (iff.mpr (Or.inr has)), fun has =>
      (iff.mp has).symm.imp id fun equal =>
      .message asked (Or.inr opcode) acceptor rfl (wf.find_eq_none_iff.mp absent) equal⟩
  | commitOver _ _ _ found => exact same (found_same found rfl)
  | recommitOver _ _ _ found =>
    exact same (found_same found (wf.find_eq_some.mp found).2.symm)
  | vote _ _ _ _ found => exact same (found_same found rfl)
  | reject _ _ _ _ found => exact same (found_same found rfl)
  | rebroadcast => exact same Iff.rfl
  | rewrite prior _ found =>
    refine same (found_same (prior.ilist ▸ found) ?_)
    unfold redecreeRejected
    split <;> rfl
  | merge asked opcode proposer preparing current before merges =>
    obtain ⟨keep, come⟩ := merges.numbers wf inum
    refine ⟨fun has => Or.inl (keep has), fun has => ?_⟩
    by_cases had : start.pax.ilist.Has inum
    · exact Or.inl had
    · obtain ⟨vote, mem, equal⟩ := (come has).resolve_left had
      exact Or.inr (.vote asked opcode proposer preparing current rfl (before.subset mem)
        (equal ▸ had) equal)
  | ack => exact same Iff.rfl
  | win => exact same Iff.rfl
  | @fill _ _ _ place upper number _ _ _ whole above below inside ahead =>
    have filled := fillNull_wellFormed wf whole above below
    have iff : (redecreeInstance (fillNull node place.addr number) (nextAddr node)
        (nullInstance node.bumpReqId.pax number)).pax.ilist.Has inum ↔
          inum = number ∨ node.pax.ilist.Has inum := by
      refine (filled.has_modify_held
        (filled.inst?_of_mem (mem_fillNull wf number whole)) rfl).trans ?_
      unfold Ilist.Has
      rw [fillNull_cells wf number whole, whole]
      -- The null is one more element, and the write on it keeps its number.
      constructor
      · rintro ⟨cell, mem, rfl⟩
        simp only [List.mem_append, List.mem_cons] at mem ⊢
        rcases mem with mem | rfl | rfl | mem
        · exact Or.inr ⟨cell, by simp [mem], rfl⟩
        · exact Or.inr ⟨cell, by simp, rfl⟩
        · exact Or.inl rfl
        · exact Or.inr ⟨cell, by simp [mem], rfl⟩
      · rintro (rfl | ⟨cell, mem, rfl⟩)
        · exact ⟨⟨nextAddr node, nullInstance node.bumpReqId.pax inum⟩, by simp, rfl⟩
        · simp only [List.mem_append, List.mem_cons] at mem
          refine ⟨cell, ?_, rfl⟩
          rcases mem with mem | rfl | mem <;> simp [*]
    refine ⟨fun has => Or.inl (iff.mpr (Or.inr has)), fun has => (iff.mp has).symm.imp id ?_⟩
    rintro rfl
    obtain ⟨first, mem⟩ := List.exists_mem_of_ne_nil upper inside
    exact .gap ahead ⟨first.inum, below first mem, first, by simp [whole, mem], rfl⟩
  | redecree _ _ _ held => exact same (wf.has_modify_held held rfl)
  | settle => exact same Iff.rfl
  | @undefer _ inst rest =>
    have iff := @has_announceDecree (node.setIdefer rest) inst wf inum
    exact ⟨fun has => Or.inl (iff.mpr (Or.inr has)), fun has => (iff.mp has).symm.imp id .next⟩
  | redirect => exact same Iff.rfl
  | rebegin => exact same Iff.rfl
  | yieldRedirect prior => exact same (by rw [yieldTo_ilist, prior.ilist])
  | yieldRefuse prior => exact same (by rw [yieldTo_ilist, prior.ilist])
  | helloYield prior =>
    refine same ?_
    rw [← prior.ilist]
    show (Node.pax (if _ then _ else _)).ilist.Has inum ↔ _
    split <;> exact Iff.rfl
  | helloBallot => exact same Iff.rfl
  | @truncate _ ibase prior truncates =>
    have iff : (node.pax.ilist.dropBelow ibase).Has inum ↔ node.pax.ilist.Has inum ∧ ibase ≤ inum :=
      wf.has_dropBelow
    refine ⟨fun has => ?_, fun has => Or.inl (iff.mp has).1⟩
    by_cases below : inum < ibase
    · exact Or.inr ⟨ibase, truncates, prior.core, below⟩
    · exact Or.inl (iff.mpr ⟨has, by omega⟩)
  | recommit => exact same Iff.rfl
  | welcome => exact same Iff.rfl

/-- The next number follows the last one, if there is any. -/
theorem nextInstance_last {pax : Session} {cell : Cell} (mem : cell ∈ pax.ilist.cells) :
    ∃ last ∈ pax.ilist.cells, nextInstance pax = last.inum + 1 := by
  -- The list is not empty, so it has a last element.
  unfold nextInstance
  split
  · rename_i last final
    exact ⟨last, List.mem_of_getLast? final, rfl⟩
  · rename_i none
    rw [List.getLast?_eq_none_iff.mp none] at mem
    contradiction

/-- A move leaves the hole, or takes it past a number that the log has. -/
theorem Move.hole {first : Nat} {config after : Config}
    (move : Move start event config after) (stands : Stands first config) :
    after.node.pax.ihole = config.node.pax.ihole ∨
      after.node.pax.ihole = config.node.pax.ihole + 1 ∧
        config.node.pax.ilist.Has config.node.pax.ihole := by
  -- Only the end of a learn moves the hole, past the instance that was learned.
  cases move with
  | top act => exact Or.inl act.ihole
  | inner move =>
    cases move with
    | nest _ act => exact Or.inl act.ihole
    | learn => exact Or.inl (learnt_ihole _ _ _ _)
    | delist => exact Or.inl (delist_ihole _ _)
    | depose _ _ replaces => exact Or.inl (replaces.ihole.trans (delist_ihole _ _))
    | next =>
      cases stands with
      | learning _ busy =>
        obtain ⟨inst, mem, number, -⟩ := busy
        exact Or.inr ⟨rfl, _, mem, number⟩
    | _ => exact Or.inl rfl

end Motmot
