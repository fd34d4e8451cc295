import Motmot.Proofs.Paxos.Cursor

/-! The cursors are kept on the log through promises, truncations and the learning loop. -/

namespace Motmot

variable {start : Node} {event : Event}

/-- No vote outranks an uncommitted instance that a cursor refers to. -/
def Spares (pax : Session) (votes : List PackedInstance) : Prop :=
  ∀ vote ∈ votes, ∀ cell ∈ pax.ilist.cells, Refers pax cell.addr →
    cell.inum = vote.hdr.inum → cell.inst.committed = false →
      ballotCompare vote.hdr.ballot cell.inst.hdr.ballot ≠ .gt

/-- Unpacking a vote leaves the session as it was, but for the allocations outside the list. -/
theorem Unpacks.eq {vote : PackedInstance} {node mid : Node} {addr : Addr}
    (unpacks : Unpacks vote node mid addr) :
    ∃ ilist, mid = { node with pax.ilist := ilist } := by
  cases unpacks with
  | fresh => exact ⟨_, rfl⟩
  | reused => exact ⟨_, rfl⟩

/-- What a vote that spares the cursors makes of them. -/
theorem VoteStep.steers {vote : PackedInstance} {votes : List PackedInstance} {node next : Node}
    (step : VoteStep vote node next) (wf : node.pax.ilist.WellFormed)
    (below : ∀ other ∈ votes, vote.hdr.inum < other.hdr.inum)
    (spares : Spares node.pax (vote :: votes)) (placed : Placed node.pax)
    (anchored : Anchored node.pax) :
    Placed next.pax ∧ Anchored next.pax ∧ Spares next.pax votes := by
  -- Unpacking changes nothing that the cursors rest on.
  have unpacked : ∀ {mid addr}, Unpacks vote node mid addr → Placed mid.pax ∧ Anchored mid.pax ∧
      Spares mid.pax (vote :: votes) := by
    intro mid addr unpacks
    obtain ⟨-, cells, -, -⟩ := unpacks.spec wf
    obtain ⟨ilist, rfl⟩ := unpacks.eq
    have cells : ilist.cells = node.pax.ilist.cells := cells
    refine ⟨placed.frame (fun _ _ _ place => ?_) (fun has => ?_) rfl rfl,
      anchored.frame (fun _ _ _ place => ?_) (Nat.le_refl _) fun prep before => ⟨prep, before, rfl⟩,
      fun other mem cell memCell => ?_⟩
    · exact (by rw [Ilist.At, cells]; exact place : ilist.At _ _)
    · exact (by rw [Ilist.Has, ← cells]; exact has : node.pax.ilist.Has _)
    · exact (by rw [Ilist.At, cells]; exact place : ilist.At _ _)
    · exact spares other mem cell (cells ▸ memCell)
  -- A vote loses, is linked behind a lower element, or is swapped for an element of its number.
  cases step with
  | keep unpacks =>
    obtain ⟨placed, anchored, spares⟩ := unpacked unpacks
    exact ⟨placed, anchored, fun other mem => spares other (List.mem_cons_of_mem _ mem)⟩
  | @link mid addr lower place upper unpacks whole =>
    obtain ⟨placed, anchored, spares⟩ := unpacked unpacks
    obtain ⟨wfMid, -, off, -⟩ := unpacks.spec wf
    refine ⟨linkScratch_placed wfMid whole placed, linkScratch_anchored wfMid whole anchored, ?_⟩
    intro other mem cell memCell refers number
    rw [linkScratch_ilist, Ilist.insertAfter_cells wfMid whole] at memCell
    have cases_ : cell = ⟨addr, voteInstance vote⟩ ∨ cell ∈ mid.pax.ilist.cells := by
      rw [whole]
      simp only [List.mem_append, List.mem_cons] at memCell ⊢
      grind
    rcases cases_ with rfl | old
    · -- The vote that was linked has a lower number than those to come.
      have less := below other mem
      have number : vote.hdr.inum = other.hdr.inum := number
      omega
    · refine spares other (List.mem_cons_of_mem _ mem) cell old ?_ number
      rcases refers with cursor | ⟨prep, preparing, cursor⟩
      · unfold linkScratch at cursor
        simp only at cursor
        split at cursor
        · -- The cursor was moved to the new element, which this is not.
          have same : addr = cell.addr := Option.some.inj cursor
          rw [Ilist.onList_iff.mpr ⟨cell, old, same.symm⟩] at off
          contradiction
        · exact Or.inl cursor
      · obtain ⟨_, same⟩ := linkScratch_eq mid place.addr ⟨addr, voteInstance vote⟩
        rw [same] at preparing
        exact Or.inr ⟨prep, preparing, cursor⟩
  | @swap mid addr out unpacks memOut same uncommitted outranks =>
    obtain ⟨placed, anchored, spares⟩ := unpacked unpacks
    obtain ⟨wfMid, -, -, -⟩ := unpacks.spec wf
    -- No cursor refers to the element that is put out.
    have guards : Guards mid.pax
        (mid.setIlist (mid.pax.ilist.swap out ⟨addr, voteInstance vote⟩)).pax := by
      rintro cursor inum refers ⟨cell, memCell, rfl, rfl⟩
      refine ⟨cell, (wfMid.mem_swap memOut).mpr (Or.inr ⟨memCell, ?_⟩), rfl, rfl⟩
      rintro rfl
      exact spares vote List.mem_cons_self cell memCell refers same uncommitted outranks
    have has : (mid.pax.ilist.swap out ⟨addr, voteInstance vote⟩).Has mid.pax.ihole ↔
        mid.pax.ilist.Has mid.pax.ihole := wfMid.has_swap memOut same.symm
    refine ⟨placed.frame guards has.mp rfl rfl,
      anchored.frame guards (Nat.le_refl _) fun prep before => ⟨prep, before, rfl⟩, ?_⟩
    intro other mem cell memCell refers number
    -- The vote that was swapped in has a lower number than those to come.
    rcases (wfMid.mem_swap memOut).mp memCell with rfl | ⟨old, -⟩
    · have less := below other mem
      have number : vote.hdr.inum = other.hdr.inum := number
      omega
    · exact spares other (List.mem_cons_of_mem _ mem) cell old refers number

/-- Votes that ascend and spare the cursors leave them placed. -/
theorem Merges.steers {node next : Node} {votes : List PackedInstance}
    (merges : Merges node votes next) (wf : node.pax.ilist.WellFormed)
    (ascending : votes.Pairwise fun x y => x.hdr.inum < y.hdr.inum)
    (spares : Spares node.pax votes) (placed : Placed node.pax) (anchored : Anchored node.pax) :
    Placed next.pax ∧ Anchored next.pax := by
  -- By induction on the votes, which ascend behind the first one.
  induction merges with
  | nil => exact ⟨placed, anchored⟩
  | cons step _ ih =>
    obtain ⟨below, rest⟩ := List.pairwise_cons.mp ascending
    obtain ⟨placed, anchored, spares⟩ := step.steers wf below spares placed anchored
    exact ih (step.wellFormed wf) rest spares placed anchored

/--
The events that leave the cursors on the log.

The votes of a promise that counts spare what the cursors refer to, and so do truncations.
-/
structure Guarded (pax : Session) (event : Event) : Prop where
  sound : event.Sound
  votes : ∀ source hdr count votes prep, event = .message source ⟨hdr, .votes count votes⟩ →
    hdr.opcode = .promise → isProposer pax = true → pax.prep = some prep →
    hdr.ballot = prep.ballot → Spares pax votes
  truncate : ∀ bound, Truncates pax event bound → ∀ cell ∈ pax.ilist.cells,
    Refers pax cell.addr → bound ≤ cell.inum

/-- An accepted decree leaves the cursors placed. -/
theorem Stores.steers {hdr : Header} {val : Value} {node next : Node}
    (stores : Stores hdr val node next) (wf : node.pax.ilist.WellFormed) (placed : Placed node.pax)
    (anchored : Anchored node.pax) : Placed next.pax ∧ Anchored next.pax := by
  -- What is new enters at a free number, and what is taken over keeps its own.
  cases stores with
  | fresh absent =>
    have free := wf.find_eq_none.mp absent
    exact ⟨insertAndUpstart_placed wf free placed, insertAndUpstart_anchored wf free anchored⟩
  | held => exact ⟨placed, anchored⟩
  | adopted found =>
    obtain ⟨mem, same⟩ := wf.find_eq_some.mp found
    have held := wf.inst?_of_mem mem
    exact ⟨modify_placed wf held same.symm placed, modify_anchored wf held same.symm anchored⟩

/-- Moves of the handler itself, for a guarded event, leave the cursors placed. -/
theorem Top.steers {node next : Node} (act : Top start event node next)
    (guarded : Guarded start.pax event) (wf : node.pax.ilist.WellFormed) (placed : Placed node.pax)
    (anchored : Anchored node.pax) : Placed next.pax ∧ Anchored next.pax := by
  -- An instance is rewritten under its number.
  have rewritten : ∀ {addr inst} {f : Instance → Instance}, node.inst? addr = some inst →
      (f inst).hdr.inum = inst.hdr.inum →
        Placed (node.modify addr f).pax ∧ Anchored (node.modify addr f).pax :=
    fun held keeps => ⟨modify_placed wf held keeps placed, modify_anchored wf held keeps anchored⟩
  -- A write beside the log keeps the cursors, and so may a new prepare.
  have aside : ∀ {pax : Session}, pax.ilist = node.pax.ilist → pax.istart = node.pax.istart →
      pax.ihole = node.pax.ihole →
      (∀ prep, pax.prep = some prep → prep.istart = node.pax.istart ∨
        ∃ old, node.pax.prep = some old ∧ prep.istart = old.istart) →
      Placed pax ∧ Anchored pax := by
    intro pax list cursor hole prep
    refine ⟨placed.frame (fun _ _ _ place => list ▸ place) (fun has => list ▸ has) cursor hole, ?_⟩
    intro running same
    obtain ⟨addr, inum, begun, place, within, -⟩ := placed
    rcases prep running same with fresh | ⟨old, before, kept⟩
    · exact ⟨addr, inum, fresh.trans begun, list ▸ place, hole ▸ within⟩
    · obtain ⟨addr, inum, cached, place, within⟩ := anchored old before
      exact ⟨addr, inum, kept.trans cached, list ▸ place, hole ▸ within⟩
  have same : ∀ {pax : Session}, pax.ilist = node.pax.ilist → pax.istart = node.pax.istart →
      pax.ihole = node.pax.ihole → pax.prep = node.pax.prep → Placed pax ∧ Anchored pax :=
    fun list cursor hole prep => aside list cursor hole fun running preparing =>
      Or.inr ⟨running, prep ▸ preparing, rfl⟩
  have dropped : ∀ {pax : Session}, pax.ilist = node.pax.ilist → pax.istart = node.pax.istart →
      pax.ihole = node.pax.ihole → pax.prep = none → Placed pax ∧ Anchored pax :=
    fun list cursor hole prep => aside list cursor hole fun running preparing => by
      rw [prep] at preparing
      contradiction
  -- Whoever yields has no prepare any more.
  have yielded : ∀ {mid : Node}, Prior node event mid → ∀ acc,
      Placed (yieldTo mid acc).pax ∧ Anchored (yieldTo mid acc).pax := by
    intro mid prior acc
    obtain ⟨proposer, writes⟩ := yieldTo_writes mid acc
    rw [writes]
    exact dropped prior.ilist (congrArg Core.istart prior.core) (congrArg Core.ihole prior.core) rfl
  -- The moves are taken one by one: some write beside the log, some rewrite, the rest are guarded.
  cases act with
  | beside prior => exact ⟨placed.congr prior.core, anchored.congr prior.core⟩
  | depose closed prior _ _ replaces =>
    -- Up to the replacement nothing has happened to the core.
    have core := prior.core.trans closed.core.symm
    have before := placed.congr core
    exact ⟨replaces.placed before, replaces.anchored before.rests (anchored.congr core)⟩
  | promise =>
    rw [acceptorPromise_pax]
    exact same rfl rfl rfl rfl
  | store _ _ _ _ stores => exact stores.steers wf placed anchored
  | accept _ _ _ _ stores => exact stores.steers wf placed anchored
  | commitFresh _ _ _ absent =>
    have free := wf.find_eq_none.mp absent
    exact ⟨insertAndUpstart_placed wf free placed, insertAndUpstart_anchored wf free anchored⟩
  | commitOver _ _ _ found => exact rewritten (wf.inst?_of_mem (wf.find_eq_some.mp found).1) rfl
  | recommitOver _ _ _ found =>
    obtain ⟨mem, number⟩ := wf.find_eq_some.mp found
    exact rewritten (wf.inst?_of_mem mem) number.symm
  | vote _ _ _ _ found => exact rewritten (wf.inst?_of_mem (wf.find_eq_some.mp found).1) rfl
  | reject _ _ _ _ found => exact rewritten (wf.inst?_of_mem (wf.find_eq_some.mp found).1) rfl
  | rebroadcast => exact same rfl rfl rfl rfl
  | rewrite prior _ found =>
    refine rewritten (wf.inst?_of_mem (wf.find_eq_some.mp (prior.ilist ▸ found)).1) ?_
    unfold redecreeRejected
    split <;> rfl
  -- After this comes whatever belongs to a prepare.
  | merge asked opcode proposer preparing current before merges =>
    -- The votes that were merged are the first of those that the guard speaks of.
    have ascending := (guarded.sound _ _ asked).votes _ _ opcode rfl
    have spares := guarded.votes _ _ _ _ _ asked opcode proposer preparing current
    exact merges.steers wf (ascending.sublist before.sublist)
      (fun vote mem => spares vote (before.subset mem)) placed anchored
  | ack _ _ _ preparing =>
    exact aside rfl rfl rfl fun running acked => by
      cases acked
      exact Or.inr ⟨_, preparing, rfl⟩
  | win => exact same rfl rfl rfl rfl
  | @fill _ _ _ place _ inum _ _ _ whole above below =>
    have wfMid : (node.bumpReqId.setIlist (node.bumpReqId.pax.ilist.alloc
        (nullInstance node.bumpReqId.pax inum))).pax.ilist.WellFormed := wf.alloc rfl
    have filled := fillNull_wellFormed wf whole above below
    have held := filled.inst?_of_mem (mem_fillNull wf inum whole)
    have placedMid : Placed (fillNull node place.addr inum).pax :=
      linkScratch_placed wfMid whole placed
    have anchoredMid : Anchored (fillNull node place.addr inum).pax :=
      linkScratch_anchored wfMid whole anchored
    exact ⟨modify_placed filled held rfl placedMid, modify_anchored filled held rfl anchoredMid⟩
  | redecree _ _ _ held => exact rewritten held rfl
  | settle => exact dropped rfl rfl rfl rfl
  | @undefer _ inst rest =>
    have free := @decreeOf_free (node.setIdefer rest).pax wf inst
    exact ⟨@insertAndUpstart_placed (node.setIdefer rest) wf _ free placed,
      @insertAndUpstart_anchored (node.setIdefer rest) wf _ free anchored⟩
  | redirect _ _ _ preparing =>
    exact aside rfl rfl rfl fun running counted => by
      cases counted
      exact Or.inr ⟨_, preparing, rfl⟩
  | rebegin =>
    exact aside rfl rfl rfl fun running begun => by
      cases begun
      exact Or.inl rfl
  | yieldRedirect prior => exact yielded prior _
  | yieldRefuse prior => exact yielded prior _
  | @helloYield mid _ _ _ _ _ prior =>
    have cursor : mid.pax.istart = start.pax.istart := congrArg Core.istart prior.core
    have hole : mid.pax.ihole = start.pax.ihole := congrArg Core.ihole prior.core
    cases isProposer mid.pax with
    | true => exact dropped prior.ilist cursor hole rfl
    | false => exact same prior.ilist cursor hole (congrArg Core.prep prior.core)
  | helloBallot => exact same rfl rfl rfl rfl
  | @truncate _ ibase prior truncates =>
    have list := prior.ilist
    -- Truncation is guarded for the cursors of the session, which are still those it began with.
    have refers : ∀ addr, Refers node.pax addr → Refers start.pax addr := by
      have cursor : node.pax.istart = start.pax.istart := congrArg Core.istart prior.core
      have prep : node.pax.prep = start.pax.prep := congrArg Core.prep prior.core
      rintro addr (same | ⟨running, preparing, same⟩)
      · exact Or.inl (cursor ▸ same)
      · exact Or.inr ⟨running, prep ▸ preparing, same⟩
    have guards : Guards node.pax
        (ilistTruncatePrefix { node with pax.ibase := ibase } ibase).pax := by
      rintro addr inum refer ⟨cell, mem, rfl, rfl⟩
      have past := guarded.truncate ibase truncates cell (list ▸ mem) (refers _ refer)
      exact ⟨cell, wf.mem_dropBelow.mpr ⟨mem, past⟩, rfl, rfl⟩
    exact ⟨placed.frame guards (fun has => (wf.has_dropBelow.mp has).1) rfl rfl,
      anchored.frame guards (Nat.le_refl _) fun prep before => ⟨prep, before, rfl⟩⟩
  | recommit => exact same rfl rfl rfl rfl
  | welcome => exact same rfl rfl rfl rfl

/-- Where a learning loop may stand: at the hole, or behind the last number that it learned. -/
def Ready (pax : Session) : Option Addr → Prop
  | none => ∃ cell, pax.ilist.last = some cell ∧ cell.inum + 1 = pax.ihole
  | some addr => ∃ cell ∈ pax.ilist.cells, cell.addr = addr ∧ (cell.inum = pax.ihole ∨
      pax.ihole < cell.inum ∧ ∃ lower before upper,
        pax.ilist.cells = lower ++ before :: cell :: upper ∧ before.inum + 1 = pax.ihole)

/-- Where the cursors are between two moves. -/
inductive Steered : Config → Prop where
  | idle {node} (placed : Placed node.pax) : Steered ⟨node, []⟩
  | scanning {node it} (rests : Rests node.pax) (ready : Ready node.pax it) :
      Steered ⟨node, [⟨it, .scanning⟩]⟩
  | learning {node addr leaving} (rests : Rests node.pax) (busy : Busy node addr) :
      Steered ⟨node, [⟨some addr, .learning leaving⟩]⟩
  /-- A loop that was entered from within a learn cannot go on. -/
  | stuck {node addr other leaving inst} (busy : Busy node addr)
      (held : node.inst? other = some inst) (hole : inst.hdr.inum = node.pax.ihole)
      (on : node.pax.ilist.onList other = true) :
      Steered ⟨node, [⟨some other, .scanning⟩, ⟨some addr, .learning leaving⟩]⟩

/-- Wherever a session is steered, its cursor rests on an element, or its loop cannot go on. -/
theorem Steered.nest {node : Node} {loops : List Loop} (steered : Steered ⟨node, loops⟩)
    (lets : Lets loops) : Rests node.pax := by
  cases steered with
  | idle placed => exact placed.rests
  | scanning => simp [Lets] at lets
  | learning rests => exact rests
  | stuck => simp [Lets] at lets

/-- The number at the hole, being learned, is finished. -/
theorem Busy.finished {node : Node} {addr other : Addr} {inst : Instance} (busy : Busy node addr)
    (wf : node.pax.ilist.WellFormed) (held : node.inst? other = some inst)
    (on : node.pax.ilist.onList other = true) (hole : inst.hdr.inum = node.pax.ihole) :
    inst.learned = true ∧ inst.committed = true ∧ inst.cached = true := by
  -- The element under the cursor has the number of the one that is learned.
  obtain ⟨done, mem, atHole, learned⟩ := busy
  have listed := wf.mem_of_inst? held on
  have same := wf.inum_inj listed mem (hole.trans atHole.symm)
  rw [Cell.mk.injEq] at same
  rw [same.2]
  exact ⟨learned, wf.sound _ mem learned⟩

/-- A loop that goes on from a learn is ready at what follows. -/
theorem Busy.ready {node : Node} {addr : Addr} {follow : Option Addr} (busy : Busy node addr)
    (wf : node.pax.ilist.WellFormed) (link : node.pax.ilist.next addr = some follow) :
    Ready node.bumpIhole.pax follow := by
  -- The element that was learned sits at the hole, and the loop goes on to its successor.
  obtain ⟨inst, mem, hole, -⟩ := busy
  obtain ⟨pre, cell, post, whole, same, -, next, -⟩ :=
    Ilist.split_of_onList (Ilist.onList_iff.mpr ⟨_, mem, rfl⟩)
  obtain rfl := wf.addr_inj (by rw [whole]; simp) mem same
  rw [next] at link
  obtain rfl := Option.some.inj link
  have order := whole ▸ wf.ascending
  obtain ⟨above, -⟩ := List.pairwise_cons.mp (List.pairwise_append.mp order).2.1
  have hole : Cell.inum ⟨addr, inst⟩ + 1 = node.bumpIhole.pax.ihole := congrArg (· + 1) hole
  cases post with
  -- A loop never goes on from the last element.
  | nil => exact ⟨⟨addr, inst⟩, by simp [Ilist.last, whole, Node.bumpIhole], hole⟩
  | cons after rest =>
    refine ⟨after, by rw [show node.bumpIhole.pax.ilist = node.pax.ilist from rfl, whole]; simp,
      rfl, ?_⟩
    -- The successor has the new hole as its number, or there is a gap in front of it.
    have past := above after List.mem_cons_self
    by_cases fills : after.inum = node.bumpIhole.pax.ihole
    · exact Or.inl fills
    · exact Or.inr ⟨by omega, pre, ⟨addr, inst⟩, rest, whole, hole⟩

/-- A loop that ran off the list has no element at the hole. -/
theorem Ready.run_out {node : Node} (wf : node.pax.ilist.WellFormed)
    (ready : Ready node.pax none) : ¬ node.pax.ilist.Has node.pax.ihole := by
  obtain ⟨cell, last, hole⟩ := ready
  rintro ⟨other, memOther, number⟩
  have past := lt_nextInstance wf memOther
  simp only [nextInstance, last] at past
  omega

/-- No element is between two neighbours. -/
theorem Ready.skips {node : Node} (wf : node.pax.ilist.WellFormed) {lower upper : List Cell}
    {before cell : Cell} (whole : node.pax.ilist.cells = lower ++ before :: cell :: upper)
    (hole : before.inum + 1 = node.pax.ihole) (past : node.pax.ihole < cell.inum) :
    ¬ node.pax.ilist.Has node.pax.ihole := by
  -- The log is cut between the two neighbours, and no number lies between theirs.
  rintro ⟨other, memOther, number⟩
  have order := whole ▸ wf.ascending
  obtain ⟨-, tail, below⟩ := List.pairwise_append.mp order
  obtain ⟨-, tail⟩ := List.pairwise_cons.mp tail
  obtain ⟨above, -⟩ := List.pairwise_cons.mp tail
  rw [whole] at memOther
  simp only [List.mem_append, List.mem_cons] at memOther
  rcases memOther with mem | rfl | rfl | mem
  · have := below other mem before List.mem_cons_self
    omega
  · omega
  · omega
  · have := above other mem
    omega

/-- A loop that runs off the list leaves the cursor on its last element. -/
theorem Ready.last {node : Node} (wf : node.pax.ilist.WellFormed) (ready : Ready node.pax none) :
    Placed (node.setIstart (node.pax.ilist.last.map Cell.addr)).pax := by
  -- The element has the number below the hole, and nothing comes behind it.
  obtain ⟨cell, last, hole⟩ := ready
  have mem := List.mem_of_getLast? last
  refine ⟨cell.addr, cell.inum, by rw [last]; rfl, ⟨cell, mem, rfl, rfl⟩, ?_, ?_, ?_⟩
  · show cell.inum ≤ node.pax.ihole
    omega
  · exact Nat.le_of_eq hole.symm
  · exact fun has => absurd has (Ready.run_out wf ⟨cell, last, hole⟩)

/-- A loop that finds a gap leaves the cursor on the element before it. -/
theorem Ready.gap {node : Node} {addr : Addr} {inst : Instance} (wf : node.pax.ilist.WellFormed)
    (ready : Ready node.pax (some addr)) (held : node.inst? addr = some inst)
    (skipped : inst.hdr.inum ≠ node.pax.ihole) :
    Placed (node.setIstart (node.pax.ilist.prev addr)).pax := by
  -- Only a gap stops the loop here, and the element before it has the number below the hole.
  obtain ⟨cell, mem, rfl, fills | ⟨past, lower, before, upper, whole, hole⟩⟩ := ready
  · have number := Ilist.At.number wf ⟨cell, mem, rfl, rfl⟩ held
    exact absurd (number.trans fills) skipped
  · obtain ⟨pre, found, post, split, same, -, -, prev⟩ :=
      Ilist.split_of_onList (Ilist.onList_iff.mpr ⟨cell, mem, rfl⟩)
    obtain rfl := wf.addr_inj (by rw [split]; simp) mem same
    -- The list is cut at the same place by both.
    have cut : pre = lower ++ [before] := by
      have twice : (pre ++ found :: post).Nodup := split ▸ wf.distinct.of_map
      obtain ⟨-, after, across⟩ := List.nodup_append.mp twice
      have notPre : found ∉ pre := fun inside => across _ inside _ List.mem_cons_self rfl
      have notPost : found ∉ post := (List.nodup_cons.mp after).1
      have both : pre ++ found :: post = (lower ++ [before]) ++ found :: upper := by
        rw [← split, whole, List.append_assoc]
        rfl
      exact ((List.append_cons_inj_of_notMem notPre notPost).mp both).1
    have memBefore : before ∈ node.pax.ilist.cells := by
      rw [whole]
      simp
    refine ⟨before.addr, before.inum, by rw [prev, cut]; simp [Node.setIstart],
      ⟨before, memBefore, rfl, rfl⟩, ?_, Nat.le_of_eq hole.symm, ?_⟩
    · show before.inum ≤ node.pax.ihole
      omega
    · exact fun has => absurd has (Ready.skips wf whole hole past)

/-- A loop that stops at the hole leaves the cursor on it. -/
theorem Ready.rest {node : Node} {addr : Addr} {inst : Instance} (wf : node.pax.ilist.WellFormed)
    (ready : Ready node.pax (some addr)) (held : node.inst? addr = some inst)
    (hole : inst.hdr.inum = node.pax.ihole) : Placed (node.setIstart (some addr)).pax := by
  obtain ⟨cell, mem, rfl, -⟩ := ready
  have number := Ilist.At.number wf ⟨cell, mem, rfl, rfl⟩ held
  have fills : cell.inum = node.pax.ihole := number.symm.trans hole
  exact ⟨cell.addr, cell.inum, rfl, ⟨cell, mem, rfl, rfl⟩, Nat.le_of_eq fills,
    Nat.le_succ_of_le (Nat.le_of_eq fills.symm), fun _ => fills⟩

/-- What is learned is marked where it is, which keeps every element. -/
theorem learnt_keeps {node : Node} {addr : Addr} {inst : Instance} (req : Option Request)
    (wf : node.pax.ilist.WellFormed) (held : node.inst? addr = some inst) :
    node.pax.ilist.Keeps (learnt node addr inst req).pax.ilist := by
  rw [learnt_ilist]
  exact .modify wf held rfl

theorem learnt_istart (node : Node) (addr : Addr) (inst : Instance) (req : Option Request) :
    (learnt node addr inst req).pax.istart = node.pax.istart ∧
      (learnt node addr inst req).pax.prep = node.pax.prep := by
  unfold learnt
  -- Only a join does more than the mark, and enlisting leaves the core alone.
  split
  · rename_i req _
    have core := enlist_core (noteLearn node addr inst) inst.hdr.inum req
    have cursor : (enlist (noteLearn node addr inst) inst.hdr.inum req).pax.istart = _ :=
      congrArg Core.istart core
    have prep : (enlist (noteLearn node addr inst) inst.hdr.inum req).pax.prep = _ :=
      congrArg Core.prep core
    exact ⟨cursor, prep⟩
  · exact ⟨rfl, rfl⟩

/-- Every move that a guarded event leads to leaves the session steered. -/
theorem Steered.move {config after : Config} (steered : Steered config)
    (move : Move start event config after) (guarded : Guarded start.pax event)
    (wf : config.node.pax.ilist.WellFormed) (anchored : Anchored config.node.pax) :
    Steered after := by
  -- The phase is told by the script that is left, and each move leads to the next phase.
  cases move with
  | top act =>
    cases steered with
    | idle placed => exact .idle (act.steers guarded wf placed anchored).1
  | inner move =>
    cases move with
    | nest lets act =>
      cases steered with
      | idle placed => exact .idle (act.placed wf placed)
      | scanning => simp [Lets] at lets
      | learning rests busy => exact .learning (act.rests wf busy rests) (act.busy wf busy)
      | stuck => simp [Lets] at lets
    -- A nested loop begins at the cursor, which is on the list.
    | @enter node _ addr inst lets cursor held hole =>
      obtain ⟨other, inum, start, place, -⟩ := steered.nest lets
      obtain rfl : addr = other := Option.some.inj (cursor.symm.trans start)
      have number := place.number wf held
      obtain ⟨cell, mem, rfl, rfl⟩ := place
      cases steered with
      | idle placed =>
        exact .scanning placed.rests ⟨cell, mem, rfl, Or.inl (number.symm.trans hole)⟩
      | scanning => simp [Lets] at lets
      | learning rests busy =>
        exact .stuck busy held hole (Ilist.onList_iff.mpr ⟨cell, mem, rfl⟩)
      | stuck => simp [Lets] at lets
    -- A stuck loop would learn again what is learned already.
    | @learn node _ addr inst held hole committed cached unlearned =>
      cases steered with
      | scanning rests ready =>
        refine .learning (rests.frame (learnt_keeps _ wf held).guards (learnt_istart _ _ _ _).1
          (learnt_ihole _ _ _ _)) (learnt_busy wf held hole committed)
      | stuck busy _ _ on =>
        rw [(busy.finished wf held on hole).1] at unlearned
        contradiction
    | @delist node _ _ paxid =>
      cases steered with
      | learning rests busy =>
        exact .learning (rests.congr (delist_core node paxid))
          (busy.congr (delist_ilist node paxid) (delist_ihole node paxid))
    | @depose node _ _ paxid _ _ _ replaces =>
      cases steered with
      | learning rests busy =>
        exact .learning (replaces.rests (rests.congr (delist_core node paxid)))
          (busy.congr (replaces.ilist.trans (delist_ilist node paxid))
            (replaces.ihole.trans (delist_ihole node paxid)))
    -- The successor of a learned element is where the scan goes on.
    | next link =>
      cases steered with
      | learning rests busy =>
        obtain ⟨addr, inum, cursor, place, bound⟩ := rests
        exact .scanning ⟨addr, inum, cursor, place, Nat.le_succ_of_le bound⟩ (busy.ready wf link)
    | last =>
      cases steered with
      | scanning _ ready => exact .idle (ready.last wf)
    | gap held skipped =>
      cases steered with
      | scanning _ ready => exact .idle (ready.gap wf held skipped)
      | stuck _ found hole =>
        rw [held] at found
        obtain rfl := Option.some.inj found
        exact absurd hole skipped
    | rest held hole unfinished =>
      cases steered with
      | scanning _ ready => exact .idle (ready.rest wf held hole)
      | stuck busy _ _ on =>
        obtain ⟨-, committed, cached⟩ := busy.finished wf held on hole
        rcases unfinished with uncommitted | uncached
        · rw [committed] at uncommitted
          contradiction
        · rw [cached] at uncached
          contradiction

/-- Every move that a guarded event leads to leaves the cursor of a prepare resting. -/
theorem Steered.anchored {config after : Config} (steered : Steered config)
    (move : Move start event config after) (guarded : Guarded start.pax event)
    (wf : config.node.pax.ilist.WellFormed) (anchored : Anchored config.node.pax) :
    Anchored after.node.pax := by
  -- In each phase the cursor of a prepare rests where it was cached.
  cases move with
  | top act =>
    cases steered with
    | idle placed => exact (act.steers guarded wf placed anchored).2
  | inner move =>
    cases move with
    | nest _ act => exact act.anchored wf anchored
    | learn held =>
      refine anchored.frame (learnt_keeps _ wf held).guards
        (Nat.le_of_eq (learnt_ihole _ _ _ _).symm) fun prep before => ⟨prep, ?_, rfl⟩
      rw [← (learnt_istart _ _ _ _).2]
      exact before
    | delist => exact anchored.congr (delist_core _ _)
    | @depose node _ _ paxid _ _ _ replaces =>
      cases steered with
      | learning rests =>
        exact replaces.anchored (rests.congr (delist_core node paxid))
          (anchored.congr (delist_core node paxid))
    | enter => exact anchored
    | next =>
      exact anchored.frame (fun _ _ _ place => place) (Nat.le_succ _)
        fun prep before => ⟨prep, before, rfl⟩
    | last => exact anchored
    | gap => exact anchored
    | rest => exact anchored

/-- In a welcomed log that starts at its base, commits are taken as learned if there is no hole. -/
theorem Welcome.Based.last {welcome : Welcome} (based : welcome.Based) {run rest : List Cell}
    (whole : welcomeCells 0 welcome.ilist = run ++ rest) (contiguous : Contiguous welcome.ibase run)
    (skipped : ∀ cell, rest.head? = some cell → cell.inum ≠ welcome.ibase + run.length) :
    ∃ last, run.getLast? = some last ∧ last.inum + 1 = welcome.ibase + run.length := by
  cases final : run.getLast? with
  -- An empty run means that the log was skipped, though its first number is the base.
  | some last => exact ⟨last, rfl, contiguous.last final⟩
  | none =>
    obtain rfl : run = [] := by simpa using final
    obtain ⟨packed, head, number⟩ := based
    obtain ⟨tail, listed⟩ := List.head?_eq_some_iff.mp head
    rw [listed] at whole
    obtain rfl : ⟨0, instanceUnpack packed⟩ :: welcomeCells 1 tail = rest := whole
    exact absurd number (skipped _ rfl)

/-- A session begins with its cursor placed. -/
theorem Begins.placed {node : Node} {first : Nat} (begins : Begins Welcome.Based node first) :
    Placed node.pax ∧ Anchored node.pax := by
  -- The founder is on its own join; a newcomer is where the scan of its welcome has ended.
  cases begins with
  | start session desc =>
    refine ⟨⟨0, 1, rfl, ⟨_, List.mem_singleton_self _, rfl, rfl⟩, Nat.le_succ 1,
      Nat.le_refl 2, ?_⟩, fun prep preparing => absurd preparing (by simp [paxosStart, sessionNew])⟩
    rintro ⟨cell, mem, number⟩
    obtain rfl := List.mem_singleton.mp mem
    exact number
  | welcome welcome based =>
    obtain ⟨run, rest, whole, contiguous, cells, hole, cursor⟩ := welcome.scan
    obtain ⟨past, -⟩ := based.past whole contiguous
    rw [← hole] at past
    -- The scan ran over all that is learned, or it has met an instance that is open.
    constructor
    · rcases cursor with ⟨skipped, cursor⟩ | ⟨cell, head, number, -, cursor⟩
      · obtain ⟨last, final, close⟩ := based.last whole contiguous (hole ▸ skipped)
        rw [← hole] at close
        refine ⟨last.addr, last.inum, by rw [cursor, final]; rfl, ⟨takeLearned last, ?_, rfl, rfl⟩,
          by omega, Nat.le_of_eq close.symm, ?_⟩
        · rw [cells]
          exact List.mem_append_left _ (List.mem_map_of_mem (List.mem_of_getLast? final))
        · rintro ⟨cell, mem, number⟩
          rw [cells] at mem
          rcases List.mem_append.mp mem with mem | mem
          · obtain ⟨prior, memRun, rfl⟩ := List.mem_map.mp mem
            have below := (contiguous.inum prior memRun).2.1
            have number : prior.inum = welcome.node.pax.ihole := number
            omega
          · -- Past the run the log starts beyond the hole.
            obtain ⟨head, tail, rfl⟩ := List.exists_cons_of_ne_nil (List.ne_nil_of_mem mem)
            have beyond := skipped head rfl
            have bound := past head List.mem_cons_self
            have order := (List.pairwise_append.mp
              (whole ▸ welcomeCells_pairwise 0 welcome.ascending)).2.1
            rcases List.mem_cons.mp mem with rfl | mem
            · exact absurd number beyond
            · have := ((List.pairwise_cons.mp order).1 cell mem).1
              omega
      · -- The scan has stopped at the hole.
        have mem := List.mem_of_mem_head? head
        refine ⟨cell.addr, cell.inum, cursor, ⟨cell, ?_, rfl, rfl⟩, Nat.le_of_eq number,
          Nat.le_succ_of_le (Nat.le_of_eq number.symm), fun _ => number⟩
        rw [cells]
        exact List.mem_append_right _ mem
    · -- Nobody begins with a prepare.
      have idle : welcome.node.pax.prep = none :=
        congrArg Core.prep welcomeAcceptors_core
      intro prep preparing
      rw [idle] at preparing
      contradiction

/-- Throughout a guarded handler the session is steered. -/
theorem Handles.steers {node : Node} {result : Result} (handles : Handles node event result)
    (guarded : Guarded node.pax event) (wf : node.pax.ilist.WellFormed) (placed : Placed node.pax)
    (anchored : Anchored node.pax) :
    (∀ next, result = .ok next → Placed next.pax ∧ Anchored next.pax) ∧
      ∀ reason halted, result = .stop reason halted → ∃ reached, Anchored reached.pax ∧
        Halts reason reached halted := by
  -- Both invariants go along with the moves of the handler.
  obtain ⟨returns, stops⟩ := @Handles.invariant _ _ _
    (fun config => Steered config ∧ Anchored config.node.pax) handles wf
    (fun _ => ⟨.idle placed, anchored⟩)
    fun move wf ⟨steered, anchored⟩ =>
      ⟨steered.move move guarded wf anchored, steered.anchored move guarded wf anchored⟩
  constructor
  · intro next same
    obtain ⟨steered, anchored⟩ := returns next same
    cases steered with
    | idle placed => exact ⟨placed, anchored⟩
  · intro reason halted same
    obtain ⟨reached, ⟨-, anchored⟩, -, halts⟩ := stops reason halted same
    exact ⟨reached.node, anchored, halts⟩

/-- A guarded handler that returns leaves the cursors placed. -/
theorem Handles.steered {node next : Node} (handles : Handles node event (.ok next))
    (guarded : Guarded node.pax event) (wf : node.pax.ilist.WellFormed) (placed : Placed node.pax)
    (anchored : Anchored node.pax) : Placed next.pax ∧ Anchored next.pax :=
  (handles.steers guarded wf placed anchored).1 next rfl

/-- A guarded handler comes to no instance outside the log that it would link or swap out. -/
theorem Handles.linked {node halted : Node} (guarded : Guarded node.pax event)
    (wf : node.pax.ilist.WellFormed) (placed : Placed node.pax) (anchored : Anchored node.pax) :
    ¬ Handles node event (.stop .unlinked halted) := by
  intro handles
  obtain ⟨reached, anchored, halts⟩ := (handles.steers guarded wf placed anchored).2 _ halted rfl
  -- The handler would have come there from a cursor that the prepare had cached off the list.
  obtain ⟨prep, addr, preparing, cached, off⟩ := halts.linked rfl
  obtain ⟨start, inum, same, ⟨cell, mem, here, -⟩, -⟩ := anchored prep preparing
  obtain rfl : addr = start := Option.some.inj (cached.symm.trans same)
  rw [Ilist.onList_iff.mpr ⟨cell, mem, here⟩] at off
  contradiction

/-- Throughout a guarded run the cursors are placed. -/
theorem Runs.steered {allowed : Session → Event → Prop} {begun node : Node} {first : Nat}
    (guards : ∀ pax event, allowed pax event → Guarded pax event)
    (begins : Begins Welcome.Based begun first) (run : Runs allowed begun node) :
    node.pax.ilist.WellFormed ∧ Placed node.pax ∧ Anchored node.pax := by
  refine @Runs.invariant _ _ _ (fun node => node.pax.ilist.WellFormed ∧ Placed node.pax ∧
    Anchored node.pax) run ⟨begins.wellFormed, begins.placed⟩ ?_
  intro node event next ok handles ⟨wf, placed, anchored⟩
  exact ⟨handles.wellFormed wf, handles.steered (guards _ _ ok) wf placed anchored⟩

/-- What brings no message and asks for no truncation is guarded. -/
theorem Guarded.quiet {pax : Session} {event : Event}
    (quiet : ∀ source msg, event ≠ .message source msg) : Guarded pax event where
  sound := fun source msg same => absurd same (quiet source msg)
  votes := fun source hdr count votes prep same => absurd same (quiet source _)
  truncate := by
    -- A truncation is asked for by a message of one kind or the other.
    rintro bound (⟨source, hdr, same, -⟩ | ⟨source, hdr, last, sync, same, -⟩) cell _ _
    · exact absurd same (quiet source _)
    · exact absurd same (quiet source _)

/-- What a client asks for is guarded. -/
theorem Guarded.client (pax : Session) (call : ClientCall) : Guarded pax (.client call) where
  sound := by intros _ _ _; contradiction
  votes := by intros; contradiction
  truncate := by
    -- Neither kind of truncation is asked for by a client.
    rintro _ (⟨_, _, _, _⟩ | ⟨_, _, _, _, _, _⟩)
    · contradiction
    · contradiction

/-- The promise spares the join that the second has cached. -/
theorem successor.guarded : Guarded successor.preparing.pax successor.promise where
  -- The promise is sound, its votes spare the join, and it truncates nothing.
  sound := by
    rintro source msg ⟨⟩
    constructor
    · rintro count votes - ⟨⟩
      decide
    · intro session ibase alist ilist welcomes
      contradiction
  votes := by
    rintro source hdr count votes prep ⟨⟩ _ _ _ _
    intro vote mem cell memCell _ _ uncommitted
    have settled : ∀ cell ∈ successor.preparing.pax.ilist.cells, cell.inst.committed = true := by
      decide +kernel
    rw [settled cell memCell] at uncommitted
    contradiction
  truncate := by
    rintro bound (⟨source, hdr, same, -⟩ | ⟨source, hdr, last, sync, same, -⟩) cell _ _
    · cases same
    · cases same

end Motmot
