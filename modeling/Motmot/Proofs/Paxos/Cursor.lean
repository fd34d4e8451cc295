import Motmot.Proofs.Paxos.Stability

/-! The cursors into the log refer to its elements. -/

namespace Motmot

namespace Ilist

/-- Whether an address is that of an element with a given number. -/
def At (list : Ilist) (addr : Addr) (inum : Nat) : Prop :=
  ∃ cell ∈ list.cells, cell.addr = addr ∧ cell.inum = inum

/-- Every element of one list has an element of its address and number on the other. -/
def Keeps (old new : Ilist) : Prop := ∀ addr inum, old.At addr inum → new.At addr inum

variable {list : Ilist}

theorem At.has {addr : Addr} {inum : Nat} (place : list.At addr inum) : list.Has inum := by
  obtain ⟨cell, mem, -, number⟩ := place
  exact ⟨cell, mem, number⟩

theorem Has.place {inum : Nat} (has : list.Has inum) : ∃ addr, list.At addr inum := by
  obtain ⟨cell, mem, number⟩ := has
  exact ⟨cell.addr, cell, mem, rfl, number⟩

/-- A list keeps what it has more of. -/
theorem Keeps.of_subset {new : Ilist} (more : ∀ cell ∈ list.cells, cell ∈ new.cells) :
    list.Keeps new := by
  rintro addr inum ⟨cell, mem, same, number⟩
  exact ⟨cell, more cell mem, same, number⟩

theorem Keeps.trans {mid new : Ilist} (first : list.Keeps mid) (second : mid.Keeps new) :
    list.Keeps new := fun _ _ place => second _ _ (first _ _ place)

/-- A write keeps elements when it keeps the number of what it rewrites. -/
theorem Keeps.modify (wf : list.WellFormed) {addr : Addr} {inst : Instance}
    (held : list.inst? addr = some inst) {f : Instance → Instance}
    (keeps : (f inst).hdr.inum = inst.hdr.inum) : list.Keeps (list.modify addr f) := by
  rintro other inum ⟨cell, mem, same, number⟩
  refine ⟨_, mem_modify.mpr ⟨cell, mem, rfl⟩, ?_⟩
  -- The written element is asked for its new number, the others for the old one.
  split
  · rename_i equal
    have found := wf.inst?_of_mem mem
    rw [equal, held] at found
    obtain rfl := Option.some.inj found
    exact ⟨same, keeps.trans number⟩
  · exact ⟨same, number⟩

end Ilist

/-- The cursor rests on an element that is not past the hole. -/
def Rests (pax : Session) : Prop :=
  ∃ addr inum, pax.istart = some addr ∧ pax.ilist.At addr inum ∧ inum ≤ pax.ihole

/-- The cursor rests on the hole if the log has it, and right before it otherwise. -/
def Placed (pax : Session) : Prop :=
  ∃ addr inum, pax.istart = some addr ∧ pax.ilist.At addr inum ∧ inum ≤ pax.ihole ∧
    pax.ihole ≤ inum + 1 ∧ (pax.ilist.Has pax.ihole → inum = pax.ihole)

/-- The cursor that a prepare has cached rests on an element that is not past the hole. -/
def Anchored (pax : Session) : Prop :=
  ∀ prep, pax.prep = some prep → ∃ addr inum, prep.istart = some addr ∧ pax.ilist.At addr inum ∧
    inum ≤ pax.ihole

/-- Whether one of the cursors refers to an address. -/
def Refers (pax : Session) (addr : Addr) : Prop :=
  pax.istart = some addr ∨ ∃ prep, pax.prep = some prep ∧ prep.istart = some addr

/-- The elements that the cursors of one session refer to are on the list of the other. -/
def Guards (pax next : Session) : Prop :=
  ∀ addr inum, Refers pax addr → pax.ilist.At addr inum → next.ilist.At addr inum

variable {pax next : Session}

theorem Ilist.Keeps.guards (keeps : pax.ilist.Keeps next.ilist) : Guards pax next :=
  fun addr inum _ => keeps addr inum

theorem Placed.rests (placed : Placed pax) : Rests pax := by
  obtain ⟨addr, inum, cursor, place, bound, -⟩ := placed
  exact ⟨addr, inum, cursor, place, bound⟩

/-- A cursor stays placed while its element is kept and the hole is not filled. -/
theorem Placed.frame (placed : Placed pax) (guards : Guards pax next)
    (comes : next.ilist.Has pax.ihole → pax.ilist.Has pax.ihole)
    (cursor : next.istart = pax.istart) (hole : next.ihole = pax.ihole) : Placed next := by
  obtain ⟨addr, inum, start, place, bound, close, exact_⟩ := placed
  unfold Placed
  rw [cursor, hole]
  exact ⟨addr, inum, start, guards _ _ (Or.inl start) place, bound, close,
    fun has => exact_ (comes has)⟩

/-- A cursor keeps resting while its element is kept. -/
theorem Rests.frame (rests : Rests pax) (guards : Guards pax next)
    (cursor : next.istart = pax.istart) (hole : next.ihole = pax.ihole) : Rests next := by
  obtain ⟨addr, inum, start, place, bound⟩ := rests
  unfold Rests
  rw [cursor, hole]
  exact ⟨addr, inum, start, guards _ _ (Or.inl start) place, bound⟩

/-- The cursor of a prepare keeps resting while its element is kept. -/
theorem Anchored.frame (anchored : Anchored pax) (guards : Guards pax next)
    (hole : pax.ihole ≤ next.ihole)
    (same : ∀ prep, next.prep = some prep → ∃ old, pax.prep = some old ∧ prep.istart = old.istart) :
    Anchored next := by
  intro prep preparing
  obtain ⟨old, before, cursor⟩ := same prep preparing
  obtain ⟨addr, inum, start, place, within⟩ := anchored old before
  exact ⟨addr, inum, cursor.trans start, guards _ _ (Or.inr ⟨old, before, start⟩) place,
    Nat.le_trans within hole⟩

/-- A session that is told by its core is told by any session of that core. -/
theorem Placed.congr (core : next.core = pax.core) (placed : Placed pax) : Placed next := by
  have list : next.ilist = pax.ilist := congrArg Core.ilist core
  refine placed.frame ?_ ?_ (congrArg Core.istart core) (congrArg Core.ihole core)
  · exact fun _ _ _ place => list ▸ place
  · rw [list]
    exact id

theorem Rests.congr (core : next.core = pax.core) (rests : Rests pax) : Rests next := by
  have list : next.ilist = pax.ilist := congrArg Core.ilist core
  exact rests.frame (fun _ _ _ place => list ▸ place) (congrArg Core.istart core)
    (congrArg Core.ihole core)

theorem Anchored.congr (core : next.core = pax.core) (anchored : Anchored pax) : Anchored next := by
  have list : next.ilist = pax.ilist := congrArg Core.ilist core
  have prep : next.prep = pax.prep := congrArg Core.prep core
  have hole : next.ihole = pax.ihole := congrArg Core.ihole core
  exact anchored.frame (fun _ _ _ place => list ▸ place) (Nat.le_of_eq hole.symm)
    fun old before => ⟨old, prep ▸ before, rfl⟩

section Writes

variable {node : Node}

/-- An insertion keeps what is on the list. -/
theorem insertAndUpstart_keeps (wf : node.pax.ilist.WellFormed) {inst : Instance}
    (free : ∀ cell ∈ node.pax.ilist.cells, cell.inum ≠ inst.hdr.inum) :
    node.pax.ilist.Keeps (instanceInsertAndUpstart node inst).pax.ilist := by
  rw [instanceInsertAndUpstart_ilist]
  exact .of_subset fun _ mem => (wf.mem_insert free).mpr (Or.inr mem)

/-- An insertion moves the cursor exactly when it fills the hole. -/
theorem insertAndUpstart_placed (wf : node.pax.ilist.WellFormed) {inst : Instance}
    (free : ∀ cell ∈ node.pax.ilist.cells, cell.inum ≠ inst.hdr.inum) (placed : Placed node.pax) :
    Placed (instanceInsertAndUpstart node inst).pax := by
  -- Either the new instance is at the hole and takes the cursor, or it is away from it.
  have keeps := insertAndUpstart_keeps wf free
  have has : (instanceInsertAndUpstart node inst).pax.ilist.Has node.pax.ihole ↔
      node.pax.ihole = inst.hdr.inum ∨ node.pax.ilist.Has node.pax.ihole := by
    rw [instanceInsertAndUpstart_ilist]
    exact wf.has_insert free
  by_cases hole : inst.hdr.inum = node.pax.ihole
  · have fresh : (instanceInsertAndUpstart node inst).pax.ilist.At
      (nextAddr node) inst.hdr.inum := by
      rw [instanceInsertAndUpstart_ilist]
      exact ⟨⟨nextAddr node, inst⟩, (wf.mem_insert free).mpr (Or.inl rfl), rfl, rfl⟩
    have cursor : (instanceInsertAndUpstart node inst).pax.istart = some (nextAddr node) := by
      unfold instanceInsertAndUpstart
      simp only [hole, if_true]
      rfl
    refine ⟨nextAddr node, inst.hdr.inum, cursor, fresh, ?_⟩
    rw [instanceInsertAndUpstart_ihole]
    exact ⟨Nat.le_of_eq hole, by omega, fun _ => hole⟩
  · refine placed.frame keeps.guards (fun filled => (has.mp filled).resolve_left (Ne.symm hole)) ?_
      (instanceInsertAndUpstart_ihole _ _)
    unfold instanceInsertAndUpstart
    simp only [hole, if_false]
    rfl

/-- An insertion past the hole leaves the cursor where it rests. -/
theorem insertAndUpstart_rests (wf : node.pax.ilist.WellFormed) {inst : Instance}
    (free : ∀ cell ∈ node.pax.ilist.cells, cell.inum ≠ inst.hdr.inum)
    (past : inst.hdr.inum ≠ node.pax.ihole) (rests : Rests node.pax) :
    Rests (instanceInsertAndUpstart node inst).pax := by
  refine rests.frame (insertAndUpstart_keeps wf free).guards ?_ (instanceInsertAndUpstart_ihole _ _)
  unfold instanceInsertAndUpstart
  simp only [past, if_false]
  rfl

theorem insertAndUpstart_anchored (wf : node.pax.ilist.WellFormed) {inst : Instance}
    (free : ∀ cell ∈ node.pax.ilist.cells, cell.inum ≠ inst.hdr.inum)
    (anchored : Anchored node.pax) : Anchored (instanceInsertAndUpstart node inst).pax := by
  obtain ⟨_, _, same⟩ := instanceInsertAndUpstart_eq node inst
  have hole : node.pax.ihole ≤ (instanceInsertAndUpstart node inst).pax.ihole := by
    rw [instanceInsertAndUpstart_ihole]
  exact anchored.frame (insertAndUpstart_keeps wf free).guards hole fun prep before =>
    ⟨prep, by rw [same] at before; exact before, rfl⟩

/-- A link keeps what is on the list. -/
theorem linkScratch_keeps (wf : node.pax.ilist.WellFormed) {lower upper : List Cell}
    {place cell : Cell} (whole : node.pax.ilist.cells = lower ++ place :: upper) :
    node.pax.ilist.Keeps (linkScratch node place.addr cell).pax.ilist := by
  rw [linkScratch_ilist]
  refine .of_subset fun other mem => ?_
  rw [Ilist.insertAfter_cells wf whole]
  rw [whole] at mem
  grind

/-- A link moves the cursor exactly when it fills the hole. -/
theorem linkScratch_placed (wf : node.pax.ilist.WellFormed) {lower upper : List Cell}
    {place cell : Cell} (whole : node.pax.ilist.cells = lower ++ place :: upper)
    (placed : Placed node.pax) : Placed (linkScratch node place.addr cell).pax := by
  -- Either the linked element is at the hole and takes the cursor, or it is away from it.
  have keeps : node.pax.ilist.Keeps (linkScratch node place.addr cell).pax.ilist :=
    linkScratch_keeps wf whole
  have has : (linkScratch node place.addr cell).pax.ilist.Has node.pax.ihole ↔
      node.pax.ihole = cell.inum ∨ node.pax.ilist.Has node.pax.ihole := by
    rw [linkScratch_ilist]
    exact wf.has_insertAfter whole
  have ihole : (linkScratch node place.addr cell).pax.ihole = node.pax.ihole := by
    obtain ⟨_, same⟩ := linkScratch_eq node place.addr cell
    rw [same]
  by_cases hole : cell.inum = node.pax.ihole
  · have fresh : (linkScratch node place.addr cell).pax.ilist.At cell.addr cell.inum := by
      rw [linkScratch_ilist]
      refine ⟨cell, ?_, rfl, rfl⟩
      rw [Ilist.insertAfter_cells wf whole]
      simp
    have cursor : (linkScratch node place.addr cell).pax.istart = some cell.addr := by
      unfold linkScratch
      simp only [hole, if_true]
      rfl
    refine ⟨cell.addr, cell.inum, cursor, fresh, ?_⟩
    rw [ihole]
    exact ⟨Nat.le_of_eq hole, by omega, fun _ => hole⟩
  · refine placed.frame keeps.guards
      (fun filled => (has.mp filled).resolve_left (Ne.symm hole)) ?_ ihole
    unfold linkScratch
    simp only [hole, if_false]
    rfl

theorem linkScratch_anchored (wf : node.pax.ilist.WellFormed) {lower upper : List Cell}
    {place cell : Cell} (whole : node.pax.ilist.cells = lower ++ place :: upper)
    (anchored : Anchored node.pax) : Anchored (linkScratch node place.addr cell).pax := by
  obtain ⟨_, same⟩ := linkScratch_eq node place.addr cell
  have hole : node.pax.ihole ≤ (linkScratch node place.addr cell).pax.ihole := by
    rw [same]
  exact anchored.frame (linkScratch_keeps wf whole).guards hole fun prep before =>
    ⟨prep, by rw [same] at before; exact before, rfl⟩

/-- A write that keeps the number of what it rewrites leaves the cursors alone. -/
theorem modify_placed (wf : node.pax.ilist.WellFormed) {addr : Addr} {inst : Instance}
    (held : node.inst? addr = some inst) {f : Instance → Instance}
    (keeps : (f inst).hdr.inum = inst.hdr.inum) (placed : Placed node.pax) :
    Placed (node.modify addr f).pax :=
  placed.frame (Ilist.Keeps.modify wf held keeps).guards
    (fun has => (wf.has_modify_held held keeps).mp has) rfl rfl

theorem modify_rests (wf : node.pax.ilist.WellFormed) {addr : Addr} {inst : Instance}
    (held : node.inst? addr = some inst) {f : Instance → Instance}
    (keeps : (f inst).hdr.inum = inst.hdr.inum) (rests : Rests node.pax) :
    Rests (node.modify addr f).pax :=
  rests.frame (Ilist.Keeps.modify wf held keeps).guards rfl rfl

theorem modify_anchored (wf : node.pax.ilist.WellFormed) {addr : Addr} {inst : Instance}
    (held : node.inst? addr = some inst) {f : Instance → Instance}
    (keeps : (f inst).hdr.inum = inst.hdr.inum) (anchored : Anchored node.pax) :
    Anchored (node.modify addr f).pax :=
  anchored.frame (Ilist.Keeps.modify wf held keeps).guards (Nat.le_refl _)
    fun prep before => ⟨prep, before, rfl⟩

/-- Finishing a commit keeps every element. -/
theorem finishCommit_keeps (wf : node.pax.ilist.WellFormed) {cell : Cell}
    (mem : cell ∈ node.pax.ilist.cells) :
    node.pax.ilist.Keeps (finishCommit node cell.addr).pax.ilist := by
  have held := wf.inst?_of_mem mem
  have marked : (node.modify cell.addr markCommitted).pax.ilist.inst? cell.addr =
    some (markCommitted cell.inst) := Ilist.inst?_rewritten held _
  exact (Ilist.Keeps.modify wf held rfl).trans
    (.modify (modify_markCommitted_wellFormed wf mem) marked rfl)

theorem finishCommit_placed (wf : node.pax.ilist.WellFormed) {cell : Cell}
    (mem : cell ∈ node.pax.ilist.cells) (placed : Placed node.pax) :
    Placed (finishCommit node cell.addr).pax :=
  placed.frame (finishCommit_keeps wf mem).guards (has_finishCommit wf mem).mp rfl rfl

end Writes

/-- What is known of the instance at an address of a given number. -/
theorem Ilist.At.number {list : Ilist} (wf : list.WellFormed) {addr : Addr} {inum : Nat}
    {inst : Instance} (place : list.At addr inum) (held : list.inst? addr = some inst) :
    inst.hdr.inum = inum := by
  obtain ⟨cell, mem, rfl, rfl⟩ := place
  rw [wf.inst?_of_mem mem] at held
  obtain rfl := Option.some.inj held
  rfl

variable {start : Node} {event : Event}

/-- Moves from within a learn leave the cursor placed. -/
theorem Nest.placed {node next : Node} (act : Nest start event node next)
    (wf : node.pax.ilist.WellFormed) (placed : Placed node.pax) : Placed next.pax := by
  -- Only a decree and the aiming of the cursor move it, and both leave it at the hole.
  cases act with
  | outer outer => exact placed.congr outer.core
  | @defer mid _ prior =>
    have before : Placed mid.pax := placed.congr prior.core
    exact before
  | @decree mid inst prior =>
    have wfMid := prior.wellFormed wf
    exact insertAndUpstart_placed wfMid (decreeOf_free wfMid inst) (placed.congr prior.core)
  | announce mem => exact modify_placed wf (wf.inst?_of_mem mem) rfl placed
  | commit mem => exact modify_placed wf (wf.inst?_of_mem mem) rfl placed
  | cache mem => exact finishCommit_placed wf mem placed
  | @aim cell last inst first mem unfinished _ hole cursor held target =>
    -- The cursor already rests on the hole, so it is aimed at itself.
    have finished := finishCommit_placed wf mem placed
    obtain ⟨addr, inum, start, place, -, -, filled⟩ := placed
    obtain rfl : last = addr := Option.some.inj (cursor.symm.trans start)
    have number := (finishCommit_keeps wf mem _ _ place).number
      (finishCommit_wellFormed wf mem) held
    rw [number, filled ⟨cell, mem, hole⟩, if_pos rfl] at target
    subst target
    exact finished.frame (fun _ _ _ place => place) id cursor.symm rfl
  | prepare => exact placed

/-- While a number is being learned, moves from within the learn leave the cursor resting. -/
theorem Nest.rests {node next : Node} {addr : Addr} (act : Nest start event node next)
    (wf : node.pax.ilist.WellFormed) (busy : Busy node addr) (rests : Rests node.pax) :
    Rests next.pax := by
  obtain ⟨done, memDone, atHole, learned⟩ := busy
  -- The instance at the hole is being learned, so nothing is committed there again.
  cases act with
  | outer outer => exact rests.congr outer.core
  | @defer mid _ prior =>
    have before : Rests mid.pax := rests.congr prior.core
    exact before
  | @decree mid inst prior =>
    have wfMid := prior.wellFormed wf
    have hole : mid.pax.ihole = node.pax.ihole := congrArg Core.ihole prior.core
    -- The next number is past the one that is being learned.
    have past : nextInstance mid.pax ≠ mid.pax.ihole := by
      have less := lt_nextInstance wfMid (prior.ilist ▸ memDone)
      have less : done.hdr.inum < nextInstance mid.pax := less
      omega
    exact insertAndUpstart_rests wfMid (decreeOf_free wfMid inst) past (rests.congr prior.core)
  | announce mem => exact modify_rests wf (wf.inst?_of_mem mem) rfl rests
  | commit mem => exact modify_rests wf (wf.inst?_of_mem mem) rfl rests
  | cache mem => exact rests.frame (finishCommit_keeps wf mem).guards rfl rfl
  | @aim cell _ _ _ mem unfinished _ hole =>
    obtain rfl := wf.inum_inj mem memDone (hole.trans atHole.symm)
    obtain ⟨committed, cached⟩ := wf.sound _ mem learned
    rcases unfinished with uncommitted | uncached
    · rw [committed] at uncommitted
      contradiction
    · rw [cached] at uncached
      contradiction
  | prepare => exact rests

/-- Moves from within a learn leave the cursor of a prepare resting. -/
theorem Nest.anchored {node next : Node} (act : Nest start event node next)
    (wf : node.pax.ilist.WellFormed) (anchored : Anchored node.pax) : Anchored next.pax := by
  -- The cursor of a prepare rests below its hole, which nothing within a learn moves.
  cases act with
  | outer outer => exact anchored.congr outer.core
  | @defer mid _ prior =>
    have before : Anchored mid.pax := anchored.congr prior.core
    exact before
  | @decree mid inst prior =>
    have wfMid := prior.wellFormed wf
    exact insertAndUpstart_anchored wfMid (decreeOf_free wfMid inst) (anchored.congr prior.core)
  | announce mem => exact modify_anchored wf (wf.inst?_of_mem mem) rfl anchored
  | commit mem => exact modify_anchored wf (wf.inst?_of_mem mem) rfl anchored
  | cache mem =>
    exact anchored.frame (finishCommit_keeps wf mem).guards (Nat.le_refl _)
      fun prep before => ⟨prep, before, rfl⟩
  | aim mem =>
    exact anchored.frame (finishCommit_keeps wf mem).guards (Nat.le_refl _)
      fun prep before => ⟨prep, before, rfl⟩
  | prepare => exact anchored

/-- The replacement of a proposer leaves the cursor placed. -/
theorem Replaces.placed {node next : Node} (replaces : Replaces node next)
    (placed : Placed node.pax) : Placed next.pax := by
  obtain ⟨_, _, _, same⟩ := replaces.eq
  rw [same]
  exact placed

/-- The replacement of a proposer leaves the cursor resting. -/
theorem Replaces.rests {node next : Node} (replaces : Replaces node next)
    (rests : Rests node.pax) : Rests next.pax := by
  obtain ⟨_, _, _, same⟩ := replaces.eq
  rw [same]
  exact rests

/-- A prepare that is begun caches the cursor of the session. -/
theorem Replaces.anchored {node next : Node} (replaces : Replaces node next)
    (rests : Rests node.pax) (anchored : Anchored node.pax) : Anchored next.pax := by
  obtain ⟨_, same⟩ := resetProposer_eq node
  -- Without a prepare no cursor is cached, and a new one rests where the session does.
  cases replaces with
  | elect =>
    rw [same]
    exact anchored
  | begin =>
    rw [same]
    rintro prep ⟨⟩
    exact rests

end Motmot
