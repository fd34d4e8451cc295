import Motmot.Proofs.Paxos.Numbers
import Motmot.System.Schedule

/-! Commits are stable. -/

namespace Motmot

/-- What is not committed, or lies behind the hole, is all finished. -/
structure Settled (pax : Session) : Prop where
  below : ∀ cell ∈ pax.ilist.cells, cell.inum < pax.ihole →
    cell.inst.committed = true ∧ cell.inst.cached = true
  /-- The log reaches up to the hole. -/
  reach : ∃ inum, pax.ilist.Has inum ∧ pax.ihole ≤ inum + 1

/-- The log of a welcome starts at the base that it names. -/
def Welcome.Based (welcome : Welcome) : Prop :=
  ∃ packed, welcome.ilist.head? = some packed ∧ packed.hdr.inum = welcome.ibase

/-- In a welcomed log that starts at its base, whatever was not taken as learned is past it. -/
theorem Welcome.Based.past {welcome : Welcome} (based : welcome.Based) {run rest : List Cell}
    (whole : welcomeCells 0 welcome.ilist = run ++ rest)
    (contiguous : Contiguous welcome.ibase run) :
    (∀ cell ∈ rest, welcome.ibase + run.length ≤ cell.inum) ∧
      ∃ cell ∈ run ++ rest, welcome.ibase + run.length ≤ cell.inum + 1 := by
  -- The first cell packed has the base as its number, and the run is what the scan took as learned.
  obtain ⟨packed, head, number⟩ := based
  obtain ⟨tail, listed⟩ := List.head?_eq_some_iff.mp head
  have order := whole ▸ welcomeCells_pairwise 0 welcome.ascending
  rw [listed] at whole
  cases final : run.getLast? with
  | none =>
    -- Nothing was taken as learned, so the log starts at the hole.
    obtain rfl : run = [] := by simpa using final
    obtain rfl : ⟨0, instanceUnpack packed⟩ :: welcomeCells 1 tail = rest := whole
    refine ⟨fun cell mem => ?_, _, List.mem_cons_self, ?_⟩
    · rcases List.mem_cons.mp mem with rfl | mem
      · exact Nat.le_of_eq number.symm
      · have past := ((List.pairwise_cons.mp order).1 cell mem).1
        have first : packed.hdr.inum < cell.inum := past
        simp only [List.length_nil]
        omega
    · show welcome.ibase + 0 ≤ packed.hdr.inum + 1
      omega
  -- The run ends one below the hole, and the rest ascends from there.
  | some last =>
    have next := contiguous.last final
    have mem := List.mem_of_getLast? final
    refine ⟨fun cell memRest => ?_, last, List.mem_append_left _ mem, Nat.le_of_eq next.symm⟩
    have past := ((List.pairwise_append.mp order).2.2 last mem cell memRest).1
    omega

/-- A session begins settled. -/
theorem Begins.settled {node : Node} {first : Nat} (begins : Begins Welcome.Based node first) :
    Settled node.pax := by
  -- The founder holds one learned instance; a newcomer has taken the run of its welcome as learned.
  cases begins with
  | start =>
    refine ⟨?_, 1, ⟨_, List.mem_singleton_self _, rfl⟩, Nat.le_refl 2⟩
    intro cell mem _
    obtain rfl := List.mem_singleton.mp mem
    exact ⟨rfl, rfl⟩
  | welcome welcome based =>
    obtain ⟨run, rest, whole, contiguous, cells, hole, -⟩ := welcome.scan
    obtain ⟨past, cell, mem, reach⟩ := based.past whole contiguous
    rw [← hole] at past reach
    refine ⟨fun cell mem below => ?_, cell.inum, ?_, reach⟩
    · rw [cells] at mem
      rcases List.mem_append.mp mem with mem | mem
      · -- Behind the hole there is only the run.
        obtain ⟨prior, memRun, rfl⟩ := List.mem_map.mp mem
        exact ⟨(contiguous.inum prior memRun).2.2, rfl⟩
      · exact absurd below (Nat.not_lt_of_le (past cell mem))
    · show ∃ other ∈ welcome.node.pax.ilist.cells, other.inum = cell.inum
      rw [cells]
      rcases List.mem_append.mp mem with mem | mem
      · exact ⟨takeLearned cell, List.mem_append_left _ (List.mem_map_of_mem mem), rfl⟩
      · exact ⟨cell, List.mem_append_right _ mem, rfl⟩

/-- The next number is not behind the hole. -/
theorem Settled.hole_le_next {pax : Session} (settled : Settled pax)
    (wf : pax.ilist.WellFormed) : pax.ihole ≤ nextInstance pax := by
  obtain ⟨inum, ⟨cell, mem, rfl⟩, reach⟩ := settled.reach
  have past := lt_nextInstance wf mem
  omega

/-- A log stays settled when commits are retained and no number enters it behind the hole. -/
theorem Settled.frame {pax next : Session} (settled : Settled pax)
    (wfNext : next.ilist.WellFormed) (retains : pax.ilist.Retains next.ilist)
    (hole : next.ihole = pax.ihole)
    (keeps : ∀ inum, pax.ilist.Has inum → pax.ihole ≤ inum + 1 → next.ilist.Has inum)
    (comes : ∀ inum, next.ilist.Has inum → pax.ilist.Has inum ∨ pax.ihole ≤ inum) :
    Settled next := by
  constructor
  · intro cell mem below
    rw [hole] at below
    rcases comes cell.inum ⟨cell, mem, rfl⟩ with ⟨old, memOld, same⟩ | ahead
    · -- The element of that number was finished, and is retained.
      obtain ⟨committed, cached⟩ := settled.below old memOld (by omega)
      obtain ⟨inst, memNext, retained⟩ := retains old memOld committed
      have number : Cell.inum ⟨old.addr, inst⟩ = cell.inum := retained.inum.trans same
      obtain rfl := wfNext.inum_inj memNext mem number
      exact ⟨retained.committed, retained.cached cached⟩
    · omega
  · -- The number that the hole has come up to stays, since that close to the hole nothing is
    -- removed.
    obtain ⟨inum, has, reach⟩ := settled.reach
    exact ⟨inum, keeps inum has reach, hole ▸ reach⟩

variable {start : Node} {event : Event}

/--
The events after which commits stay stable.

No acceptor that was to be parted is reached, or lost again, for an instance that was committed in
the meantime; and nothing brings in, or frees, numbers on the wrong side of the hole.
-/
structure Steady (pax : Session) (event : Event) : Prop where
  reject : ∀ inum acc chan cell, Continues pax event (.ackReject inum) acc chan →
    pax.ilist.find inum = some cell → cell.inst.committed = false
  behind : ∀ source hdr val, event = .message source ⟨hdr, .value val⟩ →
    (hdr.opcode = .decree ∧ hdr.ballot = pax.ballot ∨ hdr.opcode = .commit ∨
      hdr.opcode = .recommit) → isProposer pax = false →
    pax.ilist.find hdr.inum = none → pax.ihole ≤ hdr.inum
  votes : ∀ source hdr count votes prep, event = .message source ⟨hdr, .votes count votes⟩ →
    hdr.opcode = .promise → isProposer pax = true → pax.prep = some prep →
    hdr.ballot = prep.ballot →
    ∀ vote ∈ votes, pax.ilist.find vote.hdr.inum = none → pax.ihole ≤ vote.hdr.inum
  truncate : ∀ source hdr bound, event = .message source ⟨hdr, .paxid bound⟩ →
    hdr.opcode = .truncate → isProposer pax = false → bound < pax.ihole

/-- A steady truncation stays behind the hole. -/
theorem Steady.truncates {pax : Session} (steady : Steady pax event) {bound : Nat}
    (truncates : Truncates pax event bound) : bound ≤ pax.ihole - 1 := by
  -- An acceptor is told the bound, and a proposer takes one that is not past its hole.
  rcases truncates with ⟨source, hdr, asked, opcode, acceptor⟩ |
    ⟨_, _, last, sync, _, _, _, _, bounded, _⟩
  · have := steady.truncate source hdr bound asked opcode acceptor
    omega
  · rw [bounded]
    exact Nat.min_le_left _ _

/-- No number enters the log of a steady event behind the hole. -/
theorem Steady.enters {node : Node} {inum : Nat} (steady : Steady start.pax event)
    (wf : node.pax.ilist.WellFormed) (settled : Settled node.pax)
    (enters : Enters start event node inum) : node.pax.ihole ≤ inum := by
  -- By where the number comes from; what a steady event brings is past the hole.
  cases enters with
  | next same => exact same ▸ settled.hole_le_next wf
  | gap ahead => exact ahead
  | message asked opcode acceptor first absent same =>
    subst first same
    exact steady.behind _ _ _ asked opcode acceptor (wf.find_eq_none_iff.mpr absent)
  | vote asked opcode proposer preparing current first mem absent same =>
    subst first same
    exact steady.votes _ _ _ _ _ asked opcode proposer preparing current _ mem
      (wf.find_eq_none_iff.mpr absent)

/-- Moves of the handler itself, for a steady event, leave the log settled. -/
theorem Top.settled {node next : Node} (act : Top start event node next)
    (steady : Steady start.pax event) (wf : node.pax.ilist.WellFormed)
    (settled : Settled node.pax) : Settled next.pax := by
  -- A move retains the commits, truncates below the hole, or rewrites what was not committed.
  have wfNext := act.wellFormed wf
  have comes : ∀ inum, next.pax.ilist.Has inum →
      node.pax.ilist.Has inum ∨ node.pax.ihole ≤ inum := fun inum has =>
    ((act.numbers wf).2 has).imp id (steady.enters wf settled)
  have keeps : ∀ inum, node.pax.ilist.Has inum → node.pax.ihole ≤ inum + 1 →
      next.pax.ilist.Has inum := by
    intro inum has reach
    rcases (act.numbers wf).1 has with still | ⟨bound, truncates, core, below⟩
    · exact still
    · have bounded := steady.truncates truncates
      have hole : node.pax.ihole = start.pax.ihole := congrArg Core.ihole core
      omega
  rcases act.retains wf with retains | ⟨bound, truncates, -, dropped⟩ |
    ⟨inum, acc, chan, cell, continues, found, same, rewritten⟩
  · exact settled.frame wfNext retains act.ihole keeps comes
  · -- A truncation leaves what it keeps as it was.
    refine ⟨fun cell mem below => ?_, ?_⟩
    · rw [dropped] at mem
      rw [act.ihole] at below
      exact settled.below cell (wf.mem_dropBelow.mp mem).1 below
    · obtain ⟨inum, has, reach⟩ := settled.reach
      exact ⟨inum, keeps inum has reach, by rw [act.ihole]; exact reach⟩
  · -- The instance that is rewritten was not committed.
    have uncommitted := steady.reject inum acc chan cell continues found
    rw [same] at found
    refine settled.frame wfNext ?_ act.ihole keeps comes
    rw [rewritten]
    exact .modify_open wf (wf.inst?_of_mem (wf.find_eq_some.mp found).1) uncommitted _

/-- Moves of a learning loop leave the log settled, since what is learned fills the hole. -/
theorem Inner.settled {first : Nat} {config after : Config} (move : Inner start event config after)
    (wf : config.node.pax.ilist.WellFormed) (stands : Stands first config)
    (settled : Settled config.node.pax) : Settled after.node.pax := by
  -- Whatever does not move the hole neither commits less nor brings in a number behind it.
  have frame : after.node.pax.ihole = config.node.pax.ihole → Settled after.node.pax := fun hole =>
    settled.frame (move.wellFormed wf) (move.retains wf) hole
      (fun _ has _ => (move.numbers wf).1 has)
      fun _ has => ((move.numbers wf).2 has).imp id fun same => by
        rw [same]
        exact settled.hole_le_next wf
  cases move with
  | nest _ act => exact frame act.ihole
  | enter => exact frame rfl
  | learn => exact frame (learnt_ihole _ _ _ _)
  | delist => exact frame (delist_ihole _ _)
  | depose _ _ replaces => exact frame (replaces.ihole.trans (delist_ihole _ _))
  | last => exact frame rfl
  | gap => exact frame rfl
  | rest => exact frame rfl
  | @next node _ addr _ link =>
    cases stands with
    | learning _ busy =>
      obtain ⟨inst, mem, hole, learned⟩ := busy
      -- The hole moves past the instance that was just learned.
      refine ⟨fun cell memCell below => ?_, inst.hdr.inum, ⟨_, mem, rfl⟩, ?_⟩
      · by_cases at_hole : cell.inum = node.pax.ihole
        · obtain rfl := wf.inum_inj memCell mem (at_hole.trans hole.symm)
          exact wf.sound _ mem learned
        · have below : cell.inum < node.pax.ihole + 1 := below
          have behind : cell.inum < node.pax.ihole := by omega
          exact settled.below cell memCell behind
      · show node.pax.ihole + 1 ≤ inst.hdr.inum + 1
        omega

/-- What becomes of a committed instance while an event is handled. -/
def Kept (pax : Session) (event : Event) (cell : Cell) (list : Ilist) : Prop :=
  (∃ inst, ⟨cell.addr, inst⟩ ∈ list.cells ∧ cell.inst.Retained inst) ∨
    ∃ bound, Truncates pax event bound ∧ cell.inum < bound

/-- What was kept is kept by whatever retains it. -/
theorem Kept.retains {pax : Session} {cell : Cell} {list next : Ilist}
    (kept : Kept pax event cell list) (retains : list.Retains next) :
    Kept pax event cell next := by
  rcases kept with ⟨inst, mem, retained⟩ | removed
  · obtain ⟨last, memNext, again⟩ := retains _ mem retained.committed
    exact Or.inl ⟨last, memNext, retained.trans again⟩
  · exact Or.inr removed

/-- What was kept is kept by every move that a steady event leads to. -/
theorem Move.kept {config after : Config} {cell : Cell} (move : Move start event config after)
    (steady : Steady start.pax event) (wf : config.node.pax.ilist.WellFormed)
    (kept : Kept start.pax event cell config.node.pax.ilist) :
    Kept start.pax event cell after.node.pax.ilist := by
  -- Only a truncation and a rewriting do not retain; the one removes, the other is of an open
  -- instance.
  cases move with
  | inner move => exact kept.retains (move.retains wf)
  | @top node next act =>
    have kept : Kept start.pax event cell node.pax.ilist := kept
    show Kept start.pax event cell next.pax.ilist
    rcases act.retains wf with retains | ⟨bound, truncates, -, dropped⟩ |
      ⟨inum, acc, chan, other, continues, found, same, rewritten⟩
    · exact kept.retains retains
    · rcases kept with ⟨inst, mem, retained⟩ | removed
      · by_cases below : cell.inum < bound
        · exact Or.inr ⟨bound, truncates, below⟩
        · have number : inst.hdr.inum = cell.inum := retained.inum
          have past : bound ≤ Cell.inum ⟨cell.addr, inst⟩ := by
            show bound ≤ inst.hdr.inum
            omega
          exact Or.inl ⟨inst, dropped ▸ wf.mem_dropBelow.mpr ⟨mem, past⟩, retained⟩
      · exact Or.inr removed
    · have uncommitted := steady.reject inum acc chan other continues found
      rw [same] at found
      rw [rewritten]
      exact kept.retains
        (.modify_open wf (wf.inst?_of_mem (wf.find_eq_some.mp found).1) uncommitted _)

/-- What a steady handler leaves of a settled session. -/
theorem Handles.steady {first : Nat} {node : Node} {result : Result}
    (handles : Handles node event result) (steady : Steady node.pax event)
    (wf : node.pax.ilist.WellFormed) (learned : Learned first node.pax.ihole node)
    (settled : Settled node.pax) :
    (∀ next, result = .ok next → Settled next.pax ∧ ∀ cell ∈ node.pax.ilist.cells,
        cell.inst.committed = true → Kept node.pax event cell next.pax.ilist) ∧
      ∀ halted, result ≠ .stop (.failed .commitPastHole) halted := by
  -- The three facts are carried together through the moves, which need all of them.
  obtain ⟨returns, stops⟩ := @Handles.invariant _ _ _
    (fun config => Stands first config ∧ Settled config.node.pax ∧
      ∀ cell ∈ node.pax.ilist.cells, cell.inst.committed = true →
        Kept node.pax event cell config.node.pax.ilist) handles wf
    (fun _ => ⟨.idle (learned.frame rfl), settled,
      fun cell mem committed => Or.inl ⟨cell.inst, mem, .refl committed⟩⟩)
    fun {script config after} move wf ⟨stands, settled, kept⟩ => by
      refine ⟨stands.move move wf, ?_, fun cell mem committed =>
        move.kept steady wf (kept cell mem committed)⟩
      cases move with
      | inner move => exact move.settled wf stands settled
      | top act => exact act.settled steady wf settled
  refine ⟨fun next same => (returns next same).2, fun halted same => ?_⟩
  -- An unfinished instance behind the hole would have made the assertion fail.
  obtain ⟨reached, ⟨-, settled, -⟩, -, halts⟩ := stops _ halted same
  obtain ⟨cell, mem, unfinished, behind⟩ := halts.past rfl
  obtain ⟨committed, cached⟩ := settled.below cell mem behind
  rcases unfinished with uncommitted | uncached
  · rw [committed] at uncommitted
    contradiction
  · rw [cached] at uncached
    contradiction

variable {allowed : Session → Event → Prop}

/-- Throughout a run of steady events the session is settled. -/
theorem Runs.settled {begun node : Node} {first : Nat}
    (steady : ∀ pax event, allowed pax event → Steady pax event)
    (begins : Begins Welcome.Based begun first) (run : Runs allowed begun node) :
    node.pax.ilist.WellFormed ∧ Learned first node.pax.ihole node ∧ Settled node.pax := by
  refine @Runs.invariant _ _ _ (fun node => node.pax.ilist.WellFormed ∧
    Learned first node.pax.ihole node ∧ Settled node.pax) run
    ⟨begins.wellFormed, begins.learned, begins.settled⟩ ?_
  -- One handler keeps the log well formed, the learns in step and the session settled.
  intro node event next ok handles ⟨wf, learned, settled⟩
  exact ⟨handles.wellFormed wf, handles.learned wf learned,
    ((handles.steady (steady _ _ ok) wf learned settled).1 next rfl).1⟩

/-- An instance is removed from a log somewhere on a run, by a truncation past its number. -/
def Removed (allowed : Session → Event → Prop) (node later : Node) (cell : Cell) : Prop :=
  ∃ mid event after bound, Runs allowed node mid ∧ allowed mid.pax event ∧
    Handles mid event (.ok after) ∧ Runs allowed after later ∧
    Truncates mid.pax event bound ∧ cell.inum < bound

/-- An instance that was removed stays removed. -/
theorem Removed.step {node later next : Node} {cell : Cell}
    (removed : Removed allowed node later cell) (ok : allowed later.pax event)
    (handles : Handles later event (.ok next)) : Removed allowed node next cell := by
  obtain ⟨mid, other, after, bound, before, first, truncating, rest, truncates, below⟩ := removed
  exact ⟨mid, other, after, bound, before, first, truncating, rest.step ok handles, truncates,
    below⟩

/-- A run of steady events leaves every committed instance there, or it removes it. -/
theorem Runs.keeps {begun node later : Node} {first : Nat}
    (steady : ∀ pax event, allowed pax event → Steady pax event)
    (begins : Begins Welcome.Based begun first) (run : Runs allowed begun node)
    (more : Runs allowed node later) {cell : Cell} (mem : cell ∈ node.pax.ilist.cells)
    (committed : cell.inst.committed = true) :
    (∃ inst, ⟨cell.addr, inst⟩ ∈ later.pax.ilist.cells ∧ cell.inst.Retained inst) ∨
      Removed allowed node later cell := by
  -- By induction on the run that follows.
  induction more with
  | refl => exact Or.inl ⟨cell.inst, mem, .refl committed⟩
  | @step mid next event before ok handles ih =>
    -- The run up to here is steady, so one more event keeps what it has kept.
    have whole : Runs allowed begun mid := run.trans before
    obtain ⟨wf, learned, settled⟩ := whole.settled steady begins
    have kept := ((handles.steady (steady _ _ ok) wf learned settled).1 _ rfl).2
    rcases ih with ⟨inst, memMid, retained⟩ | removed
    · rcases kept _ memMid retained.committed with ⟨last, memNext, again⟩ |
        ⟨bound, truncates, below⟩
      · exact Or.inl ⟨last, memNext, retained.trans again⟩
      · have number : inst.hdr.inum = cell.inum := retained.inum
        have below : inst.hdr.inum < bound := below
        exact Or.inr ⟨_, _, _, bound, before, ok, handles, .refl, truncates, by omega⟩
    · exact Or.inr (removed.step ok handles)

end Motmot
