import Motmot.Proofs.Paxos.Stability

/-! The log of a proposer that is not preparing has no gaps. -/

namespace Motmot

variable {start node next : Node} {event : Event}

/-- A decree moves no base. -/
@[simp] theorem instanceInsertAndUpstart_ibase (node : Node) (inst : Instance) :
    (instanceInsertAndUpstart node inst).pax.ibase = node.pax.ibase := by
  obtain ⟨_, _, same⟩ := instanceInsertAndUpstart_eq node inst
  rw [same]

/-- Yielding to another proposer moves no base. -/
@[simp] theorem yieldTo_ibase (node : Node) (acc : Acceptor) :
    (yieldTo node acc).pax.ibase = node.pax.ibase := by
  obtain ⟨_, same⟩ := yieldTo_writes node acc
  rw [same]

/-- The replacement of a proposer moves no base. -/
theorem Replaces.ibase (replaces : Replaces node next) : next.pax.ibase = node.pax.ibase := by
  obtain ⟨_, _, _, same⟩ := replaces.eq
  rw [same]

/-- Moves from within a learn do not move the base. -/
theorem Nest.ibase (act : Nest start event node next) : next.pax.ibase = node.pax.ibase := by
  -- Only a decree touches the log, and the insertion leaves the base alone.
  cases act with
  | outer outer => exact congrArg Core.ibase outer.core
  | defer prior => exact congrArg Core.ibase prior.core
  | @decree mid inst prior =>
    exact (instanceInsertAndUpstart_ibase mid _).trans (congrArg Core.ibase prior.core)
  | announce => rfl
  | commit => rfl
  | cache => rfl
  | aim => rfl
  | prepare => rfl

/-- A learning loop does not move the base. -/
theorem Inner.ibase {config after : Config} (move : Inner start event config after) :
    after.node.pax.ibase = config.node.pax.ibase := by
  cases move with
  | nest _ act => exact act.ibase
  | @learn node _ addr inst =>
    exact congrArg Core.ibase (learnt_core node addr inst (learnRequest node.pax inst.val))
  | @delist node _ _ paxid => exact congrArg Core.ibase (delist_core node paxid)
  | @depose node _ _ paxid _ _ _ replaces =>
    exact replaces.ibase.trans (congrArg Core.ibase (delist_core node paxid))
  | _ => rfl

/-- A log has every number from its base up to its last, and reaches up to the hole. -/
structure Dense (pax : Session) : Prop where
  base : ∀ inum, pax.ilist.Has inum → pax.ibase ≤ inum
  full : ∀ inum higher, pax.ibase ≤ inum → inum ≤ higher → pax.ilist.Has higher →
    pax.ilist.Has inum
  within : pax.ibase ≤ pax.ihole
  reach : ∃ inum, pax.ilist.Has inum ∧ pax.ihole ≤ inum + 1

namespace Dense

variable {pax : Session}

/-- The next number follows the last, which is not below the base. -/
theorem upTo (dense : Dense pax) (wf : pax.ilist.WellFormed) :
    pax.ibase ≤ nextInstance pax ∧
      ∀ inum, pax.ibase ≤ inum → inum < nextInstance pax → pax.ilist.Has inum := by
  -- The last element of the log carries the highest number, and what is between is full.
  obtain ⟨held, ⟨cell, mem, rfl⟩, -⟩ := dense.reach
  have base := dense.base cell.inum ⟨cell, mem, rfl⟩
  have past := lt_nextInstance wf mem
  obtain ⟨last, memLast, same⟩ := nextInstance_last mem
  refine ⟨by omega, fun inum above below => ?_⟩
  apply dense.full inum last.inum above (by omega)
  exact ⟨last, memLast, rfl⟩

/-- What changes neither the numbers nor the bounds leaves the log dense. -/
theorem frame {after : Session} (dense : Dense pax)
    (has : ∀ inum, after.ilist.Has inum ↔ pax.ilist.Has inum) (ibase : after.ibase = pax.ibase)
    (hole : after.ihole = pax.ihole) : Dense after := by
  -- Every condition is about which numbers are held.
  obtain ⟨last, held, reach⟩ := dense.reach
  refine ⟨?_, ?_, ?_, last, (has last).mpr held, by omega⟩
  · intro inum kept
    rw [ibase]
    exact dense.base inum ((has inum).mp kept)
  · intro inum higher above below kept
    rw [ibase] at above
    exact (has inum).mpr (dense.full inum higher above below ((has higher).mp kept))
  · rw [ibase, hole]
    exact dense.within

/-- A log stays dense if it keeps its numbers, and takes only the next one. -/
theorem grow {after : Session} (dense : Dense pax) (wf : pax.ilist.WellFormed)
    (ibase : after.ibase = pax.ibase)
    (hole : after.ihole = pax.ihole ∨ after.ihole = pax.ihole + 1 ∧ pax.ilist.Has pax.ihole)
    (keeps : ∀ inum, pax.ilist.Has inum → after.ilist.Has inum)
    (comes : ∀ inum, after.ilist.Has inum → pax.ilist.Has inum ∨ inum = nextInstance pax) :
    Dense after := by
  -- The numbers are full up to the last, so the next one leaves no gap.
  obtain ⟨floor, full⟩ := dense.upTo wf
  have within := dense.within
  refine ⟨?_, ?_, by omega, ?_⟩
  · intro inum has
    rw [ibase]
    rcases comes inum has with before | rfl
    · exact dense.base inum before
    · exact floor
  · intro inum higher above below has
    rw [ibase] at above
    rcases comes higher has with before | rfl
    · exact keeps inum (dense.full inum higher above below before)
    · rcases Nat.eq_or_lt_of_le below with rfl | less
      · exact has
      · exact keeps inum (full inum above less)
  · obtain ⟨inum, has, reach⟩ := dense.reach
    rcases hole with same | ⟨same, filled⟩
    · exact ⟨inum, keeps inum has, by omega⟩
    · exact ⟨pax.ihole, keeps _ filled, by omega⟩

/-- A truncation at a bound behind the hole leaves a dense log that starts there. -/
theorem drop {after : Session} {bound : Nat} (dense : Dense pax) (wf : pax.ilist.WellFormed)
    (above : pax.ibase ≤ bound) (behind : bound ≤ pax.ihole - 1) (ibase : after.ibase = bound)
    (hole : after.ihole = pax.ihole) (dropped : after.ilist = pax.ilist.dropBelow bound) :
    Dense after := by
  -- What is dropped lies below the bound, and the hole lies above it.
  have has : ∀ inum, after.ilist.Has inum ↔ pax.ilist.Has inum ∧ bound ≤ inum := by
    intro inum
    rw [dropped]
    exact wf.has_dropBelow
  obtain ⟨last, held, reach⟩ := dense.reach
  refine ⟨?_, ?_, by omega, last, (has last).mpr ⟨held, by omega⟩, by omega⟩
  · intro inum kept
    rw [ibase]
    exact ((has inum).mp kept).2
  · intro inum higher past below kept
    rw [ibase] at past
    apply (has inum).mpr
    exact ⟨dense.full inum higher (by omega) below ((has higher).mp kept).1, past⟩

end Dense

/-- Moves of the handler itself leave the log of a prepared proposer dense. -/
theorem Top.dense (act : Top start event node next) (wf : node.pax.ilist.WellFormed)
    (leads : isProposer start.pax = true) (idle : start.pax.prep = none)
    (dense : Dense node.pax) : Dense next.pax := by
  -- A prepared proposer decrees in order, and makes no move of an acceptor or of a prepare.
  have leading : isProposer start.pax ≠ false := by simp [leads]
  have prepared : ∀ prep, start.pax.prep ≠ some prep := by simp [idle]
  have incomplete : ¬ ∃ prep, Completes start.pax event prep := by
    rintro ⟨prep, -, preparing, -⟩
    exact prepared prep preparing
  have framed : next.pax.ihole = node.pax.ihole := act.ihole
  cases act with
  | beside prior =>
    exact dense.frame (fun _ => by rw [prior.ilist]) (congrArg Core.ibase prior.core) framed
  | depose _ _ _ lost =>
    obtain ⟨_, _, -, -, acceptor, -⟩ := lost
    exact absurd acceptor leading
  | promise _ _ acceptor => exact absurd acceptor leading
  | store _ _ acceptor => exact absurd acceptor leading
  | accept _ _ acceptor => exact absurd acceptor leading
  | commitFresh _ _ acceptor => exact absurd acceptor leading
  | commitOver _ _ acceptor => exact absurd acceptor leading
  | recommitOver _ _ acceptor => exact absurd acceptor leading
  | vote _ _ _ _ found =>
    exact dense.frame (fun _ => wf.has_modify (wf.find_eq_some.mp found).1 rfl) rfl framed
  | reject _ _ _ _ found =>
    exact dense.frame (fun _ => wf.has_modify (wf.find_eq_some.mp found).1 rfl) rfl framed
  | rebroadcast => exact dense.frame (fun _ => Iff.rfl) rfl framed
  | rewrite prior _ found =>
    rw [← prior.ilist] at found
    refine dense.frame (fun _ => wf.has_modify (wf.find_eq_some.mp found).1 ?_) rfl framed
    unfold redecreeRejected
    split <;> rfl
  | merge _ _ _ preparing => exact absurd preparing (prepared _)
  | ack _ _ _ _ same => exact absurd same (prepared _)
  | win _ _ _ _ _ _ same => exact absurd same (prepared _)
  | fill _ _ _ _ _ _ _ _ completes => exact absurd completes incomplete
  | redecree _ _ _ _ _ _ completes => exact absurd completes incomplete
  | settle _ _ _ completes => exact absurd completes incomplete
  | undefer _ _ _ completes => exact absurd completes incomplete
  | redirect _ _ _ preparing => exact absurd preparing (prepared _)
  | rebegin => exact dense.frame (fun _ => Iff.rfl) rfl framed
  | @yieldRedirect mid acc _ prior =>
    exact dense.frame (fun _ => by rw [yieldTo_ilist, prior.ilist])
      ((yieldTo_ibase mid acc).trans (congrArg Core.ibase prior.core)) framed
  | @yieldRefuse mid _ acc _ prior =>
    exact dense.frame (fun _ => by rw [yieldTo_ilist, prior.ilist])
      ((yieldTo_ibase mid acc).trans (congrArg Core.ibase prior.core)) framed
  | @helloYield mid _ hdr _ _ _ prior =>
    obtain ⟨prep, same⟩ : ∃ prep, (if isProposer mid.pax then mid.setPrep none else mid) =
        mid.setPrep prep := by
      split
      · exact ⟨none, rfl⟩
      · exact ⟨mid.pax.prep, rfl⟩
    rw [same] at framed ⊢
    exact dense.frame (fun _ => by rw [← prior.ilist]; rfl) (congrArg Core.ibase prior.core) framed
  | helloBallot => exact dense.frame (fun _ => Iff.rfl) rfl framed
  | @truncate _ bound prior truncates =>
    rcases truncates with ⟨_, _, _, _, acceptor⟩ | ⟨_, _, last, sync, _, _, _, _, bounded, above⟩
    · exact absurd acceptor leading
    · -- A proposer truncates behind its own hole.
      have behind : bound ≤ start.pax.ihole - 1 := bounded ▸ Nat.min_le_left _ _
      have same : node.pax.ihole = start.pax.ihole := congrArg Core.ihole prior.core
      have base : node.pax.ibase = start.pax.ibase := congrArg Core.ibase prior.core
      exact dense.drop wf (base ▸ above) (same ▸ behind) rfl framed rfl
  | recommit => exact dense.frame (fun _ => Iff.rfl) rfl framed
  | welcome => exact dense.frame (fun _ => Iff.rfl) rfl framed

/-- A learning loop leaves the log dense, whoever runs it. -/
theorem Inner.dense {first : Nat} {config after : Config} (move : Inner start event config after)
    (wf : config.node.pax.ilist.WellFormed) (stands : Stands first config)
    (dense : Dense config.node.pax) : Dense after.node.pax := by
  apply dense.grow wf move.ibase ((Move.inner move).hole stands)
  · exact fun inum has => (move.numbers wf).1 has
  · exact fun inum has => (move.numbers wf).2 has

/-- Whatever a prepared proposer does in a handler, its log stays dense. -/
theorem Handles.dense {first : Nat} {result : Result} (handles : Handles node event result)
    (wf : node.pax.ilist.WellFormed) (learned : Learned first node.pax.ihole node)
    (leads : isProposer node.pax = true) (idle : node.pax.prep = none) (dense : Dense node.pax) :
    ∀ next, result = .ok next → Dense next.pax := by
  -- The invariant speaks of the density and of where a learning loop stands.
  have account := @Handles.invariant node event result
    (fun config => Stands first config ∧ Dense config.node.pax) handles wf
    (fun script => ⟨.idle (learned.frame rfl), dense⟩)
    fun {script config after} move wf ⟨stands, dense⟩ => by
      refine ⟨stands.move move wf, ?_⟩
      cases move with
      | top act => exact act.dense wf leads idle dense
      | inner move => exact move.dense wf stands dense
  exact fun next same => (account.1 next same).2

end Motmot
