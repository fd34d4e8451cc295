import Motmot.Proofs.Paxos.Tally

/-! The loop that ends a prepare decrees every number from the hole on that is not committed. -/

namespace Motmot

variable {node next : Node} {it place : Addr} {inum inner top : Nat} {path : List Detached}

/-- What a broadcast of an instance sends to a list of acceptors. -/
def announcement (alist : List Acceptor) (inst : Instance) : List Effect :=
  alist.filterMap fun acc =>
    acc.peer.map (Effect.send · { hdr := inst.hdr, body := .value inst.val })

/-- Whether the log has a commit for a number. -/
def Decided (entries : Nat → Option Instance) (inum : Nat) : Prop :=
  ∃ inst, entries inum = some inst ∧ inst.committed = true

instance (entries : Nat → Option Instance) (inum : Nat) : Decidable (Decided entries inum) :=
  match holds : entries inum with
  | none => .isFalse fun ⟨inst, has, _⟩ => by simp [holds] at has
  | some inst =>
    decidable_of_iff (inst.committed = true)
      ⟨fun committed => ⟨inst, holds, committed⟩, fun ⟨other, has, committed⟩ => by
        obtain rfl : inst = other := Option.some.inj (holds.symm.trans has)
        exact committed⟩

/--
One round of the loop that ends a prepare.

A number with a commit is passed over, and any other one is decreed.
-/
inductive Round (node : Node) (inum : Nat) : List Instance → Node → Prop where
  | skip (settled : Decided node.pax.ilist.entries inum) : Round node inum [] node
  | decree {old ilist istart reqId} (number : old.inum = inum)
      (open_ : ¬ Decided node.pax.ilist.entries inum)
      (origin : node.pax.ilist.entries inum = some old ∨
        node.pax.ilist.entries inum = none ∧ old.val.dkind = .null)
      (entries : ilist.entries = Function.update node.pax.ilist.entries inum
        (some (redecreed node.pax old))) :
      Round node inum [redecreed node.pax old]
        { node with
          pax.ilist := ilist
          pax.istart := istart
          pax.reqId := reqId
          out := node.out ++ announcement node.pax.alist (redecreed node.pax old) }

/-- Decreeing an element again only changes the entry for its number. -/
theorem redecreeInstance_entries (wf : node.pax.ilist.WellFormed) {cell : Cell}
    (mem : cell ∈ node.pax.ilist.cells) :
    (node.pax.ilist.modify cell.addr (redecreed node.pax)).entries =
      Function.update node.pax.ilist.entries cell.inum (some (redecreed node.pax cell.inst)) := by
  -- The element keeps its number, so its entry is the only one that changes.
  have wfNext : (node.pax.ilist.modify cell.addr (redecreed node.pax)).WellFormed :=
    wf.modify_linked mem rfl (by simp [redecreed, instanceInitMetadata])
  have update := @Ilist.WellFormed.entries_update _ _
    { cell with inst := redecreed node.pax cell.inst } wf wfNext
  apply update
  intro x
  rw [wf.mem_modify_linked mem]
  refine or_congr_right (and_congr_right fun memx => not_congr ⟨fun same => by rw [same]; rfl, ?_⟩)
  exact fun number => wf.inum_inj memx mem number

/-- A null fills the gap that the log has at its number. -/
theorem fillNull_entries (wf : node.pax.ilist.WellFormed) {lower upper : List Cell} {place : Cell}
    (whole : node.pax.ilist.cells = lower ++ place :: upper) (less : place.inum < inum)
    (past : ∀ x ∈ upper, inum < x.inum) :
    node.pax.ilist.entries inum = none ∧ (fillNull node place.addr inum).pax.ilist.entries =
      Function.update node.pax.ilist.entries inum
        (some (nullInstance node.bumpReqId.pax inum)) := by
  -- The scratch is allocated first, which no entry sees, and linked at the gap.
  have wfNext := fillNull_wellFormed wf whole less past
  have wfMid : (node.pax.ilist.alloc (nullInstance node.bumpReqId.pax inum)).WellFormed :=
    wf.alloc rfl
  unfold fillNull at wfNext ⊢
  rw [linkScratch_ilist] at wfNext ⊢
  exact wfMid.entries_insertAfter wfNext whole less past

/-- Filling a gap changes the log, the cursor into it and the count of requests. -/
theorem fillNull_eq (node : Node) (place : Addr) (inum : Nat) : ∃ ilist istart,
    fillNull node place inum = { node with
      pax.ilist := ilist, pax.istart := istart, pax.reqId := node.pax.reqId + 1 } := by
  -- The link may move the cursor, and writes nothing else besides the log.
  obtain ⟨istart, same⟩ := linkScratch_eq
    (node.bumpReqId.setIlist (node.bumpReqId.pax.ilist.alloc
      (nullInstance node.bumpReqId.pax inum))) place
    ⟨nextAddr node.bumpReqId, nullInstance node.bumpReqId.pax inum⟩
  have filled : fillNull node place inum = _ := same
  rw [filled]
  exact ⟨_, istart, rfl⟩

/-- The null that fills a gap is decreed as it was linked. -/
theorem nullInstance_fillNull (node : Node) (place : Addr) (inum : Nat) :
    nullInstance (fillNull node place inum).pax inum = nullInstance node.bumpReqId.pax inum := by
  obtain ⟨ilist, istart, same⟩ := fillNull_eq node place inum
  rw [same]
  rfl

/--
A round of the loop from a trail that does not lie past its number.

As long as the number is not past the last one, the loop goes on with the next number from an
element that is not past it.
-/
theorem redecree_round (wf : node.pax.ilist.WellFormed)
    (leads : node.pax.ilist.Leads inner it path) (le : inner ≤ inum)
    (more : ∃ cell ∈ node.pax.ilist.cells, inum ≤ cell.inum) (fuel : Nat) :
    ∃ decrees next place stop, redecree (fuel + 1) node it inum = redecree fuel next
      place (inum + 1) ∧
      Round node inum decrees next ∧ next.pax.ilist.WellFormed ∧
      next.pax.ilist.At place stop ∧ stop ≤ inum := by
  -- The walk ends on the last instance that is not past the number.
  obtain ⟨lower, cell, upper, walked, whole, -, within, past⟩ := leads.getInstanceGlb wf le
  have mem : cell ∈ node.pax.ilist.cells := by simp [whole]
  have held : node.inst? cell.addr = some cell.inst := wf.inst?_of_mem mem
  have on : node.pax.ilist.onList cell.addr = true := Ilist.onList_iff.mpr ⟨cell, mem, rfl⟩
  by_cases less : cell.inst.hdr.inum < inum
  · -- Nobody in the quorum has heard of this number, but of a later one.
    have inside : upper ≠ [] := by
      rintro rfl
      obtain ⟨last, memLast, above⟩ := more
      rw [whole] at memLast
      have order := whole ▸ wf.ascending
      have below : cell.inum < inum := less
      rcases List.mem_append.mp memLast with front | back
      · have under := (List.pairwise_append.mp order).2.2 last front cell List.mem_cons_self
        omega
      · obtain rfl : last = cell := by simpa using back
        omega
    have notLast : ¬ node.pax.ilist.last.map Cell.addr = some cell.addr := by
      intro same
      -- The last element lies past the number, and is another one.
      obtain ⟨front, last, rfl⟩ := List.eq_nil_or_concat upper |>.resolve_left inside
      have final : node.pax.ilist.last = some last := by
        rw [Ilist.last, List.getLast?_eq_some_iff]
        exact ⟨lower ++ cell :: front, by simp [whole]⟩
      rw [final] at same
      have equal : last = cell :=
        wf.addr_inj (by simp [whole]) mem (Option.some.inj same)
      have above := past last (by simp)
      have below : cell.inum < inum := less
      rw [equal] at above
      omega
    have unfolds : redecree (fuel + 1) node it inum = redecree fuel
        (redecreeInstance (fillNull node cell.addr inum) (nextAddr node)
          (nullInstance node.bumpReqId.pax inum)) cell.addr (inum + 1) := by
      rw [← nullInstance_fillNull node cell.addr inum]
      simp [redecree, walked, held, less, notLast, on]
    obtain ⟨free, entries⟩ := fillNull_entries wf whole less past
    have wfFilled := fillNull_wellFormed wf whole less past
    have memNull := mem_fillNull wf inum whole
    have still : cell ∈ (fillNull node cell.addr inum).pax.ilist.cells := by
      rw [fillNull_cells wf inum whole]
      simp
    have again := redecreeInstance_entries wfFilled memNull
    have keeps : (fillNull node cell.addr inum).pax.ilist.Keeps
        ((fillNull node cell.addr inum).pax.ilist.modify (nextAddr node)
          (redecreed (fillNull node cell.addr inum).pax)) :=
      .modify wfFilled (wfFilled.inst?_of_mem memNull) rfl
    have round : Round node inum [redecreed node.pax (nullInstance node.bumpReqId.pax inum)]
        (redecreeInstance (fillNull node cell.addr inum) (nextAddr node)
          (nullInstance node.bumpReqId.pax inum)) := by
      obtain ⟨ilist, istart, same⟩ := fillNull_eq node cell.addr inum
      rw [entries] at again
      rw [same] at again ⊢
      refine .decree rfl ?_ (Or.inr ⟨free, rfl⟩) ?_
      · rintro ⟨inst, has, -⟩
        rw [free] at has
        contradiction
      · refine again.trans ?_
        exact Function.update_idem _ _ _
    exact ⟨_, _, cell.addr, cell.inum, unfolds, round,
      redecreeInstance_wellFormed wfFilled (wfFilled.inst?_of_mem memNull),
      keeps _ _ ⟨cell, still, rfl, rfl⟩, Nat.le_of_lt less⟩
  · -- The instance at the number is passed over if it is committed, and decreed again if not.
    have same : cell.inum = inum := by
      have notLess : ¬ cell.inum < inum := less
      omega
    have entry := wf.entries_eq_some.mpr ⟨cell, mem, same, rfl⟩
    cases committed : cell.inst.committed with
    | true =>
      refine ⟨[], node, cell.addr, cell.inum, ?_, .skip ⟨_, entry, committed⟩, wf,
        ⟨cell, mem, rfl, rfl⟩, within⟩
      simp [redecree, walked, held, less, committed]
    | false =>
      have keeps : node.pax.ilist.Keeps (node.pax.ilist.modify cell.addr (redecreed node.pax)) :=
        .modify wf held rfl
      have unfolds : redecree (fuel + 1) node it inum =
          redecree fuel (redecreeInstance node cell.addr cell.inst) cell.addr (inum + 1) := by
        simp [redecree, walked, held, less, committed]
      have round : Round node inum [redecreed node.pax cell.inst]
          (redecreeInstance node cell.addr cell.inst) := by
        refine .decree same ?_ (Or.inl entry) ?_
        · rintro ⟨inst, has, settled⟩
          obtain rfl : cell.inst = inst := Option.some.inj (entry.symm.trans has)
          rw [committed] at settled
          contradiction
        · rw [← same]
          exact redecreeInstance_entries wf mem
      exact ⟨_, _, cell.addr, cell.inum, unfolds, round, redecreeInstance_wellFormed wf held,
        keeps _ _ ⟨cell, mem, rfl, rfl⟩, within⟩

/--
What the loop has done when it ends.

It has announced the instances that the log now has for the numbers that were not committed.
-/
structure Redecides (node : Node) (first top : Nat) (decrees : List Instance) (done : Node) :
    Prop where
  frame : ∃ ilist istart reqId, done = { node with
    pax.ilist := ilist
    pax.istart := istart
    pax.reqId := reqId
    out := node.out ++ decrees.flatMap (announcement node.pax.alist) }
  wellFormed : done.pax.ilist.WellFormed
  /-- Every number that is not committed is decreed once, in order. -/
  numbers : decrees.map Instance.inum = (List.range' first (top + 1 - first)).filter fun inum =>
    ¬ Decided node.pax.ilist.entries inum
  /-- The log has what was decreed. -/
  held : ∀ inst ∈ decrees, done.pax.ilist.entries inst.inum = some inst
  /-- What was decreed is what the log had, or a null where it had nothing. -/
  origin : ∀ inst ∈ decrees, ∃ old, old.inum = inst.inum ∧ inst = redecreed node.pax old ∧
    (node.pax.ilist.entries inst.inum = some old ∨
      node.pax.ilist.entries inst.inum = none ∧ old.val.dkind = .null)
  kept : ∀ inum, inum < first ∨ Decided node.pax.ilist.entries inum →
    done.pax.ilist.entries inum = node.pax.ilist.entries inum

/-- A round of the loop only changes the entry for its number. -/
theorem Round.entries {decrees : List Instance} (round : Round node inum decrees next) {other : Nat}
    (apart : other ≠ inum) : next.pax.ilist.entries other = node.pax.ilist.entries other := by
  -- A round is over its own number, and another one is not touched.
  cases round with
  | skip => rfl
  | decree number open_ origin entries =>
    have same := congrFun entries other
    rw [Function.update_of_ne apart] at same
    exact same

/-- A round of the loop announces what it decrees. -/
theorem Round.frame {decrees : List Instance} (round : Round node inum decrees next) :
    ∃ ilist istart reqId, next = { node with
      pax.ilist := ilist
      pax.istart := istart
      pax.reqId := reqId
      out := node.out ++ decrees.flatMap (announcement node.pax.alist) } := by
  cases round with
  | skip => exact ⟨node.pax.ilist, node.pax.istart, node.pax.reqId, by simp⟩
  | @decree old ilist istart reqId => exact ⟨ilist, istart, reqId, by simp⟩

/-- The numbers that the loop still has to decree. -/
theorem Round.numbers {decrees : List Instance} (round : Round node inum decrees next)
    (within : inum ≤ top) :
    decrees.map Instance.inum ++ ((List.range' (inum + 1) (top + 1 - (inum + 1))).filter
      fun inum => ¬ Decided next.pax.ilist.entries inum) =
      (List.range' inum (top + 1 - inum)).filter
        fun inum => ¬ Decided node.pax.ilist.entries inum := by
  have later : ((List.range' (inum + 1) (top + 1 - (inum + 1))).filter
      fun inum => ¬ Decided next.pax.ilist.entries inum) =
      (List.range' (inum + 1) (top + 1 - (inum + 1))).filter
        fun inum => ¬ Decided node.pax.ilist.entries inum := by
    -- The round only decides its own number, so the later ones stand as before.
    refine List.filter_congr fun other mem => ?_
    have above : other ≠ inum := by
      have := List.mem_range'_1.mp mem
      omega
    have same : Decided next.pax.ilist.entries other ↔ Decided node.pax.ilist.entries other := by
      simp only [Decided, round.entries above]
    simp only [same]
  have length : top + 1 - inum = top + 1 - (inum + 1) + 1 := by omega
  rw [later, length, List.range'_succ]
  cases round with
  | skip settled => simp [settled]
  | decree number open_ =>
    have number : (redecreed node.pax _).inum = inum := number
    simp [open_, number]

/-- A round goes before the rest of the loop. -/
theorem Round.redecides {decrees later : List Instance} {done : Node}
    (round : Round node inum decrees next) (rest : Redecides next (inum + 1) top later done)
    (within : inum ≤ top) : Redecides node inum top (decrees ++ later) done := by
  have numbers := round.numbers within
  -- What is decreed later has a higher number.
  have above : ∀ inst ∈ later, inst.inum ≠ inum := by
    intro inst mem
    have listed : inst.inum ∈ later.map Instance.inum := List.mem_map_of_mem mem
    rw [rest.numbers] at listed
    have := List.mem_range'_1.mp (List.mem_filter.mp listed).1
    omega
  have pax : ∀ old, redecreed next.pax old = redecreed node.pax old := by
    obtain ⟨ilist, istart, reqId, rfl⟩ := round.frame
    exact fun old => rfl
  -- The decrees of the rest have higher numbers, so those of the round stay.
  constructor
  case frame =>
    obtain ⟨ilist, istart, reqId, rfl⟩ := round.frame
    obtain ⟨ilist, istart, reqId, same⟩ := rest.frame
    refine ⟨ilist, istart, reqId, same.trans ?_⟩
    simp
  case wellFormed => exact rest.wellFormed
  case numbers => rw [List.map_append, rest.numbers, numbers]
  case held =>
    intro inst mem
    rcases List.mem_append.mp mem with now | later
    · cases round with
      | skip => simp at now
      | @decree old ilist istart reqId number open_ origin entries =>
        obtain rfl : inst = redecreed node.pax old := by simpa using now
        have number : (redecreed node.pax old).inum = inum := number
        rw [rest.kept _ (Or.inl (by omega)), number]
        exact (congrFun entries inum).trans (Function.update_self ..)
    · exact rest.held inst later
  case origin =>
    intro inst mem
    rcases List.mem_append.mp mem with now | mem
    · cases round with
      | skip => simp at now
      | @decree old ilist istart reqId number open_ origin =>
        obtain rfl : inst = redecreed node.pax old := by simpa using now
        refine ⟨old, rfl, rfl, ?_⟩
        have number : (redecreed node.pax old).inum = inum := number
        rw [number]
        exact origin
    · obtain ⟨old, number, same, origin⟩ := rest.origin inst mem
      rw [round.entries (above inst mem)] at origin
      exact ⟨old, number, same.trans (pax old), origin⟩
  case kept =>
    intro other before
    have apart : other < inum + 1 ∨ Decided next.pax.ilist.entries other := by
      rcases before with less | decided
      · exact Or.inl (by omega)
      · by_cases same : other = inum
        · exact Or.inl (by omega)
        · right
          simpa only [Decided, round.entries same] using decided
    rw [rest.kept other apart]
    by_cases same : other = inum
    · -- At its own number a round only passes over what is committed.
      cases round with
      | skip => rfl
      | decree number open_ =>
        rcases before with less | decided
        · omega
        · rw [same] at decided
          exact absurd decided open_
    · exact round.entries same

/-- Past the last number the loop ends. -/
theorem redecree_ends (wf : node.pax.ilist.WellFormed)
    (leads : node.pax.ilist.Leads inner it path) (le : inner ≤ inum)
    (bounded : ∀ cell ∈ node.pax.ilist.cells, cell.inum < inum) (fuel : Nat) :
    redecree (fuel + 1) node it inum = .ok node := by
  -- The walk ends on an instance below the number.
  obtain ⟨lower, cell, upper, walked, whole, -, -, past⟩ := leads.getInstanceGlb wf le
  have mem : cell ∈ node.pax.ilist.cells := by simp [whole]
  have held : node.inst? cell.addr = some cell.inst := wf.inst?_of_mem mem
  have less : cell.inst.hdr.inum < inum := bounded cell mem
  -- Nothing lies past the number, so the walk ends on the last element.
  have none_ : upper = [] := by
    rw [List.eq_nil_iff_forall_not_mem]
    intro x memx
    have above := past x memx
    have below := bounded x (by simp [whole, memx])
    omega
  have last : node.pax.ilist.last.map Cell.addr = some cell.addr := by
    simp [Ilist.last, whole, none_]
  simp [redecree, walked, held, less, last]

/-- When nothing is left to decree, nothing happens. -/
theorem Redecides.nil (wf : node.pax.ilist.WellFormed) (past : top < inum) :
    Redecides node inum top [] node where
  frame := ⟨node.pax.ilist, node.pax.istart, node.pax.reqId, by simp⟩
  -- The range of the numbers is empty.
  wellFormed := wf
  numbers := by
    have none_ : top + 1 - inum = 0 := by omega
    simp [none_]
  held := by simp
  origin := by simp
  kept := fun _ _ => rfl

/-- A round of the loop leaves the last number as it is. -/
theorem Round.has {decrees : List Instance} (round : Round node inum decrees next)
    (wf : node.pax.ilist.WellFormed) (wfNext : next.pax.ilist.WellFormed) (other : Nat) :
    next.pax.ilist.Has other ↔ node.pax.ilist.Has other ∨ other = inum := by
  -- Only the entry at the number of the round may have come.
  by_cases same : other = inum
  · subst same
    have listed : next.pax.ilist.Has other := by
      cases round with
      | skip settled =>
        obtain ⟨inst, has, -⟩ := settled
        obtain ⟨cell, mem, number, -⟩ := wf.entries_eq_some.mp has
        exact ⟨cell, mem, number⟩
      | decree number open_ origin entries =>
        obtain ⟨cell, mem, number, -⟩ := wfNext.entries_eq_some.mp
          ((congrFun entries other).trans (Function.update_self ..))
        exact ⟨cell, mem, number⟩
    simp [listed]
  · have none_ := round.entries same
    have iff : next.pax.ilist.Has other ↔ node.pax.ilist.Has other := by
      rw [← not_iff_not, ← wf.entries_eq_none, ← wfNext.entries_eq_none, none_]
    simp [iff, same]

/-- A log with an element has a last number. -/
theorem Ilist.WellFormed.exists_top {list : Ilist} (wf : list.WellFormed) {inum : Nat}
    (has : list.Has inum) : ∃ top, list.Has top ∧ ∀ other, list.Has other → other ≤ top := by
  -- The log ascends, so its last element has the greatest number.
  obtain ⟨cell, mem, -⟩ := has
  obtain ⟨front, last, whole⟩ := List.eq_nil_or_concat list.cells |>.resolve_left
    (List.ne_nil_of_mem mem)
  rw [List.concat_eq_append] at whole
  refine ⟨last.inum, ⟨last, by simp [whole], rfl⟩, ?_⟩
  rintro other ⟨x, memx, rfl⟩
  have order := whole ▸ wf.ascending
  rw [whole] at memx
  rcases List.mem_append.mp memx with before | here
  · exact Nat.le_of_lt ((List.pairwise_append.mp order).2.2 x before last List.mem_cons_self)
  · obtain rfl : x = last := by simpa using here
    exact Nat.le_refl _

/-- The loop ends on the last element of the log, and has decreed all that is not committed. -/
theorem redecree_run (rounds : Nat) (wf : node.pax.ilist.WellFormed)
    (leads : node.pax.ilist.Leads inner it path) (le : inner ≤ inum)
    (bounded : ∀ other, node.pax.ilist.Has other → other ≤ top) (has : node.pax.ilist.Has top)
    (enough : top < inum + rounds) :
    ∃ decrees done, redecree (rounds + 1) node it inum = .ok done ∧
      Redecides node inum top decrees done := by
  -- The rounds left are enough for the numbers up to the last one.
  induction rounds generalizing node it inum inner path with
  | zero =>
    refine ⟨[], node, redecree_ends wf leads le ?_ 0, .nil wf (by omega)⟩
    intro cell mem
    have within := bounded cell.inum ⟨cell, mem, rfl⟩
    omega
  | succ rounds ih =>
    by_cases past : top < inum
    · refine ⟨[], node, redecree_ends wf leads le ?_ _, .nil wf past⟩
      intro cell mem
      have within := bounded cell.inum ⟨cell, mem, rfl⟩
      omega
    · have within : inum ≤ top := by omega
      have more : ∃ cell ∈ node.pax.ilist.cells, inum ≤ cell.inum := by
        obtain ⟨cell, mem, number⟩ := has
        exact ⟨cell, mem, by omega⟩
      obtain ⟨decrees, next, place, stop, unfolds, round, wfNext, at_, below⟩ :=
        redecree_round wf leads le more (rounds + 1)
      -- The number of the round is not past the last one.
      have bounded : ∀ other, next.pax.ilist.Has other → other ≤ top := by
        intro other listed
        rcases (round.has wf wfNext other).mp listed with old | rfl
        · exact bounded other old
        · exact within
      have has := (round.has wf wfNext top).mpr (Or.inl has)
      have onward : stop ≤ inum + 1 := by omega
      obtain ⟨later, done, ran, rest⟩ := ih wfNext at_.leads onward bounded has (by omega)
      exact ⟨decrees ++ later, done, unfolds.trans ran, round.redecides rest within⟩

end Motmot
