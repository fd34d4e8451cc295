import Motmot.Proofs.Paxos.Astray
import Motmot.Proofs.Paxos.Lagging

/-! A majority of promises makes the preparer decree the highest vote for every number. -/

namespace Motmot

/-- A promise: its header and its votes. -/
abbrev Promise := Header × List PackedInstance

/-- The message that brings a promise. -/
def Promise.msg (promise : Promise) : Msg := ⟨promise.1, .votes promise.2.length promise.2⟩

/-- Acknowledges promises one after the other. -/
def ackPromises (fuel : Nat) : Node → List Promise → Result
  | node, [] => .ok node
  | node, promise :: promises =>
    (proposerAckPromise fuel node promise.msg).andThen fun node => ackPromises fuel node promises

/-- What the preparer itself and the promises report for a number. -/
def reports (entries : Nat → Option Instance) (votes : List PackedInstance) (inum : Nat) :
    List Instance :=
  (entries inum).toList ++ (votes.map voteInstance).filter fun inst => Instance.inum inst = inum

/-- A value is that of a highest-ballot report for a number, or a null if there is none. -/
def Highest (entries : Nat → Option Instance) (votes : List PackedInstance) (inum : Nat)
    (val : Value) : Prop :=
  (reports entries votes inum = [] ∧ val.dkind = .null) ∨
    ∃ inst ∈ reports entries votes inum, inst.val = val ∧
      ∀ other ∈ reports entries votes inum,
        ballotCompare other.hdr.ballot inst.hdr.ballot ≠ .gt

/-- A number that the preparer has or a promise reports. -/
def HeardOf (node : Node) (votes : List PackedInstance) (inum : Nat) : Prop :=
  node.pax.ilist.Has inum ∨ ∃ vote ∈ votes, vote.hdr.inum = inum

/--
The decrees with which a prepare ends choose the highest votes.

There is one for every number from the hole up to the last one that is known, except where the
preparer has a commit, and the log has the instance that was decreed.
-/
structure Chooses (node : Node) (prep : Prep) (votes : List PackedInstance)
    (decrees : List Instance) (done : Node) : Prop where
  announced : done.out = node.out ++ decrees.flatMap (announcement node.pax.alist)
  numbers : ∃ top, HeardOf node votes top ∧ (∀ inum, HeardOf node votes inum → inum ≤ top) ∧
    decrees.map Instance.inum = (List.range' node.pax.ihole (top + 1 - node.pax.ihole)).filter
      fun inum => ¬ Decided node.pax.ilist.entries inum
  header : ∀ inst ∈ decrees, inst.hdr.opcode = .decree ∧ inst.hdr.ballot = prep.ballot
  /-- Nobody but ourselves has accepted a new decree. -/
  fresh : ∀ inst ∈ decrees, inst.committed = false ∧ inst.votes = 1 ∧ inst.rejects = 0
  highest : ∀ inst ∈ decrees, Highest node.pax.ilist.entries votes inst.inum inst.val
  /-- The instance that will collect the accepts is the one that was decreed. -/
  held : ∀ inst ∈ decrees, (done.pax.ilist.find inst.inum).map Cell.inst = some inst

/--
The promises are acknowledged and the last one makes a majority.

The loop that decrees again comes to its end, and the deferred decrees are what is left to do.
-/
def Ends (fuel : Nat) (node : Node) (prep : Prep) (earlier : List Promise) (last : Promise)
    (done : Node) : Prop :=
  ∃ counted merged start, ackPromises fuel node earlier = .ok counted ∧
    mergePromise counted prep.istart last.2 = .ok merged ∧ prep.istart = some start ∧
    redecree fuel (elect { prep with acks := prep.acks + earlier.length } merged) start
      merged.pax.ihole = .ok done ∧
    ackPromises fuel node (earlier ++ [last]) =
      decreeDeferred (paxosCommit fuel) fuel (done.setPrep none)

/-- The votes of promises, one after the other. -/
abbrev votesOf (promises : List Promise) : List PackedInstance := promises.flatMap Prod.snd

/-- A prepare that a majority acknowledges chooses the highest votes, given enough fuel. -/
def Selects (node : Node) (prep : Prep) (earlier : List Promise) (last : Promise) : Prop :=
  ∃ enough, ∀ fuel, enough ≤ fuel → ∃ done decrees, Ends fuel node prep earlier last done ∧
    Chooses node prep (votesOf (earlier ++ [last])) decrees done

/-- A vote outranks everything that the preparer has and earlier votes have for its number. -/
def Overtakes (entries : Nat → Option Instance) (before : List PackedInstance)
    (vote : PackedInstance) : Prop :=
  (∀ inst, entries vote.hdr.inum = some inst →
    inst.committed = false ∧ ballotCompare vote.hdr.ballot inst.hdr.ballot = .gt) ∧
  ∀ other ∈ before, other.hdr.inum = vote.hdr.inum →
    ballotCompare vote.hdr.ballot other.hdr.ballot = .gt

/--
No promise has further votes behind one that overtakes the instance of a given number.

Such a promise would unpack its next vote into the allocation of that instance.
-/
def Intact (node : Node) (inum : Nat) (promises : List Promise) : Prop :=
  ∀ before promise after, promises = before ++ promise :: after → ∀ vote ∈ promise.2.dropLast,
    vote.hdr.inum = inum → ¬ Overtakes node.pax.ilist.entries (votesOf before) vote

/--
A promise has further votes behind the first one that takes over the preparer's own instance.

The instance that the prepare has cached is then numbered like the next vote.
-/
def Recycles (node : Node) (inum : Nat) (promises : List Promise) : Prop :=
  ∃ own before promise after vote, node.pax.ilist.entries inum = some own ∧
    own.committed = false ∧ promises = before ++ promise :: after ∧ vote ∈ promise.2.dropLast ∧
    vote.hdr.inum = inum ∧ ballotCompare vote.hdr.ballot own.hdr.ballot = .gt ∧
    ∀ other ∈ votesOf before, other.hdr.inum = inum →
      ballotCompare other.hdr.ballot own.hdr.ballot ≠ .gt

variable {node : Node} {prep : Prep} {votes : List PackedInstance} {promise : Promise}
  {start : Addr} {inum : Nat} {path : List Detached}

/-- Whoever first outranks our own instance outranks every earlier vote as well. -/
theorem Recycles.not_intact {promises : List Promise} (recycles : Recycles node inum promises) :
    ¬ Intact node inum promises := by
  obtain ⟨own, before, promise, after, vote, has, open_, split, mem, rfl, higher, first⟩ := recycles
  intro intact
  refine intact before promise after split vote mem rfl ⟨?_, ?_⟩
  · -- The own instance is open and outranked.
    intro inst same
    obtain rfl : own = inst := Option.some.inj (has.symm.trans same)
    exact ⟨open_, higher⟩
  · -- No earlier vote outranks our own instance, and this one does.
    intro other memOther same
    have lower := first other memOther same
    simp only [ballotCompare, ne_eq, ppairCompare_eq_gt] at higher lower ⊢
    omega

/-- Ballots are compared one way. -/
theorem outranks_asym (x y : Instance) (higher : outranks x y = true) : outranks y x = false := by
  simp only [outranks, decide_eq_true_eq, decide_eq_false_iff_not, ballotCompare,
    ppairCompare_eq_gt] at higher ⊢
  omega

/-- Whoever is outranked is outranked by one of any two of which the first outranks the other. -/
theorem outranks_weak (x y z : Instance) (higher : outranks x z = true) :
    outranks x y = true ∨ outranks y z = true := by
  simp only [outranks, decide_eq_true_eq, ballotCompare, ppairCompare_eq_gt] at higher ⊢
  omega

/-- The votes of earlier promises have left the highest report for each number. -/
theorem hold_entry (entries : Nat → Option Instance) :
    ((votes.map voteInstance).foldl counted entries) inum =
      Contest.hold Instance.committed outranks (entries inum)
        ((votes.map voteInstance).filter fun inst => Instance.inum inst = inum) :=
  Contest.foldl_run inum

/-- What the votes report for a number is open, whatever they say themselves. -/
theorem mem_candidates {inst : Instance} : inst ∈ ((votes.map voteInstance).filter
    fun inst => Instance.inum inst = inum) ↔
      ∃ vote ∈ votes, vote.hdr.inum = inum ∧ inst = voteInstance vote := by
  -- A vote is taken as open when it is unpacked.
  simp only [List.mem_filter, List.mem_map, decide_eq_true_eq]
  constructor
  · rintro ⟨⟨vote, mem, rfl⟩, number⟩
    exact ⟨vote, mem, number, rfl⟩
  · rintro ⟨vote, mem, number, rfl⟩
    exact ⟨⟨vote, mem, rfl⟩, number⟩

/-- A vote loses against what earlier votes have left exactly when it does not overtake them. -/
theorem loses_iff {vote : PackedInstance} {entries : Nat → Option Instance} {own : Instance}
    (has : entries vote.hdr.inum = some own) :
    Loses ((votes.map voteInstance).foldl counted entries) vote ↔
      ¬ Overtakes entries votes vote := by
  -- What earlier votes have left is the holder of the contest for the number.
  have entry := @hold_entry votes vote.hdr.inum entries
  rw [has] at entry
  generalize cands : ((votes.map voteInstance).filter fun inst =>
    Instance.inum inst = vote.hdr.inum) = candidates at entry
  have member : ∀ {inst}, inst ∈ candidates ↔
      ∃ other ∈ votes, other.hdr.inum = vote.hdr.inum ∧ inst = voteInstance other := by
    rw [← cands]
    exact mem_candidates
  -- The number is held by our own instance or by one of the candidates.
  cases holds : Contest.hold Instance.committed outranks (some own) candidates with
  | none =>
    have vacant := (Contest.hold_eq_none.mp holds).1
    contradiction
  | some holder =>
    rw [holds] at entry
    have loses : Loses ((votes.map voteInstance).foldl counted entries) vote ↔
        holder.committed = true ∨ ballotCompare vote.hdr.ballot holder.hdr.ballot ≠ .gt := by
      simp only [Loses, entry, Option.some.injEq]
      exact ⟨fun all => all holder rfl, fun one inst same => same ▸ one⟩
    rw [loses]
    have wins : Overtakes entries votes vote ↔ (own.committed = false ∧
        outranks (voteInstance vote) own = true) ∧
          ∀ inst ∈ candidates, outranks (voteInstance vote) inst = true := by
      simp only [Overtakes, has, Option.some.injEq, forall_eq', outranks, decide_eq_true_eq, member]
      refine and_congr_right fun _ => ⟨?_, ?_⟩
      · rintro all _ ⟨other, mem, number, rfl⟩
        exact all other mem number
      · intro all other mem number
        exact all _ ⟨other, mem, number, rfl⟩
    rw [wins]
    cases committed : own.committed with
    | true =>
      -- What we have committed stays.
      rw [Contest.hold_settled committed] at holds
      obtain rfl := Option.some.inj holds
      simp [committed]
    | false =>
      have open_ : holder.committed = false := by
        rcases Contest.hold_mem holds with same | mem
        · obtain rfl := Option.some.inj same
          exact committed
        · obtain ⟨other, -, -, rfl⟩ := member.mp mem
          rfl
      have higher : outranks (voteInstance vote) holder = true ↔
          ballotCompare vote.hdr.ballot holder.hdr.ballot = .gt := decide_eq_true_iff
      rw [← not_iff_not, not_not, not_or, not_not, ← higher]
      simp only [open_, Bool.false_eq_true, not_false_iff, true_and]
      constructor
      · -- Nobody outranks the holder, so whoever outranks it outranks them all.
        intro wins
        have all : ∀ x, some own = some x ∨ x ∈ candidates →
            outranks (voteInstance vote) x = true := by
          intro x stood
          have below := Contest.hold_unbeaten outranks_asym outranks_weak
            (fun own' same => by cases same; exact committed)
            (fun inst mem => by obtain ⟨other, -, -, rfl⟩ := member.mp mem; rfl) holds stood
          rcases outranks_weak _ x holder wins with first | second
          · exact first
          · rw [below] at second
            contradiction
        exact ⟨all own (Or.inl rfl), fun inst mem => all inst (Or.inr mem)⟩
      · rintro ⟨first, rest⟩
        rcases Contest.hold_mem holds with same | mem
        · obtain rfl := Option.some.inj same
          exact first
        · exact rest holder mem

/-- What earlier promises have left for each number. -/
abbrev tallied (node : Node) (promises : List Promise) : Nat → Option Instance :=
  ((votesOf promises).map voteInstance).foldl counted node.pax.ilist.entries

/-- A promise that is merged goes in front of those that come behind it. -/
theorem tallied_cons {merged : Node} (collects : Collects node promise.2 merged)
    (prep : Option Prep) (before : List Promise) :
    tallied (merged.setPrep prep) before = tallied node (promise :: before) := by
  have entries : (merged.setPrep prep).pax.ilist.entries = _ := collects.entries
  simp only [tallied, entries, votesOf, List.flatMap_cons, List.map_append, List.foldl_append]

/-- No vote but the last one of each promise takes the number of the cursor over. -/
def AllClear (node : Node) (inum : Nat) (promises : List Promise) : Prop :=
  ∀ before promise after, promises = before ++ promise :: after →
    Clear (tallied node before) inum promise.2

/-- A promise is clear when it is and those behind it are. -/
theorem AllClear.cons {merged : Node} {prep : Option Prep} {promises : List Promise}
    (collects : Collects node promise.2 merged)
    (first : Clear node.pax.ilist.entries inum promise.2)
    (rest : AllClear (merged.setPrep prep) inum promises) :
    AllClear node inum (promise :: promises) := by
  intro before other after split
  -- The promise is the first one, or one of those behind it.
  cases before with
  | nil =>
    obtain ⟨rfl, rfl⟩ := List.cons.inj split
    exact first
  | cons head before =>
    obtain ⟨rfl, rfl⟩ := List.cons.inj split
    rw [← tallied_cons collects prep]
    exact rest before other after rfl

/-- A promise that does not make a majority is merged and counted. -/
theorem proposerAckPromise_counts (wf : node.pax.ilist.WellFormed)
    (preparing : node.pax.prep = some prep) (current : promise.1.ballot = prep.ballot)
    (cached : prep.istart = some start) (leads : node.pax.ilist.Leads inum start path)
    (ahead : ∀ vote ∈ promise.2, inum ≤ vote.hdr.inum)
    (ascending : promise.2.Pairwise fun x y => x.hdr.inum < y.hdr.inum)
    (few : prep.acks + 1 < majority node.pax) :
    ∃ merged, (∀ fuel, proposerAckPromise fuel node promise.msg =
        .ok (merged.setPrep (some { prep with acks := prep.acks + 1 }))) ∧
      Collects node promise.2 merged ∧ (Clear node.pax.ilist.entries inum promise.2 →
        ∃ longer, merged.pax.ilist.Leads inum start longer) := by
  -- The votes are merged, and the count is short of a majority.
  obtain ⟨merged, merges, collects, keeps⟩ := mergePromise_counts wf leads ahead ascending
  refine ⟨merged, ?_, collects, keeps⟩
  intro fuel
  have same : ballotCompare prep.ballot promise.1.ballot = .eq := by
    rw [current]
    exact ppairCompare_eq_eq.mpr rfl
  -- Merging does not change how many acceptors there are.
  obtain ⟨ilist, istart, rfl⟩ := collects.frame
  simp only [proposerAckPromise, preparing, Promise.msg, same, ne_eq, not_true_eq_false, if_false,
    cached, merges, Outcome.andThen_ok]
  exact if_pos few

/-- Promises that do not make a majority yet are merged and counted one after the other. -/
theorem ackPromises_counts (promises : List Promise) (wf : node.pax.ilist.WellFormed)
    (preparing : node.pax.prep = some prep)
    (current : ∀ promise ∈ promises, promise.1.ballot = prep.ballot)
    (cached : prep.istart = some start) (leads : node.pax.ilist.Leads inum start path)
    (ahead : ∀ promise ∈ promises, ∀ vote ∈ promise.2, inum ≤ vote.hdr.inum)
    (ascending : ∀ promise ∈ promises, promise.2.Pairwise fun x y => x.hdr.inum < y.hdr.inum)
    (few : prep.acks + promises.length < majority node.pax)
    (clear : AllClear node inum promises) :
    ∃ counted longer, (∀ fuel, ackPromises fuel node promises = .ok counted) ∧
      counted.pax.ilist.WellFormed ∧ counted.pax.ilist.entries = tallied node promises ∧
      counted.pax.ilist.Leads inum start longer ∧ ∃ ilist istart, counted = { node with
        pax.ilist := ilist
        pax.istart := istart
        pax.prep := some { prep with acks := prep.acks + promises.length } } := by
  -- Each promise leaves the cursor in place for the next one.
  induction promises generalizing node prep path with
  | nil =>
    refine ⟨node, path, fun _ => rfl, wf, rfl, leads, node.pax.ilist, node.pax.istart, ?_⟩
    obtain ⟨pax, out, script⟩ := node
    simp only [List.length_nil, Nat.add_zero]
    rw [← preparing]
  | cons promise promises ih =>
    simp only [List.length_cons] at few
    obtain ⟨merged, acks, collects, keeps⟩ := proposerAckPromise_counts wf preparing
      (current promise List.mem_cons_self) cached leads (ahead promise List.mem_cons_self)
      (ascending promise List.mem_cons_self) (by omega)
    obtain ⟨longer, leads⟩ := keeps (clear [] promise promises rfl)
    have majority_ : majority merged.pax = majority node.pax := by
      obtain ⟨ilist, istart, rfl⟩ := collects.frame
      rfl
    have still : prep.acks + 1 + promises.length < majority merged.pax := by
      rw [majority_]
      omega
    have entries := tallied_cons collects (some { prep with acks := prep.acks + 1 })
    obtain ⟨counted, final, runs, wfCounted, same, leads, ilist, istart, frame⟩ :=
      @ih (merged.setPrep (some { prep with acks := prep.acks + 1 }))
        { prep with acks := prep.acks + 1 } longer collects.wellFormed rfl
        (fun other mem => current other (List.mem_cons_of_mem _ mem)) cached leads
        (fun other mem => ahead other (List.mem_cons_of_mem _ mem))
        (fun other mem => ascending other (List.mem_cons_of_mem _ mem))
        still
        (fun before other after split => by
          rw [entries]
          exact clear (promise :: before) other after (by rw [split]; rfl))
    refine ⟨counted, final, ?_, wfCounted, same.trans (entries promises), leads, ilist, istart, ?_⟩
    · intro fuel
      simp only [ackPromises, acks, Outcome.andThen_ok, runs]
    · obtain ⟨list, cursor, rfl⟩ := collects.frame
      have total : prep.acks + 1 + promises.length = prep.acks + (promises.length + 1) := by omega
      rw [frame]
      simp only [Node.setPrep, total, List.length_cons]

/--
The promises with which a preparer reaches a majority.

They are for its ballot, their votes ascend, and none of them lies in front of the instance that the
prepare has cached. The hole of the preparer is the first number that is not committed.
-/
structure Quorum (node : Node) (prep : Prep) (inum : Nat) (earlier : List Promise)
  (last : Promise) :
    Prop where
  wellFormed : node.pax.ilist.WellFormed
  settled : ∀ cell ∈ node.pax.ilist.cells, cell.inum < node.pax.ihole → cell.inst.committed = true
  preparing : node.pax.prep = some prep
  cached : ∃ start, prep.istart = some start ∧ node.pax.ilist.At start inum
  within : inum ≤ node.pax.ihole
  current : ∀ promise ∈ earlier ++ [last], promise.1.ballot = prep.ballot
  ahead : ∀ promise ∈ earlier ++ [last], ∀ vote ∈ promise.2, inum ≤ vote.hdr.inum
  ascending : ∀ promise ∈ earlier ++ [last],
    promise.2.Pairwise fun x y => x.hdr.inum < y.hdr.inum
  reaches : prep.acks + (earlier.length + 1) = majority node.pax

/-- Votes leave it open what is not committed. -/
theorem decided_iff (entries : Nat → Option Instance) (votes : List PackedInstance) (inum : Nat) :
    Decided ((votes.map voteInstance).foldl counted entries) inum ↔ Decided entries inum := by
  simp only [Decided, hold_entry]
  constructor
  · rintro ⟨inst, holds, committed⟩
    rcases Contest.hold_mem holds with own | mem
    · exact ⟨inst, own, committed⟩
    · -- A candidate is open.
      obtain ⟨vote, -, -, rfl⟩ := mem_candidates.mp mem
      contradiction
  · rintro ⟨inst, own, committed⟩
    rw [own]
    exact ⟨inst, Contest.hold_settled committed, committed⟩

/-- What is left for a number that is not committed is a highest report. -/
theorem highest_of_entry {entries : Nat → Option Instance} {old : Instance}
    (open_ : ¬ Decided entries inum)
    (origin : (votes.map voteInstance).foldl counted entries inum = some old ∨
      (votes.map voteInstance).foldl counted entries inum = none ∧ old.val.dkind = .null) :
    Highest entries votes inum old.val := by
  -- The entry is the holder of the contest, or a null where nothing was reported.
  rw [hold_entry] at origin
  rcases origin with holds | ⟨vacant, null⟩
  · right
    have member : ∀ inst, inst ∈ reports entries votes inum ↔
        entries inum = some inst ∨ inst ∈ (votes.map voteInstance).filter fun inst =>
          Instance.inum inst = inum := by
      intro inst
      simp only [reports, List.mem_append, Option.mem_toList]
    refine ⟨old, (member old).mpr (Contest.hold_mem holds), rfl, ?_⟩
    intro other mem
    have below := Contest.hold_unbeaten outranks_asym outranks_weak
      (fun own same => by
        by_contra committed
        exact open_ ⟨own, same, by simpa using committed⟩)
      (fun inst mem => by
        obtain ⟨vote, -, -, rfl⟩ := mem_candidates.mp mem
        rfl) holds ((member other).mp mem)
    exact of_decide_eq_false below
  · left
    obtain ⟨none_, nobody⟩ := Contest.hold_eq_none.mp vacant
    refine ⟨?_, null⟩
    rw [reports, none_, nobody]
    rfl

/-- Promises are acknowledged one part after the other. -/
theorem ackPromises_append (fuel : Nat) (node : Node) (promises others : List Promise) :
    ackPromises fuel node (promises ++ others) =
      (ackPromises fuel node promises).andThen fun node => ackPromises fuel node others := by
  -- By induction on the promises, each of which may halt the session.
  induction promises generalizing node with
  | nil => rfl
  | cons promise promises ih =>
    simp only [List.cons_append, ackPromises]
    cases proposerAckPromise fuel node promise.msg with
    | ok next => exact ih next
    | stop reason halted => rfl

/-- A prepare ends with the loop that decrees again, and with the deferred decrees behind it. -/
theorem finishPrepare_eq (fuel : Nat) (node : Node) (cached : prep.istart = some start) :
    finishPrepare fuel node prep =
      (redecree fuel (node.setBallot prep.ballot) start node.pax.ihole).andThen fun node =>
        decreeDeferred (paxosCommit fuel) fuel (node.setPrep none) := by
  unfold finishPrepare
  rw [cached]
  rfl

/-- A promise that makes a majority ends the prepare. -/
theorem proposerAckPromise_ends {fuel : Nat} {merged done : Node}
    (preparing : node.pax.prep = some prep) (current : promise.1.ballot = prep.ballot)
    (cached : prep.istart = some start)
    (merges : mergePromise node (some start) promise.2 = .ok merged)
    (enough : majority merged.pax ≤ prep.acks + 1)
    (ran : redecree fuel (elect prep merged) start merged.pax.ihole = .ok done) :
    proposerAckPromise fuel node promise.msg =
      decreeDeferred (paxosCommit fuel) fuel (done.setPrep none) := by
  -- The ballot is that of the prepare, and the count is a majority now.
  have same : ballotCompare prep.ballot promise.1.ballot = .eq := by
    rw [current]
    exact ppairCompare_eq_eq.mpr rfl
  have counts : ¬ prep.acks + 1 <
      majority (merged.setPrep (some { prep with acks := prep.acks + 1 })).pax := by
    have enough : majority (merged.setPrep (some { prep with acks := prep.acks + 1 })).pax ≤
        prep.acks + 1 := enough
    omega
  have merges : mergePromise node prep.istart promise.2 = .ok merged := by
    rw [cached]
    exact merges
  simp only [proposerAckPromise, preparing, Promise.msg, same, ne_eq, not_true_eq_false, if_false]
  rw [merges, Outcome.andThen_ok]
  have loop : redecree fuel ((merged.setPrep (some { prep with acks := prep.acks + 1 })).setBallot
      prep.ballot) start merged.pax.ihole = .ok done := ran
  have ends := @finishPrepare_eq { prep with acks := prep.acks + 1 } start fuel
    (merged.setPrep (some { prep with acks := prep.acks + 1 })) cached
  refine (if_neg counts).trans (ends.trans ?_)
  exact congrArg (Outcome.andThen · fun node =>
    decreeDeferred (paxosCommit fuel) fuel (node.setPrep none)) loop

/-- A majority of promises that leaves the cached instance intact chooses the highest votes. -/
theorem Quorum.selects {earlier : List Promise} {last : Promise}
    (quorum : Quorum node prep inum earlier last)
    (intact : Intact node inum (earlier ++ [last])) : Selects node prep earlier last := by
  have wf := quorum.wellFormed
  obtain ⟨start, cached, place⟩ := quorum.cached
  have reaches := quorum.reaches
  have own : ∃ own, node.pax.ilist.entries inum = some own := by
    obtain ⟨cell, mem, -, number⟩ := place
    exact ⟨cell.inst, wf.entries_eq_some.mpr ⟨cell, mem, number, rfl⟩⟩
  obtain ⟨own, has⟩ := own
  -- No vote but the last one of a promise takes the number of the cursor over.
  have clear : AllClear node inum (earlier ++ [last]) := by
    intro before promise after split vote memVote same
    subst same
    exact (loses_iff has).mpr (intact before promise after split vote memVote rfl)
  have prior : ∀ promise ∈ earlier, promise ∈ earlier ++ [last] :=
    fun promise mem => List.mem_append_left _ mem
  have final : last ∈ earlier ++ [last] := by simp
  -- The earlier promises are counted, and the last one is merged behind them.
  obtain ⟨counted, path, runs, wfCounted, entries, leads, ilist, istart, frame⟩ :=
    ackPromises_counts earlier wf quorum.preparing
      (fun promise mem => quorum.current promise (prior promise mem)) cached place.leads
      (fun promise mem => quorum.ahead promise (prior promise mem))
      (fun promise mem => quorum.ascending promise (prior promise mem)) (by omega)
      (fun before promise after split => clear before promise (after ++ [last]) (by simp [split]))
  obtain ⟨merged, merges, collects, keeps⟩ := mergePromise_counts wfCounted leads
    (quorum.ahead last final) (quorum.ascending last final)
  obtain ⟨longer, leads⟩ := keeps (by rw [entries]; exact clear earlier last [] rfl)
  have total : merged.pax.ilist.entries =
      ((votesOf (earlier ++ [last])).map voteInstance).foldl Motmot.counted
        node.pax.ilist.entries := by
    rw [collects.entries, entries]
    simp only [votesOf, List.flatMap_append, List.flatMap_cons, List.flatMap_nil, List.append_nil,
      List.map_append, List.foldl_append]
  obtain ⟨list, cursor, frame'⟩ := collects.frame
  have hole : merged.pax.ihole = node.pax.ihole := by rw [frame', frame]
  -- The last number that is left is the last one that was heard of.
  have heard := wf.has_counted collects.wellFormed total
  obtain ⟨top, listed, bounded⟩ := collects.wellFormed.exists_top
    ((heard inum).mpr (Or.inl place.has))
  have within : inum ≤ merged.pax.ihole := hole ▸ quorum.within
  refine ⟨top + 2, ?_⟩
  intro fuel enough
  obtain ⟨rounds, rfl⟩ : ∃ rounds, fuel = rounds + 1 := ⟨fuel - 1, by omega⟩
  obtain ⟨decrees, done, ran, redecides⟩ := @redecree_run
    (elect { prep with acks := prep.acks + earlier.length } merged) start merged.pax.ihole
      inum top longer rounds collects.wellFormed leads within bounded listed (by omega)
  have ends : proposerAckPromise (rounds + 1) counted last.msg =
      decreeDeferred (paxosCommit (rounds + 1)) (rounds + 1) (done.setPrep none) := by
    refine @proposerAckPromise_ends counted { prep with acks := prep.acks + earlier.length } last
      start (rounds + 1) merged done ?_ (quorum.current last final) cached merges ?_ ran
    · rw [frame]
    · rw [frame', frame]
      exact Nat.le_of_eq reaches.symm
  have acked : ackPromises (rounds + 1) node (earlier ++ [last]) =
      decreeDeferred (paxosCommit (rounds + 1)) (rounds + 1) (done.setPrep none) := by
    rw [ackPromises_append, runs, Outcome.andThen_ok]
    simp only [ackPromises, ends]
    cases decreeDeferred (paxosCommit (rounds + 1)) (rounds + 1) (done.setPrep none) <;> rfl
  refine ⟨done, decrees, ⟨counted, merged, start, runs _, by rw [cached, merges], cached, ran,
    acked⟩, ?_⟩
  have numbers : decrees.map Instance.inum =
      (List.range' node.pax.ihole (top + 1 - node.pax.ihole)).filter
        fun inum => ¬ Decided node.pax.ilist.entries inum := by
    rw [redecides.numbers, hole]
    refine List.filter_congr fun i _ => ?_
    have same : (elect { prep with acks := prep.acks + earlier.length } merged).pax.ilist.entries =
        merged.pax.ilist.entries := rfl
    simp only [same, total, decided_iff]
  constructor
  case announced =>
    obtain ⟨_, _, _, same⟩ := redecides.frame
    rw [same, frame', frame]
    rfl
  case numbers =>
    exact ⟨top, (heard top).mp listed, fun i known => bounded i ((heard i).mpr known), numbers⟩
  case header =>
    intro inst mem
    obtain ⟨old, -, rfl, -⟩ := redecides.origin inst mem
    exact ⟨rfl, rfl⟩
  case fresh =>
    intro inst mem
    obtain ⟨old, -, rfl, -⟩ := redecides.origin inst mem
    exact ⟨rfl, rfl, rfl⟩
  case highest =>
    intro inst mem
    have decreed : inst.inum ∈ decrees.map Instance.inum := List.mem_map_of_mem mem
    rw [numbers] at decreed
    have open_ : ¬ Decided node.pax.ilist.entries inst.inum := by
      simpa using (List.mem_filter.mp decreed).2
    obtain ⟨old, number, rfl, origin⟩ := redecides.origin inst mem
    have same : (elect { prep with acks := prep.acks + earlier.length } merged).pax.ilist.entries =
        _ := total
    rw [same] at origin
    have highest : Highest _ _ _ old.val := highest_of_entry open_ origin
    exact highest
  case held => exact redecides.held

/-- A promise that was counted without making a majority was merged. -/
theorem proposerAckPromise_merged {fuel : Nat} {next : Node}
    (preparing : node.pax.prep = some prep) (current : promise.1.ballot = prep.ballot)
    (cached : prep.istart = some start)
    (acked : proposerAckPromise fuel node promise.msg = .ok next) :
    ∃ merged, mergePromise node (some start) promise.2 = .ok merged ∧
      (prep.acks + 1 < majority merged.pax →
        next = merged.setPrep (some { prep with acks := prep.acks + 1 })) := by
  -- The handler merges first and looks at the count afterwards.
  have same : ballotCompare prep.ballot promise.1.ballot = .eq := by
    rw [current]
    exact ppairCompare_eq_eq.mpr rfl
  simp only [proposerAckPromise, preparing, Promise.msg, same, ne_eq, not_true_eq_false,
    if_false] at acked
  obtain ⟨merged, merges, rest⟩ := Outcome.andThen_eq_ok.mp acked
  rw [cached] at merges
  refine ⟨merged, merges, ?_⟩
  intro few
  have counts : prep.acks + 1 <
      majority (merged.setPrep (some { prep with acks := prep.acks + 1 })).pax := few
  rw [if_pos counts] at rest
  exact (Outcome.ok.inj rest).symm

/-- Promises lead the cursor astray when they are not clear, or leave it astray. -/
theorem ackPromises_strays (promises : List Promise) {fuel : Nat} {next : Node}
    (wf : node.pax.ilist.WellFormed) (preparing : node.pax.prep = some prep)
    (current : ∀ promise ∈ promises, promise.1.ballot = prep.ballot)
    (cached : prep.istart = some start)
    (ahead : ∀ promise ∈ promises, ∀ vote ∈ promise.2, inum ≤ vote.hdr.inum)
    (ascending : ∀ promise ∈ promises, promise.2.Pairwise fun x y => x.hdr.inum < y.hdr.inum)
    (few : prep.acks + promises.length < majority node.pax)
    (strays : (∃ spare path, Astray node.pax.ilist inum start spare path) ∨
      (∃ path, node.pax.ilist.Leads inum start path) ∧ ¬ AllClear node inum promises)
    (acked : ackPromises fuel node promises = .ok next) :
    next.pax.ilist.WellFormed ∧ (∃ spare path, Astray next.pax.ilist inum start spare path) ∧
      next.pax.ihole = node.pax.ihole := by
  -- Once the cursor is astray it stays so, and the last clear promise leaves one that is not.
  induction promises generalizing node prep with
  | nil =>
    obtain rfl : node = next := by simpa [ackPromises] using acked
    refine ⟨wf, strays.resolve_right ?_, rfl⟩
    rintro ⟨-, taken⟩
    exact taken fun before promise after split => by simp at split
  | cons promise promises ih =>
    obtain ⟨mid, first, rest⟩ := Outcome.andThen_eq_ok.mp acked
    have ballot := current promise List.mem_cons_self
    have order := ascending promise List.mem_cons_self
    have ahead_ := ahead promise List.mem_cons_self
    obtain ⟨merged, merges, counts⟩ := proposerAckPromise_merged preparing ballot cached first
    simp only [List.length_cons] at few
    -- The promise leads astray, or the others do.
    have step : merged.pax.ilist.WellFormed ∧
        ((∃ spare path, Astray merged.pax.ilist inum start spare path) ∨
          (∃ path, merged.pax.ilist.Leads inum start path) ∧
            ¬ AllClear (merged.setPrep (some { prep with acks := prep.acks + 1 })) inum promises) ∧
        ∃ ilist istart, merged = { node with pax.ilist := ilist, pax.istart := istart } := by
      rcases strays with ⟨spare, path, astray⟩ | ⟨⟨path, leads⟩, taken⟩
      · obtain ⟨wfMerged, still, frame⟩ := mergePromise_astray wf astray order merges
        exact ⟨wfMerged, Or.inl ⟨spare, path, still⟩, frame⟩
      · by_cases clear : Clear node.pax.ilist.entries inum promise.2
        · obtain ⟨other, same, collects, keeps⟩ := mergePromise_counts wf leads ahead_ order
          obtain rfl : merged = other := Outcome.ok.inj (merges.symm.trans same)
          exact ⟨collects.wellFormed, Or.inr ⟨keeps clear, fun all =>
            taken (all.cons collects clear)⟩,
            collects.frame⟩
        · obtain ⟨wfMerged, ⟨spare, astray⟩, frame⟩ :=
            mergePromise_strays wf leads ahead_ order clear merges
          exact ⟨wfMerged, Or.inl ⟨spare, path, astray⟩, frame⟩
    obtain ⟨wfMerged, strays, ilist, istart, frame⟩ := step
    have majority_ : majority merged.pax = majority node.pax := by
      rw [frame]
      rfl
    have same := counts (by rw [majority_]; omega)
    have still : prep.acks + 1 + promises.length < majority merged.pax := by
      rw [majority_]
      omega
    rw [same] at rest
    obtain ⟨wfNext, final, hole⟩ :=
      @ih (merged.setPrep (some { prep with acks := prep.acks + 1 }))
        { prep with acks := prep.acks + 1 } wfMerged rfl
        (fun other mem => current other (List.mem_cons_of_mem _ mem)) cached
        (fun other mem => ahead other (List.mem_cons_of_mem _ mem))
        (fun other mem => ascending other (List.mem_cons_of_mem _ mem)) still strays rest
    refine ⟨wfNext, final, hole.trans ?_⟩
    rw [frame]
    rfl

/-- The highest votes are not chosen once the cached instance is numbered like another vote. -/
theorem Quorum.recycled {earlier : List Promise} {last : Promise}
    (quorum : Quorum node prep inum earlier last)
    (recycles : Recycles node inum (earlier ++ [last])) : ¬ Selects node prep earlier last := by
  -- A prepare that selects decrees the hole, which the loop passes over when it is astray.
  intro selects
  have broken := recycles.not_intact
  have wf := quorum.wellFormed
  have reaches := quorum.reaches
  obtain ⟨start, cached, place⟩ := quorum.cached
  have listed := place
  obtain ⟨cell, mem, -, number⟩ := listed
  have has := wf.entries_eq_some.mpr ⟨cell, mem, number, rfl⟩
  have prior : ∀ promise ∈ earlier, promise ∈ earlier ++ [last] :=
    fun promise mem => List.mem_append_left _ mem
  have final : last ∈ earlier ++ [last] := by simp
  unfold Intact at broken
  push Not at broken
  obtain ⟨before, promise, after, split, vote, memVote, same, overtakes⟩ := broken
  -- What is overtaken is not committed, so the cursor is at the hole.
  have open_ : cell.inst.committed = false := (overtakes.1 cell.inst (same ▸ has)).1
  have hole : inum = node.pax.ihole := by
    by_contra apart
    have within := quorum.within
    have committed := quorum.settled cell mem (by omega)
    rw [open_] at committed
    contradiction
  have taken : ¬ AllClear node inum (earlier ++ [last]) := by
    intro clear
    have loses := clear before promise after split vote memVote same
    subst same
    exact (loses_iff has).mp loses overtakes
  obtain ⟨enough, ends⟩ := selects
  obtain ⟨done, decrees, ⟨counted, merged, other, acked, merges, again, ran, -⟩, chooses⟩ :=
    ends enough (Nat.le_refl _)
  obtain rfl : start = other := Option.some.inj (cached.symm.trans again)
  rw [cached] at merges
  have few : prep.acks + earlier.length < majority node.pax := by omega
  have current := fun promise mem => quorum.current promise (prior promise mem)
  have ahead := fun promise mem => quorum.ahead promise (prior promise mem)
  have ascending := fun promise mem => quorum.ascending promise (prior promise mem)
  -- Either the earlier promises have led the cursor astray, or the last one does.
  have astray : merged.pax.ilist.WellFormed ∧
      (∃ spare path, Astray merged.pax.ilist inum start spare path) ∧
      merged.pax.ihole = node.pax.ihole := by
    by_cases clear : AllClear node inum earlier
    · obtain ⟨counted', path, runs, wfCounted, entries, leads, _, _, frame⟩ :=
        ackPromises_counts earlier wf quorum.preparing current cached place.leads
          ahead ascending few
          clear
      obtain rfl : counted = counted' := Outcome.ok.inj (acked.symm.trans (runs enough))
      have takes : ¬ Clear counted.pax.ilist.entries inum last.2 := by
        intro lastClear
        apply taken
        intro before promise after split
        rcases List.eq_nil_or_concat after with rfl | ⟨rest, tail, rfl⟩
        · obtain ⟨rfl, same⟩ := List.append_inj' split rfl
          obtain rfl : last = promise := by simpa using same
          rw [← entries]
          exact lastClear
        · have split : earlier ++ [last] = (before ++ promise :: rest) ++ [tail] := by
            simpa using split
          obtain ⟨same, -⟩ := List.append_inj' split rfl
          exact clear before promise rest same
      obtain ⟨wfMerged, ⟨spare, astray⟩, _, _, frame'⟩ := mergePromise_strays wfCounted leads
        (quorum.ahead last final) (quorum.ascending last final) takes merges
      exact ⟨wfMerged, ⟨spare, path, astray⟩, by rw [frame', frame]⟩
    · obtain ⟨wfCounted, ⟨spare, path, astray⟩, hole⟩ :=
        ackPromises_strays earlier wf quorum.preparing current cached ahead ascending few
          (Or.inr ⟨⟨[], place.leads⟩, clear⟩) acked
      obtain ⟨wfMerged, astray, _, _, frame⟩ :=
        mergePromise_astray wfCounted astray (quorum.ascending last final) merges
      refine ⟨wfMerged, ⟨spare, path, astray⟩, ?_⟩
      rw [← hole, frame]
  obtain ⟨wfMerged, ⟨spare, path, astray⟩, holeMerged⟩ := astray
  -- The log keeps the vote for the hole that was never decreed again.
  rw [holeMerged, ← hole] at ran
  have kept : done.pax.ilist.entries inum = merged.pax.ilist.entries inum :=
    @redecree_astray (elect _ merged) done start spare inum path enough wfMerged astray ran
  obtain ⟨stale, left, none_⟩ := astray.stale
  -- But the hole is one of the numbers that have to be decreed.
  obtain ⟨top, -, bounded, numbers⟩ := chooses.numbers
  have within : inum ≤ top := bounded inum (Or.inl place.has)
  have decreed : inum ∈ decrees.map Instance.inum := by
    rw [numbers]
    refine List.mem_filter.mpr ⟨List.mem_range'_1.mpr (by omega), ?_⟩
    have undecided : ¬ Decided node.pax.ilist.entries inum := by
      rintro ⟨inst, holds, committed⟩
      rw [has] at holds
      obtain rfl := Option.some.inj holds
      rw [open_] at committed
      contradiction
    exact decide_eq_true undecided
  obtain ⟨inst, memInst, sameInst⟩ := List.mem_map.mp decreed
  have held : done.pax.ilist.entries inst.inum = some inst := chooses.held inst memInst
  rw [sameInst, kept, left] at held
  obtain rfl := Option.some.inj held
  rw [(chooses.fresh stale memInst).2.1] at none_
  contradiction

/--
A preparer that reaches a majority chooses the highest votes if no promise has further votes behind
one that takes over the instance that the prepare has cached.

Every number from the hole up to the last one heard of is then decreed once under the new ballot
with its highest vote, except for what the preparer has committed. Nothing of the kind happens when
the first vote that takes over the preparer's own instance has further votes behind it.
-/
theorem prepare_selects {earlier : List Promise} {last : Promise}
    (quorum : Quorum node prep inum earlier last) :
    (Intact node inum (earlier ++ [last]) → Selects node prep earlier last) ∧
      (Recycles node inum (earlier ++ [last]) → ¬ Selects node prep earlier last) :=
  ⟨quorum.selects, quorum.recycled⟩

/-- The promise of the third, which makes a majority with the second. -/
def successor.pledge : Promise :=
  ⟨⟨7, ⟨2, 2⟩, .promise, 4⟩, successor.reported⟩

/-- The second has committed everything that it knows of, so no vote can overtake that. -/
theorem successor.settled : ∀ cell ∈ successor.preparing.pax.ilist.cells,
    cell.inst.committed = true := by
  decide +kernel

/-- The second chooses the chat that the third has accepted. -/
theorem prepare_selects_successor : Selects successor.preparing
    { ballot := ⟨2, 2⟩, acks := 1, redirects := 0, istart := some 2 } [] successor.pledge := by
  -- The cached instance is committed, so no vote takes its number over.
  have fits : successor.node.pax.ilist.WellFormed := successor.wellFormed
  have wf : successor.preparing.pax.ilist.WellFormed :=
    successor.loses.wellFormed (successor.connects.wellFormed fits)
  have quorum : Quorum successor.preparing
      { ballot := ⟨2, 2⟩, acks := 1, redirects := 0, istart := some 2 } 3 [] successor.pledge := by
    constructor
    case wellFormed => exact wf
    case settled => exact fun cell mem _ => successor.settled cell mem
    case cached =>
      refine ⟨2, rfl, ?_⟩
      unfold Ilist.At
      decide +kernel
    all_goals decide +kernel
  apply (prepare_selects quorum).1
  intro before promise after _ vote _ same overtakes
  -- The instance numbered 3 is committed.
  obtain ⟨cell, mem, number⟩ : ∃ cell ∈ successor.preparing.pax.ilist.cells,
      cell.inst.inum = 3 := by decide +kernel
  have has := wf.entries_eq_some.mpr ⟨cell, mem, number, rfl⟩
  rw [← same] at has
  have open_ := (overtakes.1 cell.inst has).1
  rw [successor.settled cell mem] at open_
  contradiction

/-- The end of a member that two others have accepted without the preparer. -/
def overtaking : PackedInstance where
  hdr := { session := 7, ballot := ⟨2, 2⟩, opcode := .decree, inum := 6 }
  committed := false
  val := { dkind := .kill, reqid := ⟨2, 1⟩, extra := 1 }

/-- A chat that one of them has accepted behind that. -/
def trailing : PackedInstance where
  hdr := { session := 7, ballot := ⟨2, 2⟩, opcode := .decree, inum := 7 }
  committed := false
  val := { dkind := .chat, reqid := ⟨2, 2⟩, extra := 0 }

/--
Two promises that make a majority, and the preparer dies of them.

The third member has a chat of the first one that nobody else has accepted, and it has cached that.
The second one has decreed something else for the number.
-/
theorem prepare_astray : ∃ sys, System.Reachable sys ∧
    (sys.channels[5]?.map fun chan => chan.snd.inbox) =
      some [⟨⟨7, ⟨3, 3⟩, .promise, 6⟩, .votes 2 [overtaking, trailing]⟩] ∧
    (sys.channels[8]?.map fun chan => chan.snd.inbox) =
      some [⟨⟨7, ⟨3, 3⟩, .promise, 6⟩, .votes 1 [overtaking]⟩] ∧
    (∃ node ∈ (sys.process [3]).node,
      node.pax.prep = some { ballot := ⟨3, 3⟩, acks := 1, redirects := 0, istart := some 5 } ∧
      majority node.pax = 3 ∧
      ackPromises 20 node [(⟨7, ⟨3, 3⟩, .promise, 6⟩, [overtaking, trailing]),
          (⟨7, ⟨3, 3⟩, .promise, 6⟩, [overtaking])] =
        .stop (.failed .promiseCursor) (ackPromises 20 node
          [(⟨7, ⟨3, 3⟩, .promise, 6⟩, [overtaking, trailing]),
            (⟨7, ⟨3, 3⟩, .promise, 6⟩, [overtaking])]).state) ∧
    ∃ next ∈ sys.step System.quiet (.deliver 5 true),
      ∃ last ∈ next.step System.quiet (.deliver 8 true), (last.process [3]).crashed = true :=
  System.exists_played
    (System.assemble [[1], [2], [3], [4], [5]] ++
      -- The first decrees a chat that only the third gets before the first dies.
      [.steps [.client [1] { dkind := .chat, data := [9] }, .deliver 1 true, .deliver 1 true,
          .crash [1], .cut 0, .cut 1, .cut 3, .cut 6, .eof 0 true, .eof 1 true, .eof 3 true,
          .eof 6 true],
        -- The second prepares without the third, and decrees with the other two.
        .steps [.client [2] { dkind := .chat, data := [7] }, .deliver 2 false, .cut 2,
          .deliver 4 false, .deliver 4 false, .deliver 7 false, .deliver 7 false, .deliver 4 true,
          .deliver 7 true],
        -- The second dies, and the third prepares.
        .steps [.deliver 4 false, .deliver 4 false, .deliver 7 false, .crash [2], .cut 4, .cut 7,
          .eof 2 false, .eof 4 false, .eof 7 false, .deliver 5 false, .deliver 8 false]])
    (by decide +kernel)

end Motmot
