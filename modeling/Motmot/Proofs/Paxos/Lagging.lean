import Motmot.Proofs.Paxos.Redecree

/-! A promise is merged when it starts past the instance that the prepare has cached. -/

namespace Motmot

variable {node : Node} {prep : Prep} {votes : List PackedInstance}

/-- The state in which a majority of promises makes us the proposer. -/
def elect (prep : Prep) (merged : Node) : Node :=
  (merged.setPrep (some { prep with acks := prep.acks + 1 })).setBallot prep.ballot

/--
A promise is handled without an assertion that fails.

The log stays ascending and gains the numbers that were reported, and once a majority has promised,
the loop that decrees again comes to its end.
-/
def Walks (node : Node) (prep : Prep) (votes : List PackedInstance) : Prop :=
  ∃ merged, mergePromise node prep.istart votes = .ok merged ∧
    (merged.pax.ilist.cells.Pairwise fun x y => x.inum < y.inum) ∧
    (∀ inum, merged.pax.ilist.Has inum ↔
      node.pax.ilist.Has inum ∨ ∃ vote ∈ votes, vote.hdr.inum = inum) ∧
    ∃ start enough, prep.istart = some start ∧ ∀ fuel, enough ≤ fuel →
      ∃ done, redecree fuel (elect prep merged) start merged.pax.ihole = .ok done

/-- No vote lies in front of the instance that the prepare has cached. -/
def Abreast (node : Node) (prep : Prep) (votes : List PackedInstance) : Prop :=
  ∀ vote ∈ votes, ∀ cell ∈ node.pax.ilist.cells, prep.istart = some cell.addr →
    cell.inum ≤ vote.hdr.inum

/-- Votes that are counted add the numbers that they report. -/
theorem Ilist.WellFormed.has_counted {list next : Ilist} (wf : list.WellFormed)
    (wfNext : next.WellFormed)
    (entries : next.entries = (votes.map voteInstance).foldl counted list.entries) (inum : Nat) :
    next.Has inum ↔ list.Has inum ∨ ∃ vote ∈ votes, vote.hdr.inum = inum := by
  have empty := @Contest.hold_eq_none _ Instance.committed outranks (list.entries inum)
    ((votes.map voteInstance).filter fun inst => Instance.inum inst = inum)
  rw [← Contest.foldl_run, ← entries, wfNext.entries_eq_none, wf.entries_eq_none] at empty
  -- Nobody stands for a number that no vote reports.
  have none_ : ((votes.map voteInstance).filter fun inst => Instance.inum inst = inum) = [] ↔
      ¬ ∃ vote ∈ votes, vote.hdr.inum = inum := by
    simp [List.filter_eq_nil_iff, Instance.inum, voteInstance, instanceUnpack]
  rw [none_, ← not_or, not_iff_not] at empty
  exact empty

/-- A walk that starts behind its bound finds nothing, which the handler does not expect. -/
theorem mergePromise_behind {cell : Cell} (wf : node.pax.ilist.WellFormed)
    (mem : cell ∈ node.pax.ilist.cells) {vote : PackedInstance}
    (behind : vote.hdr.inum < cell.inum) :
    ∀ merged, mergePromise node (some cell.addr) (vote :: votes) ≠ .ok merged := by
  -- The vote is unpacked off the list, so the walk starts from the cursor as it was.
  have unpacks : Unpacks vote node _ _ := .fresh
  obtain ⟨wfMid, cells, -, -⟩ := unpacks.spec wf
  have mem : cell ∈
      (node.setIlist (node.pax.ilist.alloc (voteInstance vote))).pax.ilist.cells := mem
  have on := Ilist.onList_iff.mpr ⟨cell, mem, rfl⟩
  obtain ⟨front, head, rest, whole, first, tail, -⟩ := Ilist.split_of_onList on
  obtain rfl : head = cell := wfMid.addr_inj (by simp [whole]) mem first
  have past : head.inum > vote.hdr.inum := behind
  have walked : (node.setIlist (node.pax.ilist.alloc (voteInstance vote))).pax.ilist.getInstanceGlb
      head.addr vote.hdr.inum = some none := by
    simp only [Ilist.getInstanceGlb, Ilist.glb, on, if_true, tail, Ilist.glbWalk, past]
  intro merged
  simp [mergePromise, mergeVotes, unpackScratch, walked, Node.fail]

/--
In a guarded run a promise for the running prepare is handled exactly when it is not behind.

It may lag behind the log or run ahead of it, as long as none of its votes is for a number in front
of the instance that the prepare has cached.
-/
theorem promise_walks_iff {begun : Node} {first : Nat} (begins : Begins Welcome.Based begun first)
    (run : Runs Guarded begun node) {source : PeerId} {hdr : Header}
    (guarded : Guarded node.pax (.message source ⟨hdr, .votes votes.length votes⟩))
    (promise : hdr.opcode = .promise) (proposer : isProposer node.pax = true)
    (preparing : node.pax.prep = some prep) (current : hdr.ballot = prep.ballot) :
    Walks node prep votes ↔ Abreast node prep votes := by
  obtain ⟨wf, placed, anchored⟩ := run.steered (fun _ _ => id) begins
  have ascending := (guarded.sound _ _ rfl).votes _ _ promise rfl
  have spares := guarded.votes _ _ _ _ _ rfl promise proposer preparing current
  obtain ⟨start, inum, cached, ⟨cell, mem, rfl, rfl⟩, within⟩ := anchored prep preparing
  constructor
  · rintro ⟨merged, merges, -⟩ vote memVote other memOther same
    obtain rfl : cell = other :=
      wf.addr_inj mem memOther (Option.some.inj (cached.symm.trans same))
    -- The first vote is the lowest one, so it would be behind as well.
    cases votes with
    | nil => simp at memVote
    | cons lowest rest =>
      by_contra behind
      have below : lowest.hdr.inum < cell.inum := by
        rcases List.mem_cons.mp memVote with rfl | later
        · omega
        · have less := (List.pairwise_cons.mp ascending).1 vote later
          omega
      rw [cached] at merges
      exact mergePromise_behind wf mem below merged merges
  · intro abreast
    have ahead : ∀ vote ∈ votes, cell.inum ≤ vote.hdr.inum :=
      fun vote memVote => abreast vote memVote cell mem cached
    have place : node.pax.ilist.At cell.addr cell.inum := ⟨cell, mem, rfl, rfl⟩
    -- The votes are counted in, and the walk of the loop starts from the same instance.
    obtain ⟨merged, merges, collects, keeps⟩ :=
      mergePromise_counts wf place.leads ahead ascending
    -- The votes spare the cached instance, which the loop starts from.
    have clear : Clear node.pax.ilist.entries cell.inum votes := by
      intro vote memVote same inst holds
      obtain ⟨other, memOther, number, rfl⟩ := wf.entries_eq_some.mp holds
      obtain rfl : other = cell := wf.inum_inj memOther mem (number.trans same)
      cases committed : other.inst.committed with
      | true => exact Or.inl rfl
      | false =>
        right
        exact spares vote (List.dropLast_subset _ memVote) other mem
          (Or.inr ⟨prep, preparing, cached⟩) number committed
    obtain ⟨path, leads⟩ := keeps clear
    refine ⟨merged, by rw [cached, merges], collects.wellFormed.ascending,
      wf.has_counted collects.wellFormed collects.entries, ?_⟩
    obtain ⟨ilist, istart, same⟩ := collects.frame
    have hole : merged.pax.ihole = node.pax.ihole := by rw [same]
    have le : cell.inum ≤ merged.pax.ihole := hole ▸ within
    obtain ⟨top, has, bounded⟩ := collects.wellFormed.exists_top
      ((wf.has_counted collects.wellFormed collects.entries cell.inum).mpr (Or.inl place.has))
    refine ⟨cell.addr, top + 2, cached, ?_⟩
    intro fuel enough
    -- The loop takes one round for each number up to the last one.
    obtain ⟨rounds, rfl⟩ : ∃ rounds, fuel = rounds + 1 := ⟨fuel - 1, by omega⟩
    obtain ⟨decrees, done, ran, -⟩ := @redecree_run (elect prep merged) cell.addr merged.pax.ihole
      cell.inum top path rounds collects.wellFormed leads le bounded has (by omega)
    exact ⟨done, ran⟩

/-- The second prepares past the joins, so it can handle a promise that starts with the last one. -/
theorem promise_walks_successor : Walks successor.preparing
    { ballot := ⟨2, 2⟩, acks := 1, redirects := 0, istart := some 2 } successor.reported := by
  -- It connects, loses the first and prepares, guarded against what the promise can do.
  have based : successor.Based := ⟨_, rfl, rfl⟩
  have run : Runs Guarded successor.node successor.preparing :=
    .step (.step .refl (.quiet (by simp)) successor.connects) (.quiet (by simp)) successor.loses
  refine (promise_walks_iff (.welcome successor based) run successor.guarded rfl
    (by decide +kernel) (by decide +kernel) rfl).mpr ?_
  unfold Abreast
  decide +kernel

/-- The join that a member can start its promise with when it has nothing behind it. -/
def lagging : PackedInstance where
  hdr := { session := 7, ballot := ⟨1, 1⟩, opcode := .commit, inum := 3 }
  committed := true
  val := { dkind := .join, reqid := ⟨1, 3⟩, extra := 0 }

/--
A promise starts in front of the instance that the preparer has cached.

The third member has not heard of the chat that the second one has learned, so all it can start its
promise with is the join in front of it.
-/
theorem promise_lags : ∃ sys, System.Reachable sys ∧
    (sys.channels[2]?.map fun chan => chan.snd.inbox) =
      some [⟨⟨7, ⟨2, 2⟩, .promise, 5⟩, .votes 1 [lagging]⟩] ∧
    ∃ node ∈ (sys.process [2]).node, ∃ prep ∈ node.pax.prep, prep.ballot = ⟨2, 2⟩ ∧
      mergePromise node prep.istart [lagging] =
        .stop (.failed .promiseCursor) (mergePromise node prep.istart [lagging]).state ∧
      ∃ next ∈ sys.step System.quiet (.deliver 2 true), (next.process [2]).crashed = true :=
  System.exists_played
    (System.assemble [[1], [2], [3]] ++
      -- The first and the second commit a chat.
      [.steps [.client [1] { dkind := .chat, data := [9] }, .deliver 0 true, .deliver 0 true,
          .deliver 0 false, .deliver 0 true],
        -- The first dies, and the second prepares.
        .steps [.cut 0, .eof 0 true, .cut 1, .eof 1 true, .deliver 2 false]])
    (by decide +kernel)

end Motmot
