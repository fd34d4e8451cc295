import Motmot.Proofs.Paxos.Follower

/-! A follower that holds a commit back waits for an answer that it has asked for. -/

namespace Motmot

/-- Whether an effect sends a message of some opcode for a number. -/
def Effect.asks (opcode : Opcode) (inum : Nat) : Effect → Bool
  | .send _ msg => msg.hdr.opcode = opcode && msg.hdr.inum = inum
  | _ => false

/-- What was done since the last number was learned, the latest first. -/
def Node.recent (node : Node) : List Effect :=
  node.out.reverse.takeWhile fun effect => effect.learned.isNone

/-- A message of some opcode was sent for the hole since it is where it is. -/
def Node.Asked (node : Node) (opcode : Opcode) : Prop :=
  ∃ effect ∈ node.recent, effect.asks opcode node.pax.ihole = true

/-- A commit is held back at the hole or past it. -/
def HoldsBack (pax : Session) : Prop :=
  ∃ cell ∈ pax.ilist.cells, cell.inst.committed = true ∧ pax.ihole ≤ cell.inum

/-- The instance at the hole is itself committed. -/
def HoleCommitted (pax : Session) : Prop :=
  ∃ cell ∈ pax.ilist.cells, cell.inst.committed = true ∧ cell.inum = pax.ihole

/-- The commit at the hole was asked for, or its data if only that is missing. -/
def Node.Awaits (node : Node) : Prop :=
  node.Asked .retry ∨ node.Asked .retrieve ∧ HoleCommitted node.pax

instance (node : Node) (opcode : Opcode) : Decidable (node.Asked opcode) :=
  inferInstanceAs (Decidable (∃ _ ∈ _, _))

instance (pax : Session) : Decidable (HoldsBack pax) :=
  inferInstanceAs (Decidable (∃ _ ∈ _, _))

instance (pax : Session) : Decidable (HoleCommitted pax) :=
  inferInstanceAs (Decidable (∃ _ ∈ _, _))

instance (node : Node) : Decidable node.Awaits :=
  inferInstanceAs (Decidable (_ ∨ _))

variable {node next : Node} {opcode : Opcode}

/-- What was asked for stays asked for while nothing is learned and the hole stays. -/
theorem Node.Asked.keep {effects : List Effect} (asked : node.Asked opcode)
    (hole : next.pax.ihole = node.pax.ihole) (told : next.out = node.out ++ effects)
    (quiet : ∀ effect ∈ effects, effect.learned = none) : next.Asked opcode := by
  obtain ⟨effect, mem, asks⟩ := asked
  refine ⟨effect, ?_, hole ▸ asks⟩
  -- Only what is told since the last learn counts, and the new effects learn nothing.
  rw [recent, told, List.reverse_append, List.takeWhile_append_of_pos]
  · exact List.mem_append_right _ mem
  · intro other memOther
    simp [quiet other (List.mem_reverse.mp memOther)]

/-- Whatever was just sent for the hole is asked for. -/
theorem Node.Asked.sent {peer : PeerId} {msg : Msg} {effects : List Effect}
    (told : next.out = node.out ++ effects) (quiet : ∀ effect ∈ effects, effect.learned = none)
    (mem : .send peer msg ∈ effects) (same : msg.hdr.opcode = opcode)
    (hole : msg.hdr.inum = next.pax.ihole) : next.Asked opcode := by
  refine ⟨.send peer msg, ?_, by simp [Effect.asks, same, hole]⟩
  rw [recent, told, List.reverse_append, List.takeWhile_append_of_pos]
  · exact List.mem_append_left _ (List.mem_reverse.mpr mem)
  · intro other memOther
    simp [quiet other (List.mem_reverse.mp memOther)]

/-- What is awaited stays awaited, as long as the commit at the hole stays if only data is. -/
theorem Node.Awaits.keep {effects : List Effect} (awaits : node.Awaits)
    (hole : next.pax.ihole = node.pax.ihole) (told : next.out = node.out ++ effects)
    (quiet : ∀ effect ∈ effects, effect.learned = none)
    (kept : node.Asked .retry ∨ (HoleCommitted node.pax → HoleCommitted next.pax)) :
    next.Awaits := by
  rcases awaits with retried | ⟨asked, committed⟩
  · exact Or.inl (retried.keep hole told quiet)
  · rcases kept with retried | kept
    · exact Or.inl (retried.keep hole told quiet)
    · exact Or.inr ⟨asked.keep hole told quiet, kept committed⟩

/-- A value whose request is not there. -/
def Missing (cache : List Request) (val : Value) : Prop :=
  requestNeedsCached val.dkind = true ∧ requestFind cache val.reqid = none

/-- When a commit of a value with some requests at hand leaves nothing held back unasked. -/
structure Prompt (pax : Session) (cache : List Request) (inum : Nat) (val : Value) : Prop where
  /-- The data of an instance past the hole is not asked for in place of the hole. -/
  missing : Missing cache val → pax.ihole ≤ inum →
    HoldsBack pax ∨ inum = pax.ihole ∧ ∃ acc ∈ pax.alist, acc.peer.isSome = true
  /-- Somebody can be asked for the hole. -/
  ahead : ¬ Missing cache val → pax.ihole < inum → HoldsBack pax ∨ pax.proposer.isSome = true
  /-- Everything held back behind the hole is learned along with it. -/
  hole : ¬ Missing cache val → inum = pax.ihole → ∀ cell ∈ pax.ilist.cells,
    cell.inst.committed = true → ∀ between, pax.ihole < between → between ≤ cell.inum →
      ∃ other ∈ pax.ilist.cells, other.inum = between ∧ other.inst.committed = true ∧
        other.inst.cached = true
  /-- The cursor is on the log, where the learning starts. -/
  cursor : ¬ Missing cache val → inum = pax.ihole → pax.ilist.Has inum →
    ∀ start, pax.istart = some start → pax.ilist.onList start = true

/-- Messages of some opcode for a number were sent, if there was anybody to send them to. -/
structure Sends (opcode : Opcode) (inum : Nat) (reached : Prop) (node next : Node) : Prop where
  pax : next.pax = node.pax
  told : ∃ effects, next.out = node.out ++ effects ∧
    (∀ effect ∈ effects, ∃ peer msg, effect = .send peer msg ∧ msg.hdr.opcode = opcode ∧
      msg.hdr.inum = inum) ∧ (reached → effects ≠ [])

/-- Messages that were sent learn nothing. -/
theorem Sends.quiet {inum : Nat} {reached : Prop} (sends : Sends opcode inum reached node next) :
    ∃ effects, next.out = node.out ++ effects ∧ ∀ effect ∈ effects, effect.learned = none := by
  obtain ⟨effects, told, sent, -⟩ := sends.told
  refine ⟨effects, told, fun effect mem => ?_⟩
  obtain ⟨_, _, rfl, -⟩ := sent effect mem
  rfl

/-- Whoever sent something for the hole has asked for it. -/
theorem Sends.asked {inum : Nat} {reached : Prop} (sends : Sends opcode inum reached node next)
    (hole : inum = node.pax.ihole) (anybody : reached) : next.Asked opcode := by
  obtain ⟨effects, told, sent, some⟩ := sends.told
  -- What is sent is no learn.
  have quiet : ∀ effect ∈ effects, effect.learned = none := by
    intro effect mem
    obtain ⟨_, _, rfl, -⟩ := sent effect mem
    rfl
  obtain ⟨first, rest, rfl⟩ := List.exists_cons_of_ne_nil (some anybody)
  obtain ⟨peer, msg, rfl, same, number⟩ := sent first List.mem_cons_self
  refine .sent told quiet List.mem_cons_self same ?_
  rw [sends.pax, number, hole]

/-- A retrieve goes to the originator, or else to everybody. -/
theorem paxosRetrieve_sends {inst : Instance} (returned : paxosRetrieve node inst = .ok next) :
    Sends .retrieve inst.hdr.inum (∃ acc ∈ node.pax.alist, acc.peer.isSome = true) node next := by
  -- A broadcast reaches somebody, as long as some acceptor has a channel.
  have broadcast : ∀ {msg : Msg}, msg.hdr.opcode = .retrieve → msg.hdr.inum = inst.hdr.inum →
      Sends .retrieve inst.hdr.inum (∃ acc ∈ node.pax.alist, acc.peer.isSome = true) node
        (paxosBroadcast node msg) := by
    refine fun {msg} opcode inum => ⟨rfl, _, rfl, fun effect mem => ?_, ?_⟩
    · obtain ⟨acc, -, sent⟩ := List.mem_filterMap.mp mem
      obtain ⟨peer, -, rfl⟩ := Option.map_eq_some_iff.mp sent
      exact ⟨peer, msg, rfl, opcode, inum⟩
    · rintro ⟨acc, mem, held⟩ none
      obtain ⟨peer, held⟩ := Option.isSome_iff_exists.mp held
      have := List.filterMap_eq_nil_iff.mp none acc mem
      simp [held] at this
  unfold paxosRetrieve at returned
  simp only at returned
  split at returned
  · cases returned
    exact broadcast rfl rfl
  · split at returned
    · cases returned
      exact broadcast rfl rfl
    · -- The originator is connected.
      unfold paxosSend at returned
      split at returned
      · cases returned
        refine ⟨rfl, _, rfl, fun effect mem => ?_, by simp⟩
        exact ⟨_, _, List.mem_singleton.mp mem, rfl, rfl⟩
      · contradiction

/-- A retry goes to the proposer. -/
theorem acceptorRetry_sends {hole : Nat} (returned : acceptorRetry node hole = .ok next) :
    Sends .retry hole (node.pax.proposer.isSome = true) node next := by
  -- The proposer is lost, or the retry is sent to it, or the send fails.
  unfold acceptorRetry paxosSendToProposer at returned
  split at returned
  · rename_i lost
    cases returned
    exact ⟨rfl, [], by simp, by simp, by simp [lost]⟩
  · split at returned
    · unfold paxosSend at returned
      split at returned
      · cases returned
        refine ⟨rfl, _, rfl, fun effect mem => ?_, by simp⟩
        exact ⟨_, _, List.mem_singleton.mp mem, rfl, rfl⟩
      · contradiction
    · contradiction

/-- A write that keeps numbers and commits keeps the commit at the hole. -/
theorem HoleCommitted.modify {addr : Addr} {f : Instance → Instance}
    (committed : HoleCommitted node.pax) (number : ∀ inst, (f inst).hdr.inum = inst.hdr.inum)
    (stays : ∀ inst, inst.committed = true → (f inst).committed = true) :
    HoleCommitted (node.modify addr f).pax := by
  obtain ⟨cell, mem, done, hole⟩ := committed
  refine ⟨_, Ilist.mem_modify.mpr ⟨cell, mem, rfl⟩, ?_, ?_⟩
  · -- The written element keeps what makes it done and where it is.
    split
    · exact stays _ done
    · exact done
  · show Cell.inum _ = node.pax.ihole
    split
    · exact (number _).trans hole
    · exact hole

/-- A commit keeps the commit at the hole. -/
theorem HoleCommitted.finishCommit {addr : Addr} (committed : HoleCommitted node.pax) :
    HoleCommitted (finishCommit node addr).pax := by
  have marked : HoleCommitted (node.modify addr markCommitted).pax :=
    committed.modify (fun _ => rfl) fun _ _ => rfl
  exact marked.modify (fun _ => rfl) fun _ => id

/-- A commit whose request is missing asks for it. -/
theorem retrieve_awaits {cell : Cell} (wf : node.pax.ilist.WellFormed)
    (mem : cell ∈ node.pax.ilist.cells)
    (reaches : node.pax.ihole ≤ cell.inum → HoldsBack node.pax ∨ cell.inum = node.pax.ihole ∧
      ∃ acc ∈ node.pax.alist, acc.peer.isSome = true)
    (waits : HoldsBack node.pax → node.Awaits)
    (returned : paxosRetrieve (node.modify cell.addr markCommitted) cell.inst = .ok next)
    (held : HoldsBack next.pax) : next.Awaits := by
  have sends := paxosRetrieve_sends returned
  -- What was awaited before the commit is awaited after it.
  obtain ⟨effects, told, quiet⟩ := sends.quiet
  have kept : HoldsBack node.pax → next.Awaits := by
    refine fun before => (waits before).keep ?_ told quiet (Or.inr fun done => ?_)
    · rw [sends.pax]
      rfl
    · rw [sends.pax]
      exact done.modify (fun _ => rfl) fun _ _ => rfl
  by_cases ahead : node.pax.ihole ≤ cell.inum
  · rcases reaches ahead with before | ⟨hole, anybody⟩
    · exact kept before
    · -- The commit is now at the hole itself, and its data was asked for.
      refine Or.inr ⟨sends.asked hole anybody, ?_⟩
      rw [sends.pax]
      exact ⟨_, (wf.mem_modify_linked mem markCommitted).mpr (Or.inl rfl), rfl, hole⟩
  · -- The commit lies behind the hole, so what is held back was held back before.
    obtain ⟨other, memOther, committed, past⟩ := held
    rw [sends.pax] at memOther past
    have past : node.pax.ihole ≤ other.inum := past
    rcases (wf.mem_modify_linked mem markCommitted).mp memOther with rfl | ⟨old, -⟩
    · exact absurd past ahead
    · exact kept ⟨other, old, committed, past⟩

/-- A commit past the hole asks for the hole, unless that waits for its own data. -/
theorem commitAhead_awaits {cell : Cell} (wf : node.pax.ilist.WellFormed)
    (mem : cell ∈ node.pax.ilist.cells) (past : cell.inum ≠ node.pax.ihole)
    (follows : isProposer node.pax = false)
    (reaches : HoldsBack node.pax ∨ node.pax.proposer.isSome = true)
    (waits : HoldsBack node.pax → node.Awaits)
    (returned : commitAhead (finishCommit node cell.addr) = .ok next) : next.Awaits := by
  have wfDone := finishCommit_wellFormed wf mem
  have follows : isProposer (finishCommit node cell.addr).pax = false := follows
  -- A follower only looks at the cursor of the loop: the hole is committed, or it is retried.
  unfold commitAhead at returned
  rw [if_neg (by simp [follows])] at returned
  split at returned
  · contradiction
  · rename_i first cursor
    split at returned
    · rename_i committed
      simp only [Bool.and_eq_true, decide_eq_true_eq] at committed
      split at returned
      · contradiction
      · cases returned
        -- The hole was committed before, so it was held back already.
        obtain ⟨start, -, held⟩ := Option.bind_eq_some_iff.mp cursor
        have listed := wfDone.mem_of_inst? held (wfDone.onList_of_committed held committed.2)
        have hole : first.hdr.inum = node.pax.ihole := committed.1
        rcases (mem_finishCommit wf mem).mp listed with same | ⟨old, -⟩
        · have same : first.hdr.inum = cell.inum := congrArg Cell.inum same
          exact absurd (same.symm.trans hole) past
        · refine (waits ⟨_, old, committed.2, Nat.le_of_eq hole.symm⟩).keep rfl
            (List.append_nil _).symm (by simp) (Or.inr fun done => done.finishCommit)
    · -- The hole is not committed, so its decree is asked for.
      have sends := acceptorRetry_sends returned
      rcases reaches with before | proposer
      · obtain ⟨effects, told, quiet⟩ := sends.quiet
        refine (waits before).keep ?_ told quiet (Or.inr fun done => ?_)
        · rw [sends.pax]
          rfl
        · rw [sends.pax]
          exact done.finishCommit
      · exact Or.inl (sends.asked rfl proposer)

/-- What stands done before a learning loop is not where the loop comes to rest. -/
theorem Paced.done {cell : Cell} (paced : Paced node next) (mem : cell ∈ node.pax.ilist.cells)
    (done : cell.inst.committed = true ∧ cell.inst.cached = true) :
    cell.inum ≠ next.pax.ihole := by
  intro hole
  -- An element of the list that stands done would have to be unfinished at the hole.
  have stands := List.mem_map_of_mem (f := Cell.standing) mem
  rw [← paced.standing] at stands
  obtain ⟨last, memLast, same⟩ := List.mem_map.mp stands
  simp only [Cell.standing, Prod.mk.injEq] at same
  have rests := paced.rests last memLast (same.1.trans hole)
  simp [Instance.unfinished, same, done] at rests

/-- A commit at the hole learns everything that was held back behind it. -/
theorem commitHole_empties {cell : Cell} (wf : node.pax.ilist.WellFormed)
    (mem : cell ∈ node.pax.ilist.cells) (hole : cell.inum = node.pax.ihole)
    (fills : ∀ cell ∈ node.pax.ilist.cells, cell.inst.committed = true →
      ∀ between, node.pax.ihole < between → between ≤ cell.inum →
        ∃ other ∈ node.pax.ilist.cells, other.inum = between ∧ other.inst.committed = true ∧
          other.inst.cached = true)
    (paced : Paced (finishCommit node cell.addr) next) : ¬ HoldsBack next.pax := by
  rintro ⟨last, memLast, committed, past⟩
  -- What is held back at the end was committed when the loop began.
  have stands := List.mem_map_of_mem (f := Cell.standing) memLast
  rw [paced.standing] at stands
  obtain ⟨other, memOther, same⟩ := List.mem_map.mp stands
  simp only [Cell.standing, Prod.mk.injEq] at same
  have passed : node.pax.ihole ≤ next.pax.ihole := paced.hole
  have finished : ∀ found, found ∈ ((node.pax.ilist.modify cell.addr markCommitted).modify cell.addr
      markCached).cells → found ∈ (finishCommit node cell.addr).pax.ilist.cells :=
    fun _ => id
  by_cases stuck : next.pax.ihole = node.pax.ihole
  · refine paced.done (finished _ ((mem_finishCommit wf mem).mpr (Or.inl rfl))) ⟨rfl, rfl⟩ ?_
    exact hole.trans stuck.symm
  · -- The loop has stopped at a hole which the commits that were held back had filled.
    have ahead : node.pax.ihole < next.pax.ihole := by omega
    rcases (mem_finishCommit wf mem).mp memOther with rfl | ⟨old, -⟩
    · have number : cell.inum = last.inum := same.1
      omega
    · obtain ⟨filled, memFilled, number, done⟩ := fills other old (same.2.1.trans committed)
        next.pax.ihole ahead (same.1 ▸ past)
      refine paced.done (finished _ ((mem_finishCommit wf mem).mpr (Or.inr ⟨memFilled, ?_⟩))) done
        number
      rintro rfl
      omega

/-- A commit of a follower leaves nothing held back unasked. -/
theorem commitWith_awaits {start : Node} {event : Event} {commit : Commit}
    (commits : Commits start event commit) (fuel : Nat) {cell : Cell}
    (wf : node.pax.ilist.WellFormed) (scripted : Scripted start node)
    (mem : cell ∈ node.pax.ilist.cells)
    (follows : isProposer node.pax = false)
    (prompt : Prompt node.pax node.pax.rcache cell.inum cell.inst.val)
    (waits : HoldsBack node.pax → node.Awaits)
    (returned : commitWith commit fuel node cell = .ok next) :
    isProposer next.pax = true ∨ (HoldsBack next.pax → next.Awaits) := by
  -- A commit finds its request missing, or lies behind, past or at the hole.
  unfold commitWith at returned
  simp only at returned
  split at returned
  · rename_i absent
    have absent : Missing node.pax.rcache cell.inst.val := by
      simp only [Bool.and_eq_true, Option.isNone_iff_eq_none] at absent
      exact absent
    exact Or.inr (retrieve_awaits wf mem (prompt.missing absent) waits returned)
  · rename_i present
    have present : ¬ Missing node.pax.rcache cell.inst.val := by
      rintro ⟨needs, none⟩
      refine present ?_
      rw [needs, Bool.true_and]
      exact Option.isNone_iff_eq_none.mpr none
    split at returned
    · contradiction
    · -- The assertion of the source excludes a commit behind the hole.
      rename_i notBehind
      split at returned
      · rename_i past
        have ahead : node.pax.ihole < cell.inum :=
          Nat.lt_of_le_of_ne (Nat.le_of_not_lt notBehind) (Ne.symm past)
        refine Or.inr fun _ => ?_
        exact commitAhead_awaits wf mem past follows (prompt.ahead present ahead) waits returned
      · -- At the hole the learning loop runs.
        rename_i hole
        have hole : cell.inum = node.pax.ihole := not_not.mp hole
        have wfDone := finishCommit_wellFormed wf mem
        have cursor : ∀ first, (finishCommit node cell.addr).pax.istart = some first →
            (finishCommit node cell.addr).pax.ilist.onList first = true := by
          intro first same
          rw [finishCommit_ilist, Ilist.onList_modify, Ilist.onList_modify]
          exact prompt.cursor present hole ⟨cell, mem, rfl⟩ first same
        rcases commitHole_paced commits fuel wfDone scripted cursor follows
          returned with leads | paced
        · exact Or.inl leads
        · exact Or.inr fun held =>
            absurd held (commitHole_empties wf mem hole (prompt.hole present hole) paced)

/-- A commit of a follower leaves nothing held back unasked, whatever its fuel. -/
theorem paxosCommit_awaits {start : Node} {event : Event} (licensed : Licenses start event)
    (fuel : Nat) {cell : Cell} (wf : node.pax.ilist.WellFormed) (scripted : Scripted start node)
    (mem : cell ∈ node.pax.ilist.cells) (follows : isProposer node.pax = false)
    (prompt : Prompt node.pax node.pax.rcache cell.inum cell.inst.val)
    (waits : HoldsBack node.pax → node.Awaits)
    (returned : paxosCommit fuel node cell = .ok next) :
    isProposer next.pax = true ∨ (HoldsBack next.pax → next.Awaits) := by
  cases fuel with
  | zero => contradiction
  | succ fuel =>
    exact commitWith_awaits (paxosCommit_commits fuel licensed) fuel wf scripted mem follows prompt
      waits returned

/-- The same commits are on both logs. -/
def SameCommits (old new : Ilist) : Prop :=
  ∀ cell : Cell, cell.inst.committed = true → (cell ∈ new.cells ↔ cell ∈ old.cells)

section Frame

variable (commits : SameCommits node.pax.ilist next.pax.ilist)
  (hole : next.pax.ihole = node.pax.ihole)
include commits hole

/-- What is held back is told by the commits and the hole. -/
theorem SameCommits.holdsBack : HoldsBack next.pax ↔ HoldsBack node.pax := by
  constructor
  · rintro ⟨cell, mem, done, past⟩
    exact ⟨cell, (commits cell done).mp mem, done, hole ▸ past⟩
  · rintro ⟨cell, mem, done, past⟩
    exact ⟨cell, (commits cell done).mpr mem, done, hole ▸ past⟩

/-- What is awaited stays awaited when the commits are the same and nothing is told. -/
theorem SameCommits.awaits (told : next.out = node.out) (waits : HoldsBack node.pax → node.Awaits)
    (held : HoldsBack next.pax) : next.Awaits := by
  have silent : next.out = node.out ++ [] := by simp [told]
  refine (waits ((commits.holdsBack hole).mp held)).keep hole silent (by simp) (Or.inr ?_)
  rintro ⟨cell, mem, done, number⟩
  exact ⟨cell, (commits cell done).mpr mem, done, number.trans hole.symm⟩

/-- Whether a commit is prompt is told by the commits, the hole, and the cursor at the hole. -/
theorem Prompt.frame {cache : List Request} {inum : Nat} {val : Value}
    (prompt : Prompt node.pax cache inum val) (alist : next.pax.alist = node.pax.alist)
    (proposer : next.pax.proposer = node.pax.proposer)
    (cursor : ¬ Missing cache val → inum = node.pax.ihole →
      ∀ start, next.pax.istart = some start → next.pax.ilist.onList start = true) :
    Prompt next.pax cache inum val where
  missing := by
    rw [hole, alist, commits.holdsBack hole]
    exact prompt.missing
  -- Being past the hole is told by the hole and by what is held back.
  ahead := by
    rw [hole, proposer, commits.holdsBack hole]
    exact prompt.ahead
  hole := by
    intro present same cell mem done between above below
    rw [hole] at same above
    obtain ⟨other, memOther, number, both⟩ :=
      prompt.hole present same cell ((commits cell done).mp mem) done between above below
    exact ⟨other, (commits other both.1).mpr memOther, number, both⟩
  cursor := by
    intro present same _
    exact cursor present (same.trans hole)

end Frame

/-- An instance that is not committed may be inserted, or rewritten where it is. -/
theorem SameCommits.of_insert {inst : Instance} (wf : node.pax.ilist.WellFormed)
    (free : ∀ cell ∈ node.pax.ilist.cells, cell.inum ≠ inst.hdr.inum)
    (uncommitted : inst.committed = false) :
    SameCommits node.pax.ilist (node.pax.ilist.insert inst) := by
  intro cell done
  rw [wf.mem_insert free]
  -- The new element is not committed, so it is not the one.
  constructor
  · rintro (rfl | mem)
    · rw [uncommitted] at done
      contradiction
    · exact mem
  · exact Or.inr

/-- An instance that is not committed may be rewritten where it is. -/
theorem SameCommits.of_modify {cell : Cell} {f : Instance → Instance}
    (wf : node.pax.ilist.WellFormed) (mem : cell ∈ node.pax.ilist.cells)
    (before : cell.inst.committed = false) (after : (f cell.inst).committed = false) :
    SameCommits node.pax.ilist (node.pax.ilist.modify cell.addr f) := by
  -- Neither before nor after is the rewritten instance committed.
  intro other done
  rw [wf.mem_modify_linked mem f]
  constructor
  · rintro (rfl | ⟨old, -⟩)
    · rw [after] at done
      contradiction
    · exact old
  · refine fun old => Or.inr ⟨old, ?_⟩
    rintro rfl
    rw [before] at done
    contradiction

/-- The requests at hand once a resent one was kept, unless there was one already. -/
def resent (cache : List Request) (val : Value) (req : Request) : List Request :=
  match requestFind cache val.reqid with
  | some _ => cache
  | none => requestInsert cache req

/-- A message that finishes an instance, with the requests at hand for it. -/
inductive Finishes (pax : Session) (event : Event) : List Request → Nat → Value → Prop where
  | commit {source hdr val} (asked : event = .message source ⟨hdr, .value val⟩)
      (opcode : hdr.opcode = .commit ∨ hdr.opcode = .recommit)
      (waits : ∀ cell, pax.ilist.find hdr.inum = some cell → cell.inst.committed = false) :
      Finishes pax event pax.rcache hdr.inum val
  | resend {source hdr req cell} (asked : event = .message source ⟨hdr, .request req⟩)
      (opcode : hdr.opcode = .resend) (found : pax.ilist.find hdr.inum = some cell)
      (uncached : cell.inst.cached = false) :
      Finishes pax event (resent pax.rcache cell.inst.val req) hdr.inum cell.inst.val

section Finishing

variable {start : Node} {event : Event} {fuel : Nat} {hdr : Header} {val : Value}
  (licensed : Licenses start event) (wf : node.pax.ilist.WellFormed)
  (scripted : Scripted start node) (follows : isProposer node.pax = false)
  (waits : HoldsBack node.pax → node.Awaits)
include licensed wf scripted follows waits

/-- A commit of a number that the log does not have. -/
theorem commitFresh_awaits (prompt : Prompt node.pax node.pax.rcache hdr.inum val)
    (absent : node.pax.ilist.find hdr.inum = none)
    (returned : paxosCommit fuel (instanceInsertAndUpstart node (freshInstance hdr val))
      ⟨nextAddr node, freshInstance hdr val⟩ = .ok next) :
    isProposer next.pax = true ∨ (HoldsBack next.pax → next.Awaits) := by
  -- The new instance is not committed yet, so nothing else is held back than before.
  have free := wf.find_eq_none.mp absent
  obtain ⟨ilist, cursor, same⟩ := instanceInsertAndUpstart_eq node (freshInstance hdr val)
  have inserted := instanceInsertAndUpstart_ilist node (freshInstance hdr val)
  have commits : SameCommits node.pax.ilist
      (instanceInsertAndUpstart node (freshInstance hdr val)).pax.ilist :=
    inserted ▸ .of_insert wf free rfl
  have mem : ⟨nextAddr node, freshInstance hdr val⟩ ∈
      (instanceInsertAndUpstart node (freshInstance hdr val)).pax.ilist.cells := by
    rw [inserted]
    exact (wf.mem_insert free).mpr (Or.inl rfl)
  have hole := instanceInsertAndUpstart_ihole node (freshInstance hdr val)
  refine paxosCommit_awaits licensed fuel (insertFresh_wellFormed wf absent)
    (scripted.keep (instanceInsertAndUpstart_script _ _)) mem ?_ ?_ ?_ returned
  · rw [same]
    exact follows
  · have framed := Prompt.frame commits hole prompt (by rw [same]) (by rw [same]) ?_
    · rw [same] at framed ⊢
      exact framed
    · -- The cursor was moved to the new instance.
      intro _ number first at_
      have moved : (instanceInsertAndUpstart node (freshInstance hdr val)).pax.istart =
          some (nextAddr node) := by
        unfold instanceInsertAndUpstart
        rw [if_pos (show (freshInstance hdr val).hdr.inum = _ from number)]
        rfl
      rw [moved] at at_
      obtain rfl := Option.some.inj at_
      exact Ilist.onList_iff.mpr ⟨_, mem, rfl⟩
  · exact commits.awaits hole (by rw [same]) waits

/-- A commit of an instance whose value is written first. -/
theorem commitOver_awaits {cell : Cell} {f : Instance → Instance}
    (prompt : Prompt node.pax node.pax.rcache hdr.inum val)
    (found : node.pax.ilist.find hdr.inum = some cell) (uncommitted : cell.inst.committed = false)
    (wfNext : (node.modify cell.addr f).pax.ilist.WellFormed)
    (number : (f cell.inst).hdr.inum = hdr.inum) (value : (f cell.inst).val = val)
    (still : (f cell.inst).committed = false)
    (returned : paxosCommit fuel (node.modify cell.addr f) { cell with inst := f cell.inst } =
      .ok next) : isProposer next.pax = true ∨ (HoldsBack next.pax → next.Awaits) := by
  -- The value is written over an instance that is not committed.
  obtain ⟨mem, same⟩ := wf.find_eq_some.mp found
  have commits : SameCommits node.pax.ilist (node.modify cell.addr f).pax.ilist :=
    .of_modify wf mem uncommitted still
  refine paxosCommit_awaits licensed fuel wfNext scripted
    ((wf.mem_modify_linked mem f).mpr (Or.inl rfl))
    follows ?_ (commits.awaits rfl rfl waits) returned
  rw [show Cell.inum { cell with inst := f cell.inst } = hdr.inum from number, value]
  refine Prompt.frame commits rfl prompt rfl rfl fun present hole first cursor => ?_
  show (node.pax.ilist.modify cell.addr f).onList first = true
  rw [Ilist.onList_modify]
  exact prompt.cursor present hole ⟨cell, mem, same⟩ first cursor

/-- A commit message leaves nothing held back unasked. -/
theorem acceptorAckCommit_awaits
    (prompt : (∀ cell, node.pax.ilist.find hdr.inum = some cell → cell.inst.committed = false) →
      Prompt node.pax node.pax.rcache hdr.inum val)
    (returned : acceptorAckCommit fuel node hdr val = .ok next) :
    isProposer next.pax = true ∨ (HoldsBack next.pax → next.Awaits) := by
  -- The number is free, was committed already, or is open.
  unfold acceptorAckCommit at returned
  split at returned
  · rename_i absent
    refine commitFresh_awaits licensed wf scripted follows waits (prompt ?_) absent returned
    simp [absent]
  · rename_i cell found
    split at returned
    · cases returned
      exact Or.inr waits
    · rename_i uncommitted
      have uncommitted : cell.inst.committed = false := by simpa using uncommitted
      obtain ⟨mem, number⟩ := wf.find_eq_some.mp found
      refine commitOver_awaits licensed wf scripted follows waits
        (prompt ?_) found uncommitted ?_ number rfl
        uncommitted returned
      · simp [found, uncommitted]
      · exact wf.modify_linked mem rfl (wf.sound _ mem)

/-- A recommit leaves nothing held back unasked. -/
theorem acceptorAckRecommit_awaits
    (prompt : (∀ cell, node.pax.ilist.find hdr.inum = some cell → cell.inst.committed = false) →
      Prompt node.pax node.pax.rcache hdr.inum val)
    (returned : acceptorAckRecommit fuel node hdr val = .ok next) :
    isProposer next.pax = true ∨ (HoldsBack next.pax → next.Awaits) := by
  -- As for a commit, but the whole header is taken over.
  unfold acceptorAckRecommit at returned
  split at returned
  · rename_i absent
    refine commitFresh_awaits licensed wf scripted follows waits (prompt ?_) absent returned
    simp [absent]
  · rename_i cell found
    split at returned
    · cases returned
      exact Or.inr waits
    · rename_i uncommitted
      have uncommitted : cell.inst.committed = false := by simpa using uncommitted
      refine commitOver_awaits licensed wf scripted follows waits (prompt ?_) found uncommitted
        (adopt_wellFormed wf found) rfl rfl uncommitted returned
      simp [found, uncommitted]

/-- A resend leaves nothing held back unasked. -/
theorem paxosAckResend_awaits {req : Request}
    (prompt : ∀ cell, node.pax.ilist.find hdr.inum = some cell → cell.inst.cached = false →
      Prompt node.pax (resent node.pax.rcache cell.inst.val req) hdr.inum cell.inst.val)
    (returned : paxosAckResend fuel node hdr req = .ok next) :
    isProposer next.pax = true ∨ (HoldsBack next.pax → next.Awaits) := by
  -- A number that is unknown or cached is left alone.
  unfold paxosAckResend at returned
  split at returned
  · cases returned
    exact Or.inr waits
  · rename_i cell found
    split at returned
    · cases returned
      exact Or.inr waits
    · rename_i uncached
      obtain ⟨mem, same⟩ := wf.find_eq_some.mp found
      have prompt := prompt cell found (by simpa using uncached)
      -- Only the cache is written before the commit.
      simp only at returned
      rw [← same] at prompt
      unfold resent at prompt
      split at returned
      · rename_i known
        simp only [known] at prompt
        exact paxosCommit_awaits licensed fuel wf scripted mem follows prompt waits returned
      · rename_i unknown
        simp only [unknown] at prompt
        refine @paxosCommit_awaits (node.setRcache (requestInsert node.pax.rcache req)) _ _ _
          licensed fuel cell wf scripted mem follows ?_ waits returned
        exact ⟨prompt.missing, prompt.ahead, prompt.hole, prompt.cursor⟩

end Finishing

/--
The events after which a follower still waits for whatever it holds back.

A commit is finished promptly, a commit at the hole whose data alone was asked for is not taken
away, and a proposer that yields has nothing held back that it did not ask for before, as a
follower.
-/
structure Attentive (node : Node) (event : Event) : Prop where
  prompt : isProposer node.pax = false → ∀ cache inum val,
    Finishes node.pax event cache inum val → Prompt node.pax cache inum val
  lenient : isProposer node.pax = false → HoldsBack node.pax → ¬ node.Asked .retry →
    Lenient node.pax event
  accompanied : isProposer node.pax = false → ∀ acc, Continues node.pax event .welcome acc none →
    1 < majority node.pax
  yielding : isProposer node.pax = true → Yields node.pax event → HoldsBack node.pax → node.Awaits

variable {event : Event}

/-- Messages that may finish an instance leave nothing held back unasked at a follower. -/
theorem Handles.finishes {source : PeerId} {hdr : Header} {body : Body}
    (handles : Handles node (.message source ⟨hdr, body⟩) (.ok next))
    (opcode : hdr.opcode = .commit ∨ hdr.opcode = .recommit ∨ hdr.opcode = .resend)
    (wf : node.pax.ilist.WellFormed) (follows : isProposer node.pax = false)
    (prompt : ∀ cache inum val, Finishes node.pax (.message source ⟨hdr, body⟩) cache inum val →
      Prompt node.pax cache inum val)
    (waits : HoldsBack node.pax → node.Awaits) :
    isProposer next.pax = true ∨ (HoldsBack next.pax → next.Awaits) := by
  -- The message is computed down to its handler.
  obtain ⟨fuel, script, returned⟩ := handles
  have licensed : Licenses { node with script := script } (.message source ⟨hdr, body⟩) :=
    .finishes rfl opcode
  have follows : isProposer { node with script := script }.pax = false := follows
  simp only [handle, paxosDispatch, follows, acceptorDispatch] at returned
  rcases opcode with commit | recommit | resend
  · rw [commit] at returned
    cases body with
    | value val =>
      exact @acceptorAckCommit_awaits { node with script := script } _ _ _ _ _ _ licensed wf
        (.refl _) follows
        waits (fun open_ => prompt _ _ _ (.commit rfl (Or.inl commit) open_)) returned
    | _ => contradiction
  · rw [recommit] at returned
    cases body with
    | value val =>
      exact @acceptorAckRecommit_awaits { node with script := script } _ _ _ _ _ _ licensed wf
        (.refl _)
        follows waits (fun open_ => prompt _ _ _ (.commit rfl (Or.inr recommit) open_)) returned
    | _ => contradiction
  · rw [resend] at returned
    cases body with
    | request req =>
      exact @paxosAckResend_awaits { node with script := script } _ _ _ _ _ licensed wf
        (.refl _) follows waits req
        (fun cell found uncached => prompt _ _ _ (.resend rfl resend found uncached)) returned
    | _ => contradiction

/-- Whatever yields may not commit. -/
theorem Yields.unlicensed (yields : Yields node.pax event) : ¬ Licenses node event := by
  have greets := yields.greets
  intro licensed
  -- Whatever licenses a commit is not what yields: by the kind of the licence.
  cases licensed with
  | leads _ busy =>
    rw [busy] at greets
    contradiction
  | finishes asked opcode =>
    simp only [asked, Event.greets, decide_eq_true_eq] at greets
    simp [greets] at opcode
  | alone lapsed =>
    obtain ⟨_, _, rfl, -⟩ := lapsed
    contradiction

/-- Whatever yields takes no commit away. -/
theorem Yields.lenient (yields : Yields node.pax event) : Lenient node.pax event where
  truncated := by
    -- A truncation has another opcode, and a continuation of a reject another purpose.
    have greets := yields.greets
    rintro bound (⟨_, _, rfl, opcode, -⟩ | ⟨_, _, _, _, rfl, opcode, -⟩)
    · simp [Event.greets, opcode] at greets
    · simp [Event.greets, opcode] at greets
  rejected := by
    intro inum acc chan cell continues
    have resolves := (yields.of_continues continues).1
    simp at resolves

/-- A handler that may not commit leaves what is awaited awaited. -/
theorem Calm.awaits {stays : Prop} (calm : Calm stays node next)
    (waits : HoldsBack node.pax → node.Awaits)
    (kept : HoldsBack node.pax → node.Asked .retry ∨ stays) (held : HoldsBack next.pax) :
    next.Awaits := by
  -- The commit that is held back was there before, past the same hole.
  obtain ⟨cell, mem, done, past⟩ := held
  obtain ⟨old, memOld, number, before⟩ := calm.commits cell mem done
  have past : node.pax.ihole ≤ old.inum := by
    rw [number, ← calm.hole]
    exact past
  have held : HoldsBack node.pax := ⟨old, memOld, before, past⟩
  obtain ⟨effects, told, quiet⟩ := calm.told
  refine (waits held).keep calm.hole told quiet ((kept held).imp id fun stay => ?_)
  rintro ⟨found, memFound, committed, hole⟩
  obtain ⟨later, memLater, same, still⟩ := calm.kept stay found memFound committed hole
  exact ⟨later, memLater, still, same.trans calm.hole.symm⟩

/-- An event that is attended to leaves a follower waiting for whatever it holds back. -/
theorem Handles.awaits (handles : Handles node event (.ok next))
    (attentive : Attentive node event) (wf : node.pax.ilist.WellFormed)
    (waits : isProposer node.pax = false → HoldsBack node.pax → node.Awaits)
    (follows : isProposer next.pax = false) (held : HoldsBack next.pax) : next.Awaits := by
  -- A proposer yields or stays one; at a follower, events that may commit are told from the others.
  cases leads : isProposer node.pax with
  | true =>
    by_cases yields : Yields node.pax event
    · exact (handles.calm wf yields.unlicensed).awaits (attentive.yielding leads yields)
        (fun _ => Or.inr yields.lenient) held
    · -- Whoever does not yield remains a proposer.
      rw [handles.leads wf yields leads] at follows
      contradiction
  | false =>
    -- Whoever follows neither decrees nor is alone, so it is a message that finishes an instance.
    by_cases licensed : Licenses node event
    · cases licensed with
      | leads proposer =>
        rw [leads] at proposer
        contradiction
      | alone lapsed few =>
        have := attentive.accompanied leads _ lapsed
        omega
      | finishes asked opcode =>
        subst asked
        rcases handles.finishes opcode wf leads (attentive.prompt leads) (waits leads) with
          proposer | awaits
        · rw [follows] at proposer
          contradiction
        · exact awaits held
    · -- An event that may not commit leaves the hole as it was.
      refine (handles.calm wf licensed).awaits (waits leads) (fun before => ?_) held
      by_cases retried : node.Asked .retry
      · exact Or.inl retried
      · exact Or.inr (attentive.lenient leads before retried)

/-- Runs of events that each fit the state they meet, what was told before included. -/
inductive Courses (allowed : Node → Event → Prop) (first : Node) : Node → Prop where
  | refl : Courses allowed first first
  | step {node next : Node} {event : Event} (course : Courses allowed first node)
      (ok : allowed node event) (handles : Handles node event (.ok next)) :
      Courses allowed first next

/-- Every commit of a welcome has nothing but commits before it, back to the base. -/
def Welcome.Seamless (welcome : Welcome) : Prop :=
  ∀ packed ∈ welcome.ilist, packed.committed = true → ∀ inum, welcome.ibase ≤ inum →
    inum ≤ packed.hdr.inum → ∃ other ∈ welcome.ilist, other.hdr.inum = inum ∧
      other.committed = true

/-- A welcome that a newcomer can learn all commits of. -/
structure Welcome.Whole (welcome : Welcome) : Prop where
  based : welcome.Based
  seamless : welcome.Seamless

/-- The instances of a welcome are all unpacked. -/
theorem welcomeCells_inst (addr : Addr) (ilist : List PackedInstance) :
    (welcomeCells addr ilist).map Cell.inst = ilist.map instanceUnpack := by
  induction ilist generalizing addr with
  | nil => rfl
  | cons packed rest ih => simp [welcomeCells, ih]

/-- A session begins with nothing held back. -/
theorem Begins.holdsNothing {first : Nat} (begins : Begins Welcome.Whole node first) :
    ¬ HoldsBack node.pax := by
  -- Neither the founder nor a newcomer has committed anything past its hole.
  cases begins with
  | start session desc =>
    rintro ⟨cell, mem, -, past⟩
    obtain rfl := List.mem_singleton.mp mem
    have past : 2 ≤ 1 := past
    omega
  | welcome welcome fit =>
    rintro ⟨cell, mem, done, past⟩
    obtain ⟨run, rest, whole, contiguous, cells, hole, cursor⟩ := welcome.scan
    rw [cells] at mem
    rcases List.mem_append.mp mem with mem | mem
    · obtain ⟨prior, memRun, rfl⟩ := List.mem_map.mp mem
      -- The run itself lies behind the hole.
      have below := (contiguous.inum prior memRun).2.1
      have past : welcome.node.pax.ihole ≤ prior.inum := past
      omega
    · -- The log then has a commit at the hole, where the scan found none.
      obtain ⟨-, -, packed, listed, same⟩ :=
        mem_welcomeCells (whole ▸ List.mem_append_right run mem)
      have number : cell.inum = packed.hdr.inum := congrArg (·.hdr.inum) same
      have committed : packed.committed = true := by
        rw [same] at done
        exact done
      obtain ⟨other, memOther, atHole, finished⟩ := fit.seamless packed listed committed
        welcome.node.pax.ihole (by omega) (number ▸ past)
      have unpacked := List.mem_map_of_mem (f := instanceUnpack) memOther
      rw [← welcomeCells_inst 0, whole] at unpacked
      obtain ⟨found, memFound, inst⟩ := List.mem_map.mp unpacked
      have number : found.inum = welcome.node.pax.ihole := by
        rw [Cell.inum, inst]
        exact atHole
      -- The commit at the hole is not in the run, so it is where the scan has stopped.
      rcases List.mem_append.mp memFound with inRun | inRest
      · have below := (contiguous.inum found inRun).2.1
        omega
      · obtain ⟨head, tail, rfl⟩ := List.exists_cons_of_ne_nil (List.ne_nil_of_mem inRest)
        have order := (List.pairwise_append.mp
          (whole ▸ welcomeCells_pairwise 0 welcome.ascending)).2.1
        have bound := (fit.based.past whole contiguous).1 head List.mem_cons_self
        have first : found = head := by
          rcases List.mem_cons.mp inRest with same | later
          · exact same
          · have less := ((List.pairwise_cons.mp order).1 found later).1
            omega
        subst first
        rcases cursor with ⟨skipped, -⟩ | ⟨start, start_eq, -, uncommitted, -⟩
        · exact skipped found rfl number
        · obtain rfl := Option.some.inj start_eq
          rw [inst] at uncommitted
          have uncommitted : other.committed = false := uncommitted
          rw [finished] at uncommitted
          contradiction

/-- A follower that holds a commit back awaits an answer that it has asked for. -/
theorem commits_await {begun : Node} {first : Nat} (begins : Begins Welcome.Whole begun first)
    (course : Courses Attentive begun node) (follows : isProposer node.pax = false)
    (held : HoldsBack node.pax) : node.Awaits := by
  have kept : node.pax.ilist.WellFormed ∧
      (isProposer node.pax = false → HoldsBack node.pax → node.Awaits) := by
    clear follows held
    -- By induction on the course: a handler awaits an answer if it holds a commit back.
    induction course with
    | refl => exact ⟨begins.wellFormed, fun _ held => absurd held begins.holdsNothing⟩
    | step _ attentive handles ih =>
      exact ⟨handles.wellFormed ih.1, handles.awaits attentive ih.1 ih.2⟩
  exact kept.2 follows held

/-- A newcomer that is welcomed with its own join. -/
def newcomer : Welcome where
  source := 1
  hdr := { session := 7, ballot := ⟨1, 1⟩, opcode := .welcome, inum := 2 }
  session := 7
  ibase := 1
  alist := [⟨1, [1]⟩, ⟨2, [2]⟩]
  ilist :=
    [{ hdr := { session := 7, ballot := ⟨1, 1⟩, opcode := .decree, inum := 1 }, committed := true
       val := { dkind := .join, reqid := ⟨1, 1⟩, extra := 0 } },
     { hdr := { session := 7, ballot := ⟨1, 1⟩, opcode := .commit, inum := 2 }, committed := true
       val := { dkind := .join, reqid := ⟨1, 2⟩, extra := 0 } }]
  ascending := by decide

/-- The commit of a null, one past the number that the newcomer has to learn next. -/
def newcomer.commit : Event :=
  .message 1 { hdr := { session := 7, ballot := ⟨1, 1⟩, opcode := .commit, inum := 4 }
               body := .value { dkind := .null, reqid := ⟨1, 3⟩, extra := 0 } }

/-- What the commit leaves. -/
def newcomer.after : Node := (handle 20 newcomer.node newcomer.commit).state

/-- The newcomer attends to the commit: it has a proposer to ask for what is missing. -/
theorem newcomer.attentive : Attentive newcomer.node newcomer.commit where
  prompt := by
    intro _ cache inum val finishes
    -- The request is not missing, and the number lies past the hole.
    cases finishes with
    | commit asked =>
      cases asked
      refine ⟨fun missing => ?_, fun _ _ => Or.inr (by decide), ?_, ?_⟩
      · exact absurd missing.1 (by decide)
      · intro _ hole
        exact absurd hole (by decide)
      · intro _ hole
        exact absurd hole (by decide)
    | resend asked => cases asked
  lenient := fun _ held => absurd held (by decide)
  accompanied := by
    rintro _ acc ⟨_, _, connected, -⟩
    cases connected
  yielding := fun proposer => absurd proposer (by decide)

/-- The newcomer holds the commit back and has asked for what is missing. -/
theorem commits_await_newcomer : isProposer newcomer.after.pax = false ∧
    HoldsBack newcomer.after.pax ∧ newcomer.after.Awaits := by
  have follows : isProposer newcomer.after.pax = false := by decide +kernel
  have held : HoldsBack newcomer.after.pax := by decide +kernel
  have whole : newcomer.Whole := by
    refine ⟨⟨_, rfl, rfl⟩, ?_⟩
    -- The welcome reaches up to 2 and misses no number.
    intro packed mem _ inum above below
    have top : ∀ packed ∈ newcomer.ilist, packed.hdr.inum ≤ 2 := by decide
    have above : 1 ≤ inum := above
    obtain rfl | rfl : inum = 1 ∨ inum = 2 := by
      have := top packed mem
      omega
    · exact ⟨_, List.mem_cons_self, rfl, rfl⟩
    · exact ⟨_, List.mem_cons_of_mem _ List.mem_cons_self, rfl, rfl⟩
  refine ⟨follows, held, commits_await (.welcome newcomer whole) ?_ follows held⟩
  exact .step .refl newcomer.attentive ⟨20, [], by decide +kernel⟩

/--
A newcomer that was welcomed with a commit past a hole never learns it.

The hole is filled, but the data of the commit behind it was not sent along and is not asked for.
-/
theorem commit_stalls : ∃ sys, System.Reachable sys ∧ ∃ node ∈ (sys.process [5]).node,
    (sys.process [5]).crashed = false ∧ sys.delivery = none ∧ isProposer node.pax = false ∧
      HoldsBack node.pax ∧ ¬ node.Awaits :=
  System.exists_played
    (System.assemble [[1], [2], [3], [4]] ++
      -- The fifth node is invited, but no connection to it is made yet.
      [.steps [.client [1] { dkind := .join, data := [5] }], .drain,
        -- The part of the second node is rejected, and a chat is committed behind it.
        .steps [.cut 0, .eof 0 false], .drain,
        .steps [.client [1] { dkind := .chat, data := [9] }], .drain,
        -- The fifth node is welcomed before the part is decided as a null.
        .steps [.complete 0 true], .drain, .steps [.complete 0 true], .drain])
    (by decide +kernel)

end Motmot
