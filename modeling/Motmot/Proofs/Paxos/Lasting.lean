import Motmot.Proofs.Paxos.Steering

/-! A commit lasts until it is truncated. -/

namespace Motmot

/-- The events after which commits stay stable: steady ones that leave the cursors on the log. -/
structure Steadfast (pax : Session) (event : Event) : Prop where
  steady : Steady pax event
  guarded : Guarded pax event

/--
In a steadfast run a commit is stable.

Until a truncation removes it, a committed instance keeps its flag and its value, and it stays
learned once it is learned; no commit is ever found behind the hole, and no promise makes use of an
instance that is not on the list.
-/
theorem commit_stable {begun node later : Node} {first : Nat}
    (begins : Begins Welcome.Based begun first) (run : Runs Steadfast begun node)
    (more : Runs Steadfast node later) :
    (∀ cell ∈ node.pax.ilist.cells, cell.inst.committed = true →
      (∃ inst, ⟨cell.addr, inst⟩ ∈ later.pax.ilist.cells ∧ inst.committed = true ∧
        inst.val = cell.inst.val ∧ (cell.inst.learned = true → inst.learned = true)) ∨
        Removed Steadfast node later cell) ∧
      ∀ event, Steadfast later.pax event → ∀ halted,
        ¬ Handles later event (.stop (.failed .commitPastHole) halted) ∧
          ¬ Handles later event (.stop .unlinked halted) := by
  have steady : ∀ pax event, Steadfast pax event → Steady pax event := fun _ _ ok => ok.steady
  have guarded : ∀ pax event, Steadfast pax event → Guarded pax event := fun _ _ ok => ok.guarded
  have whole : Runs Steadfast begun later := run.trans more
  -- A steadfast run keeps what is committed, and steers clear of what the handler cannot do.
  constructor
  · intro cell mem committed
    rcases run.keeps steady begins more mem committed with ⟨inst, memLater, retained⟩ | removed
    · exact Or.inl ⟨inst, memLater, retained.committed, retained.val, retained.learned⟩
    · exact Or.inr removed
  · intro event ok halted
    obtain ⟨wf, learned, settled⟩ := whole.settled steady begins
    obtain ⟨-, placed, anchored⟩ := whole.steered guarded begins
    constructor
    · intro handles
      exact (handles.steady ok.steady wf learned settled).2 halted rfl
    · exact Handles.linked ok.guarded wf placed anchored

/-- An event that brings no message is steadfast if it answers no rejects. -/
theorem Steadfast.quiet {pax : Session} {event : Event}
    (quiet : ∀ source msg, event ≠ .message source msg)
    (accepted : ∀ inum acc chan, ¬ Continues pax event (.ackReject inum) acc chan) :
    Steadfast pax event where
  -- Each condition of a steady event is about a message or an answered reject.
  steady := by
    constructor
    · intro inum acc chan cell continues
      exact absurd continues (accepted inum acc chan)
    · intro source hdr val same
      exact absurd same (quiet source _)
    · intro source hdr count votes prep same
      exact absurd same (quiet source _)
    · intro source hdr bound same
      exact absurd same (quiet source _)
  guarded := .quiet quiet

/-- The votes of the third member enter the log of the second one past its hole. -/
theorem successor.steadfast : Steadfast successor.preparing.pax successor.promise where
  steady := by
    -- The event is a promise, so only its condition is not empty.
    constructor
    · rintro inum acc chan cell ⟨_, _, same, -⟩
      cases same
    · rintro source hdr val same
      cases same
    · rintro source hdr count votes prep ⟨⟩ _ _ _ _
      decide +kernel
    · rintro source hdr bound same
      cases same
  guarded := successor.guarded

/-- The second member prepares anew, and the joins of all three stay committed. -/
theorem commit_stable_successor :
    (∃ cell ∈ successor.preparing.pax.ilist.cells, cell.inum = 3 ∧ cell.inst.committed = true) ∧
      successor.preparing.pax.prep.isSome = true ∧ successor.leading.pax.prep = none ∧
      ∀ cell ∈ successor.preparing.pax.ilist.cells, cell.inst.committed = true →
        (∃ inst, ⟨cell.addr, inst⟩ ∈ successor.leading.pax.ilist.cells ∧ inst.committed = true ∧
          inst.val = cell.inst.val ∧ (cell.inst.learned = true → inst.learned = true)) ∨
          Removed Steadfast successor.preparing successor.leading cell := by
  have based : successor.Based := ⟨_, rfl, rfl⟩
  have run : Runs Steadfast successor.node successor.preparing := by
    refine .step (.step .refl (.quiet (by simp) ?_) successor.connects) (.quiet (by simp) ?_)
      successor.loses
    · -- The only attempt that is open is that of a welcome.
      rintro inum acc chan ⟨handle, k, -, found, reject, -⟩
      have pending : ∀ k ∈ successor.node.pax.clist, k.purpose = .ackWelcome := by decide +kernel
      rw [pending k (List.mem_of_find?_eq_some found)] at reject
      contradiction
    · rintro inum acc chan ⟨_, _, same, -⟩
      cases same
  exact ⟨by decide +kernel, by decide +kernel, by decide +kernel,
    (commit_stable (.welcome successor based) run
      (.step .refl successor.steadfast successor.wins)).1⟩

/--
A part that everybody rejects leaves one connection attempt for every reject past the majority.

The first that completes replaces the part by a null, and once that is committed the second one
takes the commit back.
-/
theorem commit_unstable : ∃ sys, System.Reachable sys ∧
    ∃ next ∈ sys.step System.quiet (.complete 0 true),
      ∃ node ∈ (sys.process [1]).node, ∃ after ∈ (next.process [1]).node,
        ∃ cell ∈ node.pax.ilist.cells, cell.inst.committed = true ∧ cell.inst.learned = true ∧
          ∃ other ∈ after.pax.ilist.cells, other.addr = cell.addr ∧
            other.inst.committed = false :=
  System.exists_played
    (System.assemble [[1], [2], [3], [4], [5]] ++
      -- The first node loses the third, and everybody else still has it.
      [.steps [.cut 1, .eof 1 false], .drain, .steps [.complete 0 true], .drain])
    (by decide +kernel)

end Motmot
