import Motmot.Proofs.Paxos.Stall
import Motmot.Proofs.Paxos.Wire

/-!
What a promise is made of.

A promise is counted from the tail of the log and packed from where the count stopped. The two
agree, and nothing is missing, unless the whole log lies past the number that was asked for.
-/

namespace Motmot

/-- The votes ascend, and are the instances from a number on, behind at most one from below. -/
structure Ilist.Gives (list : Ilist) (inum : Nat) (votes : List PackedInstance) : Prop where
  ascending : votes.Pairwise fun x y => x.hdr.inum < y.hdr.inum
  exact : ∃ lower : List Cell, lower.length ≤ 1 ∧
    (∀ cell ∈ lower, cell ∈ list.cells ∧ cell.inum < inum) ∧
      votes = (lower ++ list.cells.filter fun cell => inum ≤ cell.inum).map
        fun cell => instancePack cell.inst

/-- A log that is empty or reaches down to a number gives the votes from there on. -/
theorem promiseVotes_gives {list : Ilist} {inum : Nat} (wf : list.WellFormed)
    (reaches : list.cells = [] ∨ ∃ cell ∈ list.cells, cell.inum ≤ inum) :
    list.Gives inum ((promiseVotes list inum).2.map fun cell => instancePack cell.inst) := by
  refine ⟨wf.packed (promiseVotes_suffix list inum).sublist, ?_⟩
  -- The walk finds the last instance that is not past the number, or none.
  rcases promiseVotes_cases list inum with
    ⟨older, cell, newer, cells, low, above, votes⟩ | ⟨past, votes⟩
  · rw [votes]
    -- Everything in front of the first vote has a smaller number than it.
    have ascends := wf.ascending
    rw [cells, List.pairwise_append] at ascends
    have below : older.filter (fun cell => decide (inum ≤ cell.inum)) = [] := by
      refine List.filter_eq_nil_iff.mpr fun other mem => ?_
      have smaller := ascends.2.2 other mem cell (by simp)
      have number : other.inum < cell.inum := smaller
      simp only [decide_eq_true_eq]
      omega
    have rest : newer.filter (fun cell => decide (inum ≤ cell.inum)) = newer := by
      refine List.filter_eq_self.mpr fun other mem => ?_
      have past := above other mem
      simp only [decide_eq_true_eq]
      omega
    rw [cells, List.filter_append, below, List.filter_cons, rest]
    by_cases same : cell.inum = inum
    · exact ⟨[], by simp, by simp, by simp [same]⟩
    · have under : cell.inum < inum := by omega
      refine ⟨[cell], by simp, ?_, ?_⟩
      · intro other mem
        rw [List.mem_singleton] at mem
        rw [mem]
        exact ⟨by simp, under⟩
      · have skipped : ¬ inum ≤ cell.inum := by omega
        simp [skipped]
  · -- Nothing is past the number, so the log was empty.
    have none_ : list.cells = [] := by
      rcases reaches with none_ | ⟨cell, mem, low⟩
      · exact none_
      · have above := past cell mem
        omega
    rw [votes, none_]
    exact ⟨[], by simp, by simp, by simp⟩

/-- Whatever a session sends in a promise is what its log gave when the prepare came. -/
theorem promise_packs {node : Node} {event : Event} {result : Result}
    (handles : Handles node event result) (wf : node.pax.ilist.WellFormed) {peer : PeerId}
    {msg : Msg} {count : Nat} {votes : List PackedInstance}
    (sends : .send peer msg ∈ fresh node result) (promises : msg.body = .votes count votes) :
    count = (promiseVotes node.pax.ilist msg.hdr.inum).1 ∧
      votes = (promiseVotes node.pax.ilist msg.hdr.inum).2.map
        fun cell => instancePack cell.inst := by
  -- Only the answer to a prepare is a promise, and it packs what the walk finds.
  obtain ⟨script, config, -, -, tells⟩ :=
    @Handles.tells _ _ _ (fun _ => True) handles wf (fun _ => trivial)
      (fun _ _ _ => trivial) _ sends
  rcases tells with ⟨_, _, -, tells⟩ | teaches
  · cases tells with
    | side side =>
      cases side with
      | send _ _ side =>
        simp only [Msg.side, Bool.and_eq_true, promises] at side
        obtain ⟨side, shape⟩ := side
        cases opcode : msg.hdr.opcode <;> simp [opcode, shaped, Opcode.side] at side shape
      | hello => cases promises
    | inst held named => cases promises
    | prepare preparing => cases promises
    | promise asked opcode acceptor newer first packed sworn =>
      cases promises
      have packed : promiseVotes node.pax.ilist _ = _ := packed
      rw [packed]
      exact ⟨rfl, rfl⟩
    | accept => cases promises
    | recommit => cases promises
    | welcome => cases promises
  · cases teaches

/--
In a guarded run a promise counts what it packs, and packs what the log holds from the requested
number on behind at most one instance from below, exactly if the log reaches down to that number.
-/
theorem promise_complete_iff {begun node : Node} {first : Nat}
    (begins : Begins Welcome.Based begun first) (run : Runs Guarded begun node)
    {event : Event} {result : Result} (handles : Handles node event result) {peer : PeerId}
    {msg : Msg} {count : Nat} {votes : List PackedInstance}
    (sends : .send peer msg ∈ fresh node result) (promises : msg.body = .votes count votes) :
    (count = votes.length ∧ node.pax.ilist.Gives msg.hdr.inum votes) ↔
      ∃ cell ∈ node.pax.ilist.cells, cell.inum ≤ msg.hdr.inum := by
  obtain ⟨wf, placed, -⟩ := run.steered (fun _ _ => id) begins
  -- The cursor rests on an element, so the log is not empty.
  have whole : (promiseVotes node.pax.ilist msg.hdr.inum).1 =
      (promiseVotes node.pax.ilist msg.hdr.inum).2.length ↔
        ∃ cell ∈ node.pax.ilist.cells, cell.inum ≤ msg.hdr.inum := by
    rw [Wire.promiseVotes_whole]
    obtain ⟨addr, inum, -, ⟨cell, mem, -⟩, -⟩ := placed
    exact or_iff_right (List.ne_nil_of_mem mem)
  obtain ⟨counted, packed⟩ := promise_packs handles wf sends promises
  rw [← whole, counted, packed, List.length_map]
  -- The count is that of the votes exactly if the walk has found an element to start from.
  constructor
  · rintro ⟨same, -⟩
    exact same
  · intro same
    exact ⟨same, promiseVotes_gives wf (Or.inr (whole.mp same))⟩

/-- A prepare that the newcomer gets from its proposer. -/
def newcomer.prepare : Msg :=
  { hdr := { session := 7, ballot := ⟨1, 2⟩, opcode := .prepare, inum := 2 }, body := .empty }

/-- The newcomer answers it with the one instance from that number on. -/
theorem promise_complete_newcomer :
    (1 = (newcomer.ilist.drop 1).length ∧
      newcomer.node.pax.ilist.Gives 2 (newcomer.ilist.drop 1)) ↔
    ∃ cell ∈ newcomer.node.pax.ilist.cells, cell.inum ≤ 2 := by
  have sends : .send 1 ⟨{ newcomer.prepare.hdr with opcode := .promise },
      .votes 1 (newcomer.ilist.drop 1)⟩ ∈
        fresh newcomer.node (handle 20 newcomer.node (.message 1 newcomer.prepare)) := by
    decide +kernel
  exact promise_complete_iff (.welcome newcomer ⟨_, rfl, rfl⟩) .refl ⟨20, [], rfl⟩ sends rfl

/--
A promise announces three votes and packs none, though the log has three.

The third member has been parted without knowing it. The others have truncated what it has not
learned yet, and the fourth, which has not learned the part, takes it for its proposer.
-/
theorem promise_torn : ∃ sys, System.Reachable sys ∧
    ∃ node ∈ (sys.process [4]).node, ∃ next ∈ sys.step System.quiet (.deliver 5 false),
      ∃ after ∈ (next.process [4]).node, after.out = node.out ++
        [.send 10 ⟨⟨7, ⟨3, 2⟩, .promise, 6⟩, .votes 3 []⟩] ∧
          node.pax.ilist.cells.map Cell.inum = [7, 8, 9] :=
  System.exists_played
    (System.assemble [[1], [2], [3], [4], [5]] ++
      -- Everybody but the third learns two chats, and then the data of a third chat is on its way.
      [.steps ([.client [1] { dkind := .chat, data := [9] },
            .client [1] { dkind := .chat, data := [8] }] ++
          (List.replicate 4 [.deliver 0 true, .deliver 3 true]).flatten ++
          (List.replicate 2 [.deliver 0 false, .deliver 3 false]).flatten ++
          (List.replicate 2 [.deliver 0 true, .deliver 3 true]).flatten),
        .steps [.client [2] { dkind := .chat, data := [7] }, .deliver 0 false, .deliver 0 true,
          .deliver 3 true, .deliver 0 false, .deliver 3 false, .deliver 3 true, .deliver 0 true],
        .steps (List.replicate 8 (.deliver 6 true) ++ List.replicate 3 (.deliver 6 false)),
        -- The third is parted, which the fourth cannot learn before it has the data.
        .steps [.cut 1, .eof 1 false, .cut 2, .eof 2 true, .cut 8, .eof 8 false, .deliver 0 true,
          .deliver 6 true, .deliver 3 true, .deliver 0 false, .deliver 6 false, .deliver 0 true,
          .deliver 6 true, .deliver 3 true],
        -- A sync truncates what the other four have learned.
        .steps [.tick [1], .deliver 0 true, .deliver 6 true, .deliver 3 true, .deliver 0 false,
          .deliver 6 false, .deliver 3 false, .deliver 3 false, .deliver 0 true, .deliver 6 true,
          .deliver 3 true],
        -- The third and the fourth lose the first two, and the third prepares.
        .steps [.cut 3, .eof 3 true, .cut 4, .eof 4 false, .eof 1 true, .eof 2 false]])
    (by decide +kernel)

end Motmot
