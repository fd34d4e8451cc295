import Motmot.Proofs.Paxos.Runs

/-! The log that a welcome begins a session with. -/

namespace Motmot

/-- Takes a commit of a welcome as learned. -/
def takeLearned (cell : Cell) : Cell :=
  { cell with inst.cached := true, inst.learned := true }

/-- Cells whose numbers count upwards from a bound, all of them committed. -/
def Contiguous : Nat → List Cell → Prop
  | _, [] => True
  | hole, cell :: rest => cell.inum = hole ∧ cell.inst.committed = true ∧ Contiguous (hole + 1) rest

/-- Contiguous commits are exactly the numbers from the bound on. -/
theorem Contiguous.inum {hole : Nat} {cells : List Cell} (run : Contiguous hole cells) :
    ∀ cell ∈ cells, hole ≤ cell.inum ∧ cell.inum < hole + cells.length ∧
      cell.inst.committed = true := by
  -- By induction on the run, which starts one number further on each time.
  induction cells generalizing hole with
  | nil => simp
  | cons head rest ih =>
    obtain ⟨number, committed, follow⟩ := run
    intro cell mem
    rw [List.length_cons]
    rcases List.mem_cons.mp mem with rfl | mem
    · exact ⟨Nat.le_of_eq number.symm, by omega, committed⟩
    · obtain ⟨above, below, committed⟩ := ih follow cell mem
      exact ⟨by omega, by omega, committed⟩

/-- The last of contiguous commits is right below the hole. -/
theorem Contiguous.last {hole : Nat} {cells : List Cell} (run : Contiguous hole cells)
    {cell : Cell} (final : cells.getLast? = some cell) : cell.inum + 1 = hole + cells.length := by
  -- By induction along the run.
  induction cells generalizing hole with
  | nil => simp at final
  | cons head rest ih =>
    obtain ⟨number, -, follow⟩ := run
    cases rest with
    | nil =>
      obtain rfl : head = cell := by simpa using final
      simp [number]
    | cons second rest =>
      have := ih follow (by simpa using final)
      simp only [List.length_cons] at this ⊢
      omega

/--
The scan of a welcomed log takes a contiguous run of commits as learned.

It leaves the cursor on the hole when the log has it, and otherwise on the last of the run.
-/
theorem welcomeScan_spec {prev : Option Addr} {hole : Nat} {cells : List Cell} :
    ∃ run rest, cells = run ++ rest ∧ Contiguous hole run ∧
      (welcomeScan prev hole cells).1 = run.map takeLearned ++ rest ∧
      (welcomeScan prev hole cells).2.1 = hole + run.length ∧
      ((∀ cell, rest.head? = some cell → cell.inum ≠ hole + run.length) ∧
          (welcomeScan prev hole cells).2.2 =
            ((run.getLast?.map Cell.addr).or prev) ∨
        ∃ cell, rest.head? = some cell ∧ cell.inum = hole + run.length ∧
          cell.inst.committed = false ∧ (welcomeScan prev hole cells).2.2 = some cell.addr) := by
  -- The scan goes on over a commit that fills the hole, and stops at anything else.
  induction cells generalizing prev hole with
  | nil => exact ⟨[], [], rfl, trivial, rfl, rfl, Or.inl ⟨by simp, by simp [welcomeScan]⟩⟩
  | cons cell rest ih =>
    unfold welcomeScan
    split
    · rename_i skipped
      exact ⟨[], cell :: rest, rfl, trivial, rfl, rfl, Or.inl ⟨by simpa using skipped, by simp⟩⟩
    · rename_i number
      have number : cell.inum = hole := not_not.mp number
      split
      · rename_i uncommitted
        exact ⟨[], cell :: rest, rfl, trivial, rfl, rfl,
          Or.inr ⟨cell, rfl, number, by simpa using uncommitted, rfl⟩⟩
      · rename_i committed
        obtain ⟨run, after, rfl, contiguous, marked, last, cursor⟩ :=
          @ih (some cell.addr) (hole + 1)
        have length : hole + 1 + run.length = hole + (cell :: run).length := by
          rw [List.length_cons]
          omega
        refine ⟨cell :: run, after, rfl, ⟨number, by simpa using committed, contiguous⟩,
          by simp [marked, takeLearned], by rw [← length]; exact last, ?_⟩
        rw [length] at cursor
        rcases cursor with ⟨skipped, start⟩ | held
        · refine Or.inl ⟨skipped, start.trans ?_⟩
          -- The run behind the first commit may be empty.
          rw [List.getLast?_cons]
          cases run.getLast? <;> simp
        · exact Or.inr held

/-- Welcomed instances get consecutive addresses. -/
theorem mem_welcomeCells {ilist : List PackedInstance} {addr : Addr} {cell : Cell}
    (mem : cell ∈ welcomeCells addr ilist) :
    addr ≤ cell.addr ∧ cell.addr < addr + ilist.length ∧
      ∃ packed ∈ ilist, cell.inst = instanceUnpack packed := by
  -- The first has the address given, and the rest follow it.
  induction ilist generalizing addr with
  | nil => simp [welcomeCells] at mem
  | cons packed rest ih =>
    rw [List.length_cons]
    rcases List.mem_cons.mp mem with rfl | mem
    · exact ⟨Nat.le_refl _, Nat.lt_add_of_pos_right (Nat.succ_pos _), packed,
        List.mem_cons_self, rfl⟩
    · obtain ⟨above, below, other, memRest, same⟩ := ih mem
      rw [Nat.add_assoc, Nat.add_comm 1] at below
      exact ⟨Nat.le_of_succ_le above, below, other, List.mem_cons_of_mem _ memRest, same⟩

/-- The welcomed log is as ascending as the packed one, under distinct addresses. -/
theorem welcomeCells_pairwise {ilist : List PackedInstance} (addr : Addr)
    (ascending : ilist.Pairwise fun x y => x.hdr.inum < y.hdr.inum) :
    (welcomeCells addr ilist).Pairwise fun x y => x.inum < y.inum ∧ x.addr < y.addr := by
  -- By induction on the log; each element is laid at the next address.
  induction ilist generalizing addr with
  | nil => exact List.Pairwise.nil
  | cons packed rest ih =>
    obtain ⟨head, tail⟩ := List.pairwise_cons.mp ascending
    refine List.pairwise_cons.mpr ⟨fun cell mem => ?_, ih _ tail⟩
    obtain ⟨above, -, other, memRest, same⟩ := mem_welcomeCells mem
    refine ⟨?_, Nat.lt_of_succ_le above⟩
    show packed.hdr.inum < cell.inst.hdr.inum
    rw [same]
    exact head other memRest

/-- Taking a prefix as learned keeps numbers and addresses. -/
theorem takeLearned_pairwise {run rest : List Cell}
    (order : (run ++ rest).Pairwise fun x y : Cell => x.inum < y.inum ∧ x.addr < y.addr) :
    (run.map takeLearned ++ rest).Pairwise fun x y => x.inum < y.inum ∧ x.addr < y.addr := by
  obtain ⟨front, back, across⟩ := List.pairwise_append.mp order
  refine List.pairwise_append.mpr ⟨List.pairwise_map.mpr front, back, ?_⟩
  intro x memx y memy
  obtain ⟨old, mem, rfl⟩ := List.mem_map.mp memx
  exact across old mem y memy

/-- The acceptors of a welcome change nothing of the core but the proposer. -/
theorem welcomeAcceptors_core {source : PeerId} {hdr : Header} {alist : List PackedAcceptor}
    {node : Node} : (welcomeAcceptors source hdr node alist).pax.core =
      { node.pax.core with
        proposer := (welcomeAcceptors source hdr node alist).pax.proposer } := by
  -- Each acceptor goes on the list; the owner of the ballot is the proposer, others are connected
  -- to.
  induction alist generalizing node with
  | nil => rfl
  | cons packed rest ih =>
    unfold welcomeAcceptors
    simp only
    split
    · exact ih
    · split
      · exact ih
      · exact ih

/-- Asking for the connections of a newcomer leaves nothing else to wait with. -/
theorem welcomeAcceptors_clist {source : PeerId} {hdr : Header} {alist : List PackedAcceptor}
    {node : Node} : ∀ k ∈ (welcomeAcceptors source hdr node alist).pax.clist,
      k ∈ node.pax.clist ∨ k.purpose = .ackWelcome := by
  -- All but ourselves and the sender are connected to, which is waited for.
  induction alist generalizing node with
  | nil => exact fun k mem => Or.inl mem
  | cons packed rest ih =>
    unfold welcomeAcceptors
    simp only
    split
    · exact ih
    · split
      · intro k mem
        rcases ih k mem with before | waits
        · rcases List.mem_append.mp before with before | new
          · exact Or.inl before
          · obtain rfl := List.mem_singleton.mp new
            exact Or.inr rfl
        · exact Or.inr waits
      · exact ih

/-- A welcome only asks for connections. -/
theorem welcomeAcceptors_out {source : PeerId} {hdr : Header} {alist : List PackedAcceptor}
    {node : Node} : ∃ effects, (welcomeAcceptors source hdr node alist).out = node.out ++ effects ∧
      ∀ effect ∈ effects, ∃ handle desc, effect = .connect handle desc := by
  -- Only a connection is asked for.
  induction alist generalizing node with
  | nil => exact ⟨[], by simp [welcomeAcceptors]⟩
  | cons packed rest ih =>
    unfold welcomeAcceptors
    simp only
    split
    · obtain ⟨effects, out, connects⟩ := @ih (((node.setAlist _).setProposer _).setLiveCount _)
      exact ⟨effects, out, connects⟩
    · split
      · obtain ⟨effects, out, connects⟩ := @ih ((node.setAlist _).connect .ackWelcome _)
        refine ⟨_ :: effects, out.trans (List.append_assoc _ _ _), ?_⟩
        intro effect mem
        rcases List.mem_cons.mp mem with rfl | mem
        · exact ⟨_, _, rfl⟩
        · exact connects effect mem
      · obtain ⟨effects, out, connects⟩ := @ih (node.setAlist _)
        exact ⟨effects, out, connects⟩

/-- A newcomer has sent nothing and learned nothing. -/
theorem acceptorAckWelcome_out {source : PeerId} {hdr : Header} {session : Uuid} {ibase : Nat}
    {alist : List PackedAcceptor} {ilist : List PackedInstance} :
    ∀ effect ∈ (acceptorAckWelcome source hdr session ibase alist ilist).out,
      effect = .enter ∨ ∃ handle desc, effect = .connect handle desc := by
  -- The session is entered first, and asks for its connections as it unpacks the acceptors.
  obtain ⟨effects, out, connects⟩ := @welcomeAcceptors_out source hdr alist
    { pax := { sessionNew session with
        ballot := hdr.ballot, selfId := hdr.inum, genHigh := hdr.ballot.gen, ibase := ibase
        liveCount := 1 }
      out := [.enter], script := [] }
  intro effect mem
  rcases List.mem_append.mp (out ▸ mem) with mem | mem
  · exact Or.inl (List.mem_singleton.mp mem)
  · exact Or.inr (connects effect mem)

/-- A session begins with nothing sent and nothing learned. -/
theorem Begins.out {fits : Welcome → Prop} {node : Node} {first : Nat}
    (begins : Begins fits node first) :
    ∀ effect ∈ node.out, effect = .enter ∨ ∃ handle desc, effect = .connect handle desc := by
  cases begins with
  | start =>
    intro effect mem
    contradiction
  | welcome welcome => exact acceptorAckWelcome_out

/-- The scan takes a contiguous run of commits at the base as learned. -/
theorem Welcome.scan (welcome : Welcome) :
    ∃ run rest, welcomeCells 0 welcome.ilist = run ++ rest ∧ Contiguous welcome.ibase run ∧
      welcome.node.pax.ilist.cells = run.map takeLearned ++ rest ∧
      welcome.node.pax.ihole = welcome.ibase + run.length ∧
      ((∀ cell, rest.head? = some cell → cell.inum ≠ welcome.node.pax.ihole) ∧
          welcome.node.pax.istart = run.getLast?.map Cell.addr ∨
        ∃ cell, rest.head? = some cell ∧ cell.inum = welcome.node.pax.ihole ∧
          cell.inst.committed = false ∧ welcome.node.pax.istart = some cell.addr) := by
  obtain ⟨run, rest, whole, contiguous, marked, hole, cursor⟩ :=
    @welcomeScan_spec none welcome.ibase (welcomeCells 0 welcome.ilist)
  rw [Option.or_none, ← hole] at cursor
  exact ⟨run, rest, whole, contiguous, marked, hole, cursor⟩

/-- A welcome begins a session with a well-formed log. -/
theorem Welcome.wellFormed (welcome : Welcome) : welcome.node.pax.ilist.WellFormed := by
  -- What is not in the run is as it was welcomed: neither cached nor learned.
  obtain ⟨run, rest, whole, contiguous, cells, -⟩ := welcome.scan
  have order := takeLearned_pairwise (whole ▸ welcomeCells_pairwise 0 welcome.ascending)
  have old : ∀ cell ∈ run.map takeLearned ++ rest, ∃ prior ∈ welcomeCells 0 welcome.ilist,
      prior.addr = cell.addr ∧ (cell.inst.learned = true →
        cell.inst.committed = true ∧ cell.inst.cached = true) := by
    intro cell mem
    rcases List.mem_append.mp mem with mem | mem
    · obtain ⟨prior, memRun, rfl⟩ := List.mem_map.mp mem
      exact ⟨prior, whole ▸ List.mem_append_left _ memRun, rfl,
        fun _ => ⟨(contiguous.inum prior memRun).2.2, rfl⟩⟩
    · have memOld := whole ▸ List.mem_append_right run mem
      obtain ⟨-, -, packed, -, same⟩ := mem_welcomeCells memOld
      exact ⟨cell, memOld, rfl, by simp [same, instanceUnpack]⟩
  constructor
  case ascending =>
    rw [cells]
    exact order.imp And.left
  case distinct =>
    rw [cells]
    exact List.pairwise_map.mpr (order.imp fun less => Nat.ne_of_lt less.2)
  case apart => exact fun _ _ gone mem => absurd mem List.not_mem_nil
  case linked =>
    intro cell mem
    obtain ⟨prior, memPrior, same, -⟩ := old cell (cells ▸ mem)
    have bound := (mem_welcomeCells memPrior).2.1
    rw [same, Nat.zero_add] at bound
    exact bound
  case unlinked => exact fun gone mem => absurd mem List.not_mem_nil
  case idle => exact fun gone mem => absurd mem List.not_mem_nil
  case sound =>
    intro cell mem
    obtain ⟨-, -, -, sound⟩ := old cell (cells ▸ mem)
    exact sound

/-- A session begins with a well-formed log. -/
theorem Begins.wellFormed {fits : Welcome → Prop} {node : Node} {first : Nat}
    (begins : Begins fits node first) : node.pax.ilist.WellFormed := by
  cases begins with
  | start => constructor <;> simp [paxosStart, startInstance]
  | welcome welcome => exact welcome.wellFormed

end Motmot
