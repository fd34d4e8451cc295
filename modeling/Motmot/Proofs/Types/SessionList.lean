import Motmot.Proofs.Containers.SortedList
import Motmot.Proofs.Types.Compare
import Motmot.Types.SessionList

/-! Sessions are found under their UUIDs as long as every welcome brings the lowest one. -/

namespace Motmot

@[simp] theorem paxUuidCompare_eq_lt {x y : Uuid} : paxUuidCompare x y = .lt ↔ x < y :=
  paxidCompare_eq_lt

instance : Std.TransCmp paxUuidCompare := inferInstanceAs (Std.TransCmp paxidCompare)

instance : Std.LawfulEqCmp paxUuidCompare := inferInstanceAs (Std.LawfulEqCmp paxidCompare)

namespace Sessions

variable {sessions : Sessions}

/-- Every live session is found under its own UUID. -/
def Complete (sessions : Sessions) : Prop :=
  ∀ cell ∈ sessions.live, sessionFind sessions.list cell.sessionId = some cell

/-- The list holds exactly the live sessions, in the order of their UUIDs. -/
structure Sorted (sessions : Sessions) : Prop where
  ascending : SortedList.Ascending paxUuidCompare SessionCell.sessionId sessions.list
  same : sessions.list.Perm sessions.live
  bound : ∀ cell ∈ sessions.live, cell.addr < sessions.brk
  nonzero : ∀ cell ∈ sessions.live, cell.sessionId ≠ 0

/-- In a sorted list every live session is found. -/
theorem Sorted.complete (sorted : sessions.Sorted) : sessions.Complete := by
  intro cell mem
  have listed : cell ∈ sessions.list := sorted.same.mem_iff.mpr mem
  exact SortedList.findFwd_of_mem sorted.ascending listed

/-- A session that is inserted under a UUID of its own keeps the list sorted. -/
theorem Sorted.sessionNew {id : Uuid} (sorted : sessions.Sorted) (fresh : sessions.Fresh id) :
    (sessions.sessionNew id).Sorted := by
  -- The UUID is in use nowhere, so the insertion succeeds.
  have free : ∀ cell ∈ sessions.list, cell.sessionId ≠ id := fun cell mem =>
    fresh.2 cell (sorted.same.mem_iff.mp mem)
  obtain ⟨inserted, made, perm⟩ :=
    @SortedList.insertFwd_perm _ _ paxUuidCompare SessionCell.sessionId _
      ⟨sessions.brk, id⟩ sessions.list free
  have listed : (sessions.sessionNew id).list = inserted := by
    simp [Sessions.sessionNew, sessionInsert, made]
  constructor
  · rw [listed]
    exact SortedList.insertFwd_ascending sorted.ascending made
  · rw [listed]
    exact perm.trans (sorted.same.cons _)
  · intro cell mem
    show cell.addr < sessions.brk + 1
    rcases List.mem_cons.mp mem with rfl | mem
    · exact Nat.lt_succ_self _
    · exact Nat.lt_succ_of_lt (sorted.bound cell mem)
  · intro cell mem
    rcases List.mem_cons.mp mem with rfl | mem
    · exact fresh.1
    · exact sorted.nonzero cell mem

/-- A session that ends leaves the list sorted. -/
theorem Sorted.finish (sorted : sessions.Sorted) (addr : Addr) : (sessions.finish addr).Sorted where
  ascending := sorted.ascending.filter _
  same := sorted.same.filter _
  bound cell mem := sorted.bound cell (List.mem_filter.mp mem).1
  nonzero cell mem := sorted.nonzero cell (List.mem_filter.mp mem).1

/-- A welcomed session stands in front of all others, whatever UUID it gets there. -/
theorem Sorted.ackWelcome_eq {id : Uuid} (sorted : sessions.Sorted) :
    sessions.ackWelcome id =
      { list := ⟨sessions.brk, id⟩ :: sessions.list
        live := ⟨sessions.brk, id⟩ :: sessions.live
        brk := sessions.brk + 1 } := by
  -- Zero lies below every UUID in use, so the insertion is at the head.
  have front : sessionInsert sessions.list ⟨sessions.brk, 0⟩ =
      ⟨sessions.brk, 0⟩ :: sessions.list := by
    unfold sessionInsert
    cases whole : sessions.list with
    | nil => rfl
    | cons head rest =>
      have mem : head ∈ sessions.live := sorted.same.mem_iff.mp (by simp [whole])
      have below : paxUuidCompare 0 head.sessionId = .lt :=
        paxUuidCompare_eq_lt.mpr (Nat.pos_of_ne_zero (sorted.nonzero head mem))
      simp [SortedList.insertFwd, below]
  -- No other session has the address of the new one.
  have others : ∀ list : List SessionCell, (∀ cell ∈ list, cell ∈ sessions.live) →
      list.map (fun cell => if cell.addr = sessions.brk then { cell with sessionId := id }
        else cell) = list := by
    intro list within
    conv => rhs; rw [← List.map_id list]
    apply List.map_congr_left
    intro cell mem
    have bound := sorted.bound cell (within cell mem)
    simp [Nat.ne_of_lt bound]
  have listed := others sessions.list fun cell mem => sorted.same.mem_iff.mp mem
  have alive := others sessions.live fun cell mem => mem
  simp [Sessions.ackWelcome, uuidUnpack, Sessions.sessionNew, front, listed, alive]

/-- A welcome keeps the list sorted when it brings a UUID below all others. -/
theorem Sorted.ackWelcome {id : Uuid} (sorted : sessions.Sorted) (fresh : sessions.Fresh id)
    (lowest : ∀ cell ∈ sessions.live, id < cell.sessionId) : (sessions.ackWelcome id).Sorted := by
  -- The new session stands in front of the others, below all of which it lies.
  rw [sorted.ackWelcome_eq]
  constructor
  · refine List.pairwise_cons.mpr ⟨fun cell mem => ?_, sorted.ascending⟩
    exact paxUuidCompare_eq_lt.mpr (lowest cell (sorted.same.mem_iff.mp mem))
  · exact sorted.same.cons _
  · intro cell mem
    show cell.addr < sessions.brk + 1
    rcases List.mem_cons.mp mem with rfl | mem
    · exact Nat.lt_succ_self _
    · exact Nat.lt_succ_of_lt (sorted.bound cell mem)
  · intro cell mem
    rcases List.mem_cons.mp mem with rfl | mem
    · exact fresh.1
    · exact sorted.nonzero cell mem

/-- A welcome with any other UUID hides the sessions below it behind the new one. -/
theorem Sorted.complete_ackWelcome {id : Uuid} (sorted : sessions.Sorted)
    (fresh : sessions.Fresh id) :
    (sessions.ackWelcome id).Complete ↔ ∀ cell ∈ sessions.live, id < cell.sessionId := by
  constructor
  · intro complete cell mem
    rw [sorted.ackWelcome_eq] at complete
    have found := complete cell (List.mem_cons_of_mem _ mem)
    -- A scan for a lower UUID stops at the session in front, and finds nothing.
    apply Nat.lt_of_not_le
    intro above
    have lower : cell.sessionId < id := Nat.lt_of_le_of_ne above (fresh.2 cell mem)
    have missed : sessionFind (⟨sessions.brk, id⟩ :: sessions.list) cell.sessionId = none :=
      SortedList.findFwd_above (paxUuidCompare_eq_lt.mpr lower)
    rw [missed] at found
    contradiction
  · -- If it lies below all others, the list is sorted.
    intro lowest
    exact (sorted.ackWelcome fresh lowest).complete

/-- The states that proper turns reach, where every turn meets a condition. -/
inductive Reaches (allowed : Sessions → Turn → Prop) : Sessions → Prop where
  | init : Reaches allowed Sessions.init
  | turn {sessions : Sessions} {turn : Turn} (before : Reaches allowed sessions)
      (proper : sessions.Proper turn) (ok : allowed sessions turn) :
      Reaches allowed (sessions.turn turn)

/-- A turn that hides nobody: a welcome brings a UUID below those of all live sessions. -/
def Lowest (sessions : Sessions) : Turn → Prop
  | .welcome id => ∀ cell ∈ sessions.live, id < cell.sessionId
  | _ => True

/-- The list stays sorted as long as every welcome brings the lowest UUID. -/
theorem Reaches.sorted (reaches : Reaches Lowest sessions) : sessions.Sorted := by
  -- By induction on the turns, of which a welcome has to bring the lowest UUID.
  induction reaches with
  | init =>
    exact ⟨List.Pairwise.nil, List.Perm.nil, by simp [Sessions.init], by simp [Sessions.init]⟩
  | @turn sessions turn before proper ok ih =>
    cases turn with
    | start id => exact ih.sessionNew proper
    | welcome id => exact ih.ackWelcome proper ok
    | finish addr => exact ih.finish addr

/--
Every live session is found as long as every welcome brings the lowest UUID.

The first welcome that does not hides a live session at once.
-/
theorem sessions_found (reaches : Reaches Lowest sessions) :
    sessions.Complete ∧ ∀ id, sessions.Fresh id →
      ((sessions.ackWelcome id).Complete ↔ Lowest sessions (.welcome id)) :=
  ⟨reaches.sorted.complete, fun _ fresh => reaches.sorted.complete_ackWelcome fresh⟩

/-- A session that was started and one that was welcomed under a lower UUID are both found. -/
theorem sessions_found_two :
    ((init.start 9).ackWelcome 5).live.length = 2 ∧ ((init.start 9).ackWelcome 5).Complete := by
  -- First one is started under 9, and then one is welcomed under 5.
  have started : Reaches Lowest (init.turn (.start 9)) :=
    .turn .init (show init.Fresh 9 by decide) trivial
  have welcomed : Reaches Lowest ((init.start 9).turn (.welcome 5)) :=
    .turn started (show (init.start 9).Fresh 5 by decide)
      (show ∀ cell ∈ (init.start 9).live, 5 < cell.sessionId by decide)
  exact ⟨by decide, (sessions_found welcomed).1⟩

/-- Of two sessions that were welcomed under ascending UUIDs the first is lost. -/
theorem sessions_lost : ∃ sessions, Reaches (fun _ _ => True) sessions ∧
    ∃ cell ∈ sessions.live, sessionFind sessions.list cell.sessionId = none := by
  have first : Reaches (fun _ _ => True) (init.turn (.welcome 5)) :=
    .turn .init (show init.Fresh 5 by decide) trivial
  have second : Reaches (fun _ _ => True) ((init.ackWelcome 5).turn (.welcome 9)) :=
    .turn first (show (init.ackWelcome 5).Fresh 9 by decide) trivial
  exact ⟨_, second, by decide⟩

end Sessions

end Motmot
