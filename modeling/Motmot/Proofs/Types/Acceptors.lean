import Motmot.Paxos.Util
import Motmot.Proofs.Containers.SortedList
import Motmot.Proofs.Types.Compare

/-! Acceptor lists in the order of their ranks: lookups, insertions, and writes to one acceptor. -/

namespace Motmot

/-- A list of acceptors in the order of their identifiers, each of which occurs once. -/
def Ranked (list : List Acceptor) : Prop := list.Pairwise fun x y => x.paxid < y.paxid

/-- Ranked lists are what the scans of the list type take for ascending. -/
theorem ranked_iff_ascending {list : List Acceptor} :
    Ranked list ↔ SortedList.Ascending paxidCompare Acceptor.paxid list := by
  simp [Ranked, SortedList.Ascending]

namespace Ranked

variable {list lower upper : List Acceptor} {acc : Acceptor} {paxid : Nat}

/-- A lookup finds the acceptor of an identifier. -/
theorem find_eq_some (ranked : Ranked list) :
    acceptorFind list paxid = some acc ↔ acc ∈ list ∧ acc.paxid = paxid := by
  constructor
  · exact SortedList.findFwd_mem
  · rintro ⟨mem, rfl⟩
    exact SortedList.findFwd_of_mem (ranked_iff_ascending.mp ranked) mem

/-- A lookup fails only for an identifier that nobody has. -/
theorem find_eq_none (ranked : Ranked list) :
    acceptorFind list paxid = none ↔ ∀ acc ∈ list, acc.paxid ≠ paxid := by
  constructor
  · -- Whoever is on the list is found.
    intro absent acc mem same
    rw [ranked.find_eq_some.mpr ⟨mem, same⟩] at absent
    contradiction
  · intro free
    -- What is found is on the list, and nobody has the identifier.
    cases found : acceptorFind list paxid with
    | none => rfl
    | some acc =>
      obtain ⟨mem, same⟩ := ranked.find_eq_some.mp found
      exact absurd same (free acc mem)

/-- An identifier names one acceptor. -/
theorem inj (ranked : Ranked list) {other : Acceptor} (mem : acc ∈ list) (memOther : other ∈ list)
    (same : acc.paxid = other.paxid) : acc = other :=
  Option.some.inj ((ranked.find_eq_some.mpr ⟨mem, same⟩).symm.trans
    (ranked.find_eq_some.mpr ⟨memOther, rfl⟩))

/-- Everybody in front of an acceptor outranks it, and it outranks everybody behind it. -/
theorem around (ranked : Ranked (lower ++ acc :: upper)) :
    (∀ x ∈ lower, x.paxid < acc.paxid) ∧ ∀ x ∈ upper, acc.paxid < x.paxid := by
  obtain ⟨-, behind, across⟩ := List.pairwise_append.mp ranked
  exact ⟨fun x mem => across x mem acc List.mem_cons_self, (List.pairwise_cons.mp behind).1⟩

/-- An acceptor that is missing is inserted between those that outrank it and the others. -/
theorem insert_split (ranked : Ranked list) (free : ∀ x ∈ list, x.paxid ≠ acc.paxid) :
    ∃ lower upper, list = lower ++ upper ∧ acceptorInsert list acc = lower ++ acc :: upper ∧
      (∀ x ∈ lower, x.paxid < acc.paxid) ∧ ∀ x ∈ upper, acc.paxid < x.paxid := by
  -- The new acceptor is inserted between those below it and those above it.
  obtain ⟨inserted, made⟩ := @SortedList.insertRev_isSome _ _ paxidCompare Acceptor.paxid
    _ acc list free
  obtain ⟨lower, upper, whole, rfl, below, above⟩ :=
    SortedList.insertRev_split (ranked_iff_ascending.mp ranked) made
  refine ⟨lower, upper, whole, by simp [acceptorInsert, made], ?_, ?_⟩
  · exact fun x mem => paxidCompare_eq_lt.mp (below x mem)
  · exact fun x mem => paxidCompare_eq_lt.mp (above x mem)

/-- An insertion keeps the list ranked. -/
theorem insert (ranked : Ranked list) (acc : Acceptor) : Ranked (acceptorInsert list acc) := by
  unfold acceptorInsert
  -- An identifier that is taken changes nothing.
  cases made : SortedList.insertRev paxidCompare Acceptor.paxid acc list with
  | none => exact ranked
  | some inserted =>
    exact ranked_iff_ascending.mpr
      (SortedList.insertRev_ascending (ranked_iff_ascending.mp ranked) made)

/-- An identifier that is taken is not inserted again. -/
theorem insert_taken (ranked : Ranked list) {other : Acceptor} (mem : other ∈ list)
    (same : other.paxid = acc.paxid) : acceptorInsert list acc = list := by
  unfold acceptorInsert
  cases made : SortedList.insertRev paxidCompare Acceptor.paxid acc list with
  | none => rfl
  | some inserted =>
    -- The new element would stand strictly between two halves that hold the old one.
    obtain ⟨lower, upper, rfl, rfl, below, above⟩ :=
      SortedList.insertRev_split (ranked_iff_ascending.mp ranked) made
    rcases List.mem_append.mp mem with mem | mem
    · exact absurd same (Nat.ne_of_lt (paxidCompare_eq_lt.mp (below other mem)))
    · exact absurd same (Nat.ne_of_gt (paxidCompare_eq_lt.mp (above other mem)))

/-- What an insertion leaves was there before or is new. -/
theorem mem_insert (ranked : Ranked list) {other : Acceptor}
    (mem : other ∈ acceptorInsert list acc) : other ∈ list ∨ other = acc := by
  -- The identifier is taken, and nothing changes, or the list is split around the new acceptor.
  by_cases taken : ∃ x ∈ list, x.paxid = acc.paxid
  · obtain ⟨x, memx, same⟩ := taken
    rw [ranked.insert_taken memx same] at mem
    exact Or.inl mem
  · obtain ⟨lower, upper, rfl, whole, -⟩ :=
      ranked.insert_split fun x memx same => taken ⟨x, memx, same⟩
    rw [whole] at mem
    simp only [List.mem_append, List.mem_cons] at mem ⊢
    tauto

/-- An insertion removes nobody. -/
theorem subset_insert (ranked : Ranked list) {other : Acceptor} (mem : other ∈ list) :
    other ∈ acceptorInsert list acc := by
  -- The identifier is taken, and nothing changes, or the list is split around the new acceptor.
  by_cases taken : ∃ x ∈ list, x.paxid = acc.paxid
  · obtain ⟨x, memx, same⟩ := taken
    rw [ranked.insert_taken memx same]
    exact mem
  · obtain ⟨lower, upper, rfl, whole, -⟩ :=
      ranked.insert_split fun x memx same => taken ⟨x, memx, same⟩
    rw [whole]
    simp only [List.mem_append, List.mem_cons] at mem ⊢
    tauto

/-- A write to the channel of one acceptor changes that one. -/
theorem setPeer_split (ranked : Ranked (lower ++ acc :: upper)) (peer : Option PeerId) :
    (lower ++ acc :: upper).map (fun x => if x.paxid = acc.paxid then
      { x with peer := peer } else x)
      = lower ++ { acc with peer := peer } :: upper := by
  -- The identifiers ascend strictly, so no other acceptor has this one.
  obtain ⟨below, above⟩ := ranked.around
  have other : ∀ x ∈ lower ++ upper,
      (if x.paxid = acc.paxid then { x with peer := peer } else x) = x := by
    intro x mem
    rcases List.mem_append.mp mem with mem | mem
    · rw [if_neg (Nat.ne_of_lt (below x mem))]
    · rw [if_neg (Nat.ne_of_gt (above x mem))]
  have first := (List.map_congr_left fun x mem => other x (List.mem_append_left _ mem)).trans
    (List.map_id' lower)
  have last := (List.map_congr_left fun x mem => other x (List.mem_append_right _ mem)).trans
    (List.map_id' upper)
  rw [List.map_append, List.map_cons, first, last, if_pos rfl]

/-- A removal takes out one acceptor. -/
theorem filter_split (ranked : Ranked (lower ++ acc :: upper)) :
    (lower ++ acc :: upper).filter (fun x => x.paxid ≠ acc.paxid) = lower ++ upper := by
  -- The others have lower identifiers in front and higher ones behind.
  obtain ⟨below, above⟩ := ranked.around
  have first : lower.filter (fun x => x.paxid ≠ acc.paxid) = lower :=
    List.filter_eq_self.mpr fun x mem => by simpa using Nat.ne_of_lt (below x mem)
  have last : upper.filter (fun x => x.paxid ≠ acc.paxid) = upper :=
    List.filter_eq_self.mpr fun x mem => by simpa using Nat.ne_of_gt (above x mem)
  rw [List.filter_append, List.filter_cons, first, last]
  simp

end Ranked

end Motmot
