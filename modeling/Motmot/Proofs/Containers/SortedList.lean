import Motmot.Containers.SortedList

/-! Laws of keyed lists in ascending order: scans are lookups, and insertions keep the order. -/

namespace SortedList

variable {α κ : Type} {cmp : κ → κ → Ordering} {key : α → κ}

/-- The keys of the list ascend strictly. -/
def Ascending (cmp : κ → κ → Ordering) (key : α → κ) (list : List α) : Prop :=
  list.Pairwise fun x y => cmp (key x) (key y) = .lt

/-- A list handed over last element first is ascending when its keys descend. -/
theorem ascending_reverse {list : List α} :
    Ascending cmp key list.reverse ↔ list.Pairwise fun x y => cmp (key y) (key x) = .lt :=
  List.pairwise_reverse

/-- What a forward insertion leaves in a list was there before, or is the new element. -/
theorem insertFwd_mem {elt : α} {list inserted : List α}
    (made : insertFwd cmp key elt list = some inserted) :
    ∀ x ∈ inserted, x = elt ∨ x ∈ list := by
  -- The new element goes in front of some tail, and what was passed stays.
  induction list generalizing inserted with
  | nil =>
    obtain rfl : [elt] = inserted := by simpa [insertFwd] using made
    simp
  | cons head rest ih =>
    simp only [insertFwd] at made
    split at made
    · simp at made
    · obtain rfl : elt :: head :: rest = inserted := by simpa using made
      simp
    · obtain ⟨tail, placed, rfl⟩ := Option.map_eq_some_iff.mp made
      intro x mem
      rcases List.mem_cons.mp mem with rfl | mem
      · simp
      · rcases ih placed x mem with rfl | mem <;> simp_all

/-- A forward scan stops at once in front of a key above the one sought. -/
theorem findFwd_above {id : κ} {head : α} {rest : List α} (above : cmp id (key head) = .lt) :
    findFwd cmp key id (head :: rest) = none := by
  simp [findFwd, above]

/-- A forward scan of the images of a list finds the image of what it finds in the list. -/
theorem findFwd_map {β : Type} (view : β → α) {id : κ} {list : List β} :
    findFwd cmp key id (list.map view) = (findFwd cmp (key ∘ view) id list).map view := by
  -- By induction on the list; the two scans compare the same keys.
  induction list with
  | nil => rfl
  | cons head rest ih =>
    simp only [List.map_cons, findFwd, Function.comp_apply]
    cases cmp id (key (view head))
    · rfl
    · rfl
    · exact ih

/-- A forward insertion of an image into the images of a list is the image of the insertion. -/
theorem insertFwd_map {β : Type} (view : β → α) {elt : β} {list : List β} :
    insertFwd cmp key (view elt) (list.map view) =
      (insertFwd cmp (key ∘ view) elt list).map (List.map view) := by
  -- The comparisons are those of the images, one element after the other.
  induction list with
  | nil => rfl
  | cons head rest ih =>
    simp only [List.map_cons, insertFwd, Function.comp_apply]
    cases cmp (key (view elt)) (key (view head))
    · rfl
    · rfl
    · simp only [ih, Option.map_map]
      rfl

/-- An insertion stops at the key that a scan for it finds. -/
theorem insertFwd_none {elt found : α} {list : List α}
    (taken : findFwd cmp key (key elt) list = some found) : insertFwd cmp key elt list = none := by
  -- Both walk past the same keys up to the one that is equal.
  induction list with
  | nil => simp [findFwd] at taken
  | cons head rest ih =>
    simp only [findFwd] at taken
    simp only [insertFwd]
    cases result : cmp (key elt) (key head) with
    | eq => rfl
    | lt => simp [result] at taken
    | gt =>
      rw [result] at taken
      simp [ih taken]

section Oriented

variable [Std.OrientedCmp cmp]

/-- A downward scan is a forward one in the comparison with its sides exchanged. -/
theorem findDown_eq_findFwd {id : κ} {list : List α} :
    findDown cmp key id list = findFwd (fun x y => cmp y x) key id list := by
  -- By induction on the list; the exchange swaps `lt` and `gt` and leaves `eq`.
  induction list with
  | nil => rfl
  | cons head rest ih =>
    have swap : cmp (key head) id = (cmp id (key head)).swap := Std.OrientedCmp.eq_swap
    simp only [findDown, findFwd, swap, ih]
    cases cmp id (key head) <;> rfl

/-- A downward insertion is a forward one in the comparison with its sides exchanged. -/
theorem insertDown_eq_insertFwd {elt : α} {list : List α} :
    insertDown cmp key elt list = insertFwd (fun x y => cmp y x) key elt list := by
  -- By induction on the list, as for the scan.
  induction list with
  | nil => rfl
  | cons head rest ih =>
    have swap : cmp (key head) (key elt) = (cmp (key elt) (key head)).swap :=
      Std.OrientedCmp.eq_swap
    simp only [insertDown, insertFwd, swap, ih]
    cases cmp (key elt) (key head) <;> rfl

end Oriented

section Lawful

variable [Std.LawfulEqCmp cmp]

/-- What a downward scan finds is an element with the key sought. -/
theorem findDown_mem {id : κ} {list : List α} {elt : α}
    (found : findDown cmp key id list = some elt) : elt ∈ list ∧ key elt = id := by
  -- The scan returns only at an equal comparison.
  induction list with
  | nil => simp [findDown] at found
  | cons head rest ih =>
    simp only [findDown] at found
    split at found
    · rename_i equal
      obtain rfl : head = elt := by simpa using found
      exact ⟨by simp, (Std.LawfulEqCmp.eq_of_compare equal).symm⟩
    · simp at found
    · exact ⟨List.mem_cons_of_mem _ (ih found).1, (ih found).2⟩

/-- What a reverse scan finds is an element with the key sought. -/
theorem findRev_mem {id : κ} {list : List α} {elt : α}
    (found : findRev cmp key id list = some elt) : elt ∈ list ∧ key elt = id := by
  have := findDown_mem found
  simpa using this

/-- What a forward scan finds is an element with the key sought. -/
theorem findFwd_mem {id : κ} {list : List α} {elt : α}
    (found : findFwd cmp key id list = some elt) : elt ∈ list ∧ key elt = id := by
  -- The scan returns only at an equal comparison.
  induction list with
  | nil => simp [findFwd] at found
  | cons head rest ih =>
    simp only [findFwd] at found
    split at found
    · rename_i equal
      obtain rfl : head = elt := by simpa using found
      exact ⟨by simp, (Std.LawfulEqCmp.eq_of_compare equal).symm⟩
    · simp at found
    · exact ⟨List.mem_cons_of_mem _ (ih found).1, (ih found).2⟩

/-- An insertion fails only on a key that is taken. -/
theorem insertDown_none {elt : α} {list : List α}
    (failed : insertDown cmp key elt list = none) : ∃ x ∈ list, key x = key elt := by
  -- Only an equal comparison fails, and the walk gets there past the others.
  induction list with
  | nil => simp [insertDown] at failed
  | cons head rest ih =>
    simp only [insertDown] at failed
    split at failed
    · rename_i equal
      exact ⟨head, by simp, (Std.LawfulEqCmp.eq_of_compare equal).symm⟩
    · -- A key below its own takes the element, so this is no failure.
      simp at failed
    · obtain ⟨x, mem, taken⟩ := ih (by simpa using failed)
      exact ⟨x, List.mem_cons_of_mem _ mem, taken⟩

/-- A forward insertion of a key that is not taken succeeds, and adds the element somewhere. -/
theorem insertFwd_perm {elt : α} {list : List α} (free : ∀ x ∈ list, key x ≠ key elt) :
    ∃ inserted, insertFwd cmp key elt list = some inserted ∧ inserted.Perm (elt :: list) := by
  induction list with
  | nil => exact ⟨[elt], rfl, List.Perm.refl _⟩
  | cons head rest ih =>
    obtain ⟨tail, made, perm⟩ := ih fun x mem => free x (List.mem_cons_of_mem _ mem)
    simp only [insertFwd, made, Option.map_some]
    split
    · -- The key of the first element is another one.
      rename_i equal
      exact absurd (Std.LawfulEqCmp.eq_of_compare equal).symm (free head (by simp))
    · exact ⟨_, rfl, List.Perm.refl _⟩
    · exact ⟨_, rfl, (perm.cons head).trans (List.Perm.swap elt head rest)⟩

/-- An insertion of a key that is not taken succeeds. -/
theorem insertRev_isSome {elt : α} {list : List α}
    (free : ∀ x ∈ list, key x ≠ key elt) :
    ∃ inserted, insertRev cmp key elt list = some inserted := by
  cases result : insertDown cmp key elt list.reverse with
  | none =>
    obtain ⟨x, mem, taken⟩ := insertDown_none result
    exact absurd taken (free x (by simpa using mem))
  | some inserted => exact ⟨inserted.reverse, by simp [insertRev, result]⟩

end Lawful

section Ordered

variable [Std.OrientedCmp cmp]

/-- A downward scan of descending keys does not pass over the element sought. -/
theorem findDown_of_mem {list : List α} {elt : α}
    (order : list.Pairwise fun x y => cmp (key y) (key x) = .lt) (mem : elt ∈ list) :
    findDown cmp key (key elt) list = some elt := by
  -- Descending keys put everything before the element sought above it.
  induction list with
  | nil => simp at mem
  | cons head rest ih =>
    have below := List.pairwise_cons.mp order
    rcases List.mem_cons.mp mem with rfl | later
    · simp [findDown, Std.ReflCmp.compare_self]
    · -- Every key before the one sought lies above it, so the scan walks on.
      have step : cmp (key elt) (key head) = .lt := below.1 elt later
      simp [findDown, step, ih below.2 later]

/-- A reverse scan of an ascending list is a lookup. -/
theorem findRev_of_mem {list : List α} {elt : α} (order : Ascending cmp key list)
    (mem : elt ∈ list) : findRev cmp key (key elt) list = some elt := by
  refine findDown_of_mem ?_ (by simpa using mem)
  exact List.pairwise_reverse.mpr order

/-- A forward scan of an ascending list is a lookup. -/
theorem findFwd_of_mem {list : List α} {elt : α} (order : Ascending cmp key list)
    (mem : elt ∈ list) : findFwd cmp key (key elt) list = some elt := by
  induction list with
  | nil => simp at mem
  | cons head rest ih =>
    -- Ascending keys put everything before the element sought below it.
    have below := List.pairwise_cons.mp order
    rcases List.mem_cons.mp mem with rfl | later
    · simp [findFwd, Std.ReflCmp.compare_self]
    · -- Every key before the one sought lies below it, so the scan walks on.
      have step : cmp (key elt) (key head) = .gt :=
        Std.OrientedCmp.gt_iff_lt.mpr (below.1 elt later)
      simp [findFwd, step, ih below.2 later]

/-- An insertion from the tail splits the list at the first key below its own. -/
theorem insertDown_split {elt : α} {list inserted : List α}
    (made : insertDown cmp key elt list = some inserted) :
    ∃ upper lower, list = upper ++ lower ∧ inserted = upper ++ elt :: lower ∧
      (∀ x ∈ upper, cmp (key elt) (key x) = .lt) ∧
      ∀ x, lower.head? = some x → cmp (key x) (key elt) = .lt := by
  -- The walk goes past the keys above its own, and stops at the first that is not.
  induction list generalizing inserted with
  | nil =>
    obtain rfl : [elt] = inserted := by simpa [insertDown] using made
    exact ⟨[], [], by simp⟩
  | cons head rest ih =>
    simp only [insertDown] at made
    split at made
    · simp at made
    · -- The element goes in front of a key below its own.
      rename_i above
      obtain rfl : elt :: head :: rest = inserted := by simpa using made
      refine ⟨[], head :: rest, rfl, rfl, by simp, ?_⟩
      intro x first
      obtain rfl : head = x := by simpa using first
      exact Std.OrientedCmp.gt_iff_lt.mp above
    · -- A key above its own stays in front of it.
      rename_i below
      obtain ⟨tail, placed, rfl⟩ := Option.map_eq_some_iff.mp made
      obtain ⟨upper, lower, rfl, rfl, past, under⟩ := ih placed
      refine ⟨head :: upper, lower, rfl, rfl, ?_, under⟩
      intro x mem
      rcases List.mem_cons.mp mem with rfl | mem
      · exact below
      · exact past x mem

end Ordered

section Transitive

variable [Std.TransCmp cmp]

/-- An insertion from the tail into an ascending list separates the lower keys from the upper. -/
theorem insertRev_split {elt : α} {list inserted : List α} (order : Ascending cmp key list)
    (made : insertRev cmp key elt list = some inserted) :
    ∃ lower upper, list = lower ++ upper ∧ inserted = lower ++ elt :: upper ∧
      (∀ x ∈ lower, cmp (key x) (key elt) = .lt) ∧
      ∀ x ∈ upper, cmp (key elt) (key x) = .lt := by
  obtain ⟨down, placed, rfl⟩ := Option.map_eq_some_iff.mp made
  obtain ⟨upper, lower, split, rfl, past, under⟩ := insertDown_split placed
  have whole : list = lower.reverse ++ upper.reverse := by
    rw [← List.reverse_append, ← split, List.reverse_reverse]
  refine ⟨lower.reverse, upper.reverse, whole, by simp, ?_, by simpa using past⟩
  -- The key right below the insertion bounds the others by transitivity.
  intro x mem
  rw [List.mem_reverse] at mem
  cases lower with
  | nil => simp at mem
  | cons head rest =>
    have first : cmp (key head) (key elt) = .lt := under head rfl
    rcases List.mem_cons.mp mem with rfl | later
    · exact first
    · have order : Ascending cmp key ((head :: rest).reverse ++ upper.reverse) := whole ▸ order
      have descending := List.pairwise_reverse.mp (List.pairwise_append.mp order).1
      exact Std.TransCmp.lt_trans ((List.pairwise_cons.mp descending).1 x later) first

/-- A forward insertion keeps the list ascending. -/
theorem insertFwd_ascending {elt : α} {list inserted : List α} (order : Ascending cmp key list)
    (made : insertFwd cmp key elt list = some inserted) : Ascending cmp key inserted := by
  -- The walk goes past the keys below its own, and stops at the first above it.
  induction list generalizing inserted with
  | nil =>
    obtain rfl : [elt] = inserted := by simpa [insertFwd] using made
    exact List.pairwise_singleton _ _
  | cons head rest ih =>
    obtain ⟨below, order'⟩ := List.pairwise_cons.mp order
    simp only [insertFwd] at made
    split at made
    · simp at made
    · -- The element goes in front, below the head and so below everything.
      rename_i above
      obtain rfl : elt :: head :: rest = inserted := by simpa using made
      refine List.pairwise_cons.mpr ⟨fun x mem => ?_, order⟩
      rcases List.mem_cons.mp mem with rfl | mem
      · exact above
      · exact Std.TransCmp.lt_trans above (below x mem)
    · -- The head stays in front, and lies below the element and everything behind it.
      rename_i passed
      obtain ⟨tail, placed, rfl⟩ := Option.map_eq_some_iff.mp made
      refine List.pairwise_cons.mpr ⟨fun x mem => ?_, ih order' placed⟩
      rcases insertFwd_mem placed x mem with rfl | mem
      · exact Std.OrientedCmp.gt_iff_lt.mp passed
      · exact below x mem

/-- An insertion keeps the list ascending. -/
theorem insertRev_ascending {elt : α} {list inserted : List α} (order : Ascending cmp key list)
    (made : insertRev cmp key elt list = some inserted) : Ascending cmp key inserted := by
  -- The new element lies between those below it and those above it.
  obtain ⟨lower, upper, rfl, rfl, below, above⟩ := insertRev_split order made
  obtain ⟨first, second, across⟩ := List.pairwise_append.mp order
  refine List.pairwise_append.mpr ⟨first, List.pairwise_cons.mpr ⟨above, second⟩, ?_⟩
  intro x memx y memy
  rcases List.mem_cons.mp memy with rfl | memy
  · exact below x memx
  · exact across x memx y memy

end Transitive

end SortedList
