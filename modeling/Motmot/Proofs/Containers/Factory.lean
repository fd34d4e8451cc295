import Motmot.Proofs.Containers.LinkedList

/-! The lookups and insertions generated over linked lists, and the finite maps they make. -/

namespace LinkedList

variable {ν α κ : Type}

/-- The addresses of a chain in the order in which a scan meets them. -/
def Scan.order : Scan → List ν → List ν
  | .fwd, addrs => addrs
  | .rev, addrs => addrs.reverse

/-- The comparison under which the keys ascend along a scan. -/
def Scan.turn (cmp : κ → κ → Ordering) : Scan → κ → κ → Ordering
  | .fwd => cmp
  | .rev => fun x y => cmp y x

@[simp] theorem Scan.order_order (dir : Scan) (addrs : List ν) :
    dir.order (dir.order addrs) = addrs := by
  cases dir <;> simp [order]

@[simp] theorem Scan.mem_order {dir : Scan} {addrs : List ν} {addr : ν} :
    addr ∈ dir.order addrs ↔ addr ∈ addrs := by
  cases dir <;> simp [order]

/-- A cut of the order of a scan is a cut of the addresses. -/
theorem Scan.order_cut (dir : Scan) (elm : ν) {addrs skipped left : List ν}
    (split : dir.order addrs = skipped ++ left) : ∃ front rest, addrs = front ++ rest ∧
      dir.order (skipped ++ elm :: left) = front ++ elm :: rest := by
  cases dir with
  | fwd => exact ⟨skipped, left, split, rfl⟩
  | rev =>
    refine ⟨left.reverse, skipped.reverse, ?_, by simp [order]⟩
    simpa [order] using congrArg List.reverse split

/-- A scan meets every address once. -/
theorem Scan.order_perm (dir : Scan) (addrs : List ν) : (dir.order addrs).Perm addrs := by
  cases dir
  · exact List.Perm.refl addrs
  · exact List.reverse_perm addrs

instance (cmp : κ → κ → Ordering) [Std.TransCmp cmp] (dir : Scan) :
    Std.TransCmp (dir.turn cmp) := by
  cases dir
  · exact inferInstanceAs (Std.TransCmp cmp)
  · exact inferInstanceAs (Std.TransCmp fun x y => cmp y x)

instance (cmp : κ → κ → Ordering) [Std.LawfulEqCmp cmp] [Std.OrientedCmp cmp] (dir : Scan) :
    Std.LawfulEqCmp (dir.turn cmp) := by
  cases dir
  · exact inferInstanceAs (Std.LawfulEqCmp cmp)
  · have refl : ∀ x, cmp x x = .eq := fun x => Std.ReflCmp.compare_self
    have eq : ∀ x y, cmp y x = .eq → x = y :=
      fun x y same => (Std.LawfulEqCmp.eq_of_compare same).symm
    exact { compare_self := refl _, eq_of_compare := eq _ _ }

/-- A scan ends at an equal key, ends past its key, or goes on. -/
theorem Scan.step_cases (cmp : κ → κ → Ordering) [Std.OrientedCmp cmp] (dir : Scan) (x y : κ) :
    dir.turn cmp x y = .eq ∧ cmp x y = .eq ∨
    dir.turn cmp x y = .lt ∧ cmp x y ≠ .eq ∧ dir.past (cmp x y) = true ∨
    dir.turn cmp x y = .gt ∧ cmp x y ≠ .eq ∧ dir.past (cmp x y) = false := by
  cases dir with
  | fwd => cases result : cmp x y <;> simp [turn, past, result]
  | rev =>
    -- In reverse the comparison is read with its sides exchanged.
    have swap : cmp y x = (cmp x y).swap := Std.OrientedCmp.eq_swap
    cases result : cmp x y <;> simp [turn, past, swap, result]

/-- Ascending keys ascend along every scan in its own comparison. -/
theorem Scan.ascending_order {cmp : κ → κ → Ordering} {key : ν → κ} (dir : Scan)
    {addrs : List ν} : SortedList.Ascending (dir.turn cmp) key (dir.order addrs) ↔
      SortedList.Ascending cmp key addrs := by
  cases dir with
  | fwd => rfl
  | rev => exact List.pairwise_reverse

/-- The scan of a pure list in a direction. -/
def Scan.find (cmp : κ → κ → Ordering) (key : α → κ) (id : κ) (list : List α) : Scan → Option α
  | .fwd => SortedList.findFwd cmp key id list
  | .rev => SortedList.findRev cmp key id list

/-- The insertion into a pure list in a direction. -/
def Scan.insert (cmp : κ → κ → Ordering) (key : α → κ) (elt : α) (list : List α) :
    Scan → Option (List α)
  | .fwd => SortedList.insertFwd cmp key elt list
  | .rev => SortedList.insertRev cmp key elt list

/-- A scan of a pure list in either direction is a forward one in its own comparison. -/
theorem Scan.find_map {cmp : κ → κ → Ordering} [Std.OrientedCmp cmp] (dir : Scan)
    {key : α → κ} {view : ν → α} {id : κ} {addrs : List ν} :
    dir.find cmp key id (addrs.map view) =
      (SortedList.findFwd (dir.turn cmp) (key ∘ view) id (dir.order addrs)).map view := by
  cases dir with
  | fwd => exact SortedList.findFwd_map view
  | rev =>
    rw [find, SortedList.findRev, ← List.map_reverse, SortedList.findDown_eq_findFwd]
    exact SortedList.findFwd_map view

/-- An insertion in either direction is a forward one in its own comparison. -/
theorem Scan.insert_map {cmp : κ → κ → Ordering} [Std.OrientedCmp cmp] (dir : Scan)
    {key : α → κ} {view : ν → α} {elt : ν} {addrs : List ν} :
    dir.insert cmp key (view elt) (addrs.map view) =
      (SortedList.insertFwd (dir.turn cmp) (key ∘ view) elt (dir.order addrs)).map
        fun placed => (dir.order placed).map view := by
  -- Backwards, the comparison is turned and the list is reversed.
  cases dir with
  | fwd => exact SortedList.insertFwd_map view
  | rev =>
    rw [insert, SortedList.insertRev, ← List.map_reverse, SortedList.insertDown_eq_insertFwd,
      SortedList.insertFwd_map, Option.map_map]
    simp [order, turn, Function.comp_def, List.map_reverse]

/-- The head points at the two ends of the chain. -/
theorem Chain.ends {list : LinkedList ν α} {addrs : List ν} (chain : list.Chain addrs) :
    list.ahead none = addrs.head? ∧ list.behind none = addrs.getLast? :=
  ⟨(chain.joined [] addrs rfl).1, (chain.joined addrs [] (List.append_nil addrs).symm).2⟩

/-- A scan starts at the first address of its order. -/
theorem Chain.start_eq {list : LinkedList ν α} {addrs : List ν} (chain : list.Chain addrs)
    (dir : Scan) : list.start dir = (dir.order addrs).head? := by
  -- A scan from the back starts where the reversed list does.
  cases dir with
  | fwd => exact chain.ends.1
  | rev =>
    have back := chain.ends.2
    rw [← List.head?_reverse] at back
    exact back

/-- From an element a scan goes on to the next address of its order. -/
theorem Chain.advance_eq {list : LinkedList ν α} {addrs front rest : List ν} {it : ν}
    (chain : list.Chain addrs) {dir : Scan} (split : dir.order addrs = front ++ it :: rest) :
    list.advance it dir = rest.head? := by
  -- The two scans read the two links of the same cut of the chain.
  cases dir with
  | fwd =>
    have onward := (chain.joined (front ++ [it]) rest (by simpa [Scan.order] using split)).1
    rw [List.getLast?_concat] at onward
    exact onward
  | rev =>
    -- Backward the chain is the order in reverse, so what comes next lies in front.
    have shape : addrs = rest.reverse ++ it :: front.reverse := by
      simpa [Scan.order] using congrArg List.reverse split
    have back := (chain.joined rest.reverse (it :: front.reverse) shape).2
    rw [List.getLast?_reverse] at back
    exact back

variable [DecidableEq ν]

/-- What an insertion does where its scan stops. -/
def insertAt (list : LinkedList ν α) (elm : ν) (dir : Scan) : Option ν → LinkedList ν α
  | none => list.insertEnd elm dir
  | some it => list.insertRel it elm dir

/-- The key of the element at an address. -/
def keyAt (kind : Factory α κ) (list : LinkedList ν α) (addr : ν) : κ :=
  kind.idField (list.contents addr)

section Loops

variable {kind : Factory α κ} [Std.OrientedCmp kind.compare] {list : LinkedList ν α}
  {addrs : List ν}

omit [DecidableEq ν] in
/-- The loop of a lookup is a scan of the addresses that are left, given the fuel for them. -/
theorem findLoop_eq (chain : list.Chain addrs) (id : κ) {front rest : List ν} {fuel : Nat}
    (split : kind.findDir.order addrs = front ++ rest) (enough : rest.length < fuel) :
    findLoop kind list id fuel rest.head? =
      some (SortedList.findFwd (kind.findDir.turn kind.compare) (keyAt kind list) id rest) := by
  -- The fuel drops by one with every element, so what is left of it stays enough.
  induction rest generalizing front fuel with
  | nil =>
    obtain ⟨fuel, rfl⟩ := Nat.exists_eq_add_of_lt enough
    rfl
  | cons it rest ih =>
    obtain ⟨fuel, rfl⟩ : ∃ more, fuel = more + 1 := ⟨fuel - 1, by simp at enough; omega⟩
    have onward := @ih (front ++ [it]) fuel (by simpa using split) (by simpa using enough)
    rw [← chain.advance_eq split] at onward
    -- The loop and the pure scan make the same comparison at each element.
    rcases kind.findDir.step_cases kind.compare id (keyAt kind list it) with
      ⟨turned, same⟩ | ⟨turned, differ, past⟩ | ⟨turned, differ, past⟩
    · simp_all [findLoop, SortedList.findFwd, keyAt]
    · simp_all [findLoop, SortedList.findFwd, keyAt]
    · simp_all [findLoop, SortedList.findFwd, keyAt]

/-- An insertion whose key a scan finds returns that element and does nothing. -/
theorem insertLoop_found (chain : list.Chain addrs) {elt it : ν} {front rest : List ν}
    {fuel : Nat} (split : kind.insertDir.order addrs = front ++ rest)
    (enough : rest.length < fuel)
    (found : SortedList.findFwd (kind.insertDir.turn kind.compare) (keyAt kind list)
      (keyAt kind list elt) rest = some it) :
    insertLoop kind list elt fuel rest.head? = some (it, list) := by
  -- The loop compares as the scan does, so it stops at the element that the scan finds.
  induction rest generalizing front fuel with
  | nil => simp [SortedList.findFwd] at found
  | cons head rest ih =>
    obtain ⟨fuel, rfl⟩ : ∃ more, fuel = more + 1 := ⟨fuel - 1, by simp at enough; omega⟩
    have onward := @ih (front ++ [head]) fuel (by simpa using split) (by simpa using enough)
    rw [← chain.advance_eq split] at onward
    rcases kind.insertDir.step_cases kind.compare (keyAt kind list elt) (keyAt kind list head) with
      ⟨turned, same⟩ | ⟨turned, differ, past⟩ | ⟨turned, differ, past⟩
    · simp_all [insertLoop, SortedList.findFwd, keyAt]
    · simp_all [insertLoop, SortedList.findFwd, keyAt]
    · simp_all [insertLoop, SortedList.findFwd, keyAt]

/-- An insertion whose key no scan finds puts the element where the scan ends. -/
theorem insertLoop_fresh (chain : list.Chain addrs) {elt : ν} {front rest : List ν}
    {fuel : Nat} (split : kind.insertDir.order addrs = front ++ rest)
    (enough : rest.length < fuel)
    (absent : SortedList.findFwd (kind.insertDir.turn kind.compare) (keyAt kind list)
      (keyAt kind list elt) rest = none) :
    ∃ skipped left, rest = skipped ++ left ∧
      SortedList.insertFwd (kind.insertDir.turn kind.compare) (keyAt kind list) elt rest =
        some (skipped ++ elt :: left) ∧
      insertLoop kind list elt fuel rest.head? =
        some (elt, list.insertAt elt kind.insertDir left.head?) := by
  -- The loop walks with the scan over what is left of the order, and the fuel lasts as long.
  induction rest generalizing front fuel with
  | nil =>
    obtain ⟨fuel, rfl⟩ := Nat.exists_eq_add_of_lt enough
    exact ⟨[], [], rfl, rfl, rfl⟩
  | cons head rest ih =>
    obtain ⟨fuel, rfl⟩ : ∃ more, fuel = more + 1 := ⟨fuel - 1, by simp at enough; omega⟩
    have onward := @ih (front ++ [head]) fuel (by simpa using split) (by simpa using enough)
    rw [← chain.advance_eq split] at onward
    rcases kind.insertDir.step_cases kind.compare (keyAt kind list elt) (keyAt kind list head) with
      ⟨turned, same⟩ | ⟨turned, differ, past⟩ | ⟨turned, differ, past⟩
    · simp [SortedList.findFwd, turned] at absent
    · -- The scan stops at an element above the new one.
      refine ⟨[], head :: rest, rfl, ?_, ?_⟩
      · simp [SortedList.insertFwd, turned]
      · simp_all [insertLoop, insertAt, keyAt]
    · -- The scan goes past an element below the new one.
      have absent : SortedList.findFwd (kind.insertDir.turn kind.compare) (keyAt kind list)
          (keyAt kind list elt) rest = none := by
        simpa [SortedList.findFwd, turned] using absent
      obtain ⟨skipped, left, rfl, placed, made⟩ := onward absent
      refine ⟨head :: skipped, left, rfl, ?_, ?_⟩
      · simp [SortedList.insertFwd, turned, placed]
      · simp_all [insertLoop, keyAt]

end Loops

/-- Where a scan stops, the new element is spliced between what it passed and what is left. -/
theorem Chain.insertAt {list : LinkedList ν α} {addrs skipped left : List ν} {elm : ν}
    {dir : Scan} (chain : list.Chain addrs) (split : dir.order addrs = skipped ++ left)
    (fresh : elm ∉ addrs) :
    (list.insertAt elm dir left.head?).Chain (dir.order (skipped ++ elm :: left)) ∧
      (list.insertAt elm dir left.head?).count = list.count + 1 ∧
      (list.insertAt elm dir left.head?).contents = list.contents := by
  -- Either direction cuts the chain in two, and the writes splice the element into the cut.
  have done : ∀ front rest, addrs = front ++ rest →
      list.Spliced front.getLast? elm rest.head? (list.insertAt elm dir left.head?) →
      dir.order (skipped ++ elm :: left) = front ++ elm :: rest →
      (list.insertAt elm dir left.head?).Chain (dir.order (skipped ++ elm :: left)) ∧
        (list.insertAt elm dir left.head?).count = list.count + 1 ∧
        (list.insertAt elm dir left.head?).contents = list.contents := by
    intro front rest shape spliced place
    subst shape
    rw [place]
    exact ⟨chain.splice fresh spliced, spliced.count, spliced.contents⟩
  cases dir with
  | fwd =>
    have shape : addrs = skipped ++ left := split
    have joined := chain.joined skipped left shape
    refine done skipped left shape ?_ rfl
    cases left with
    | nil => exact insertTail_spliced joined.2 (by simp [chain.ends.1, shape])
    | cons it left => exact insertBefore_spliced joined.2 (by grind)
  | rev =>
    have shape : addrs = left.reverse ++ skipped.reverse := by
      simpa [Scan.order] using congrArg List.reverse split
    have joined := chain.joined left.reverse skipped.reverse shape
    refine done left.reverse skipped.reverse shape ?_ (by simp [Scan.order])
    rw [List.getLast?_reverse] at joined ⊢
    cases left with
    | nil => exact insertHead_spliced joined.1 (by simp [chain.ends.2, shape])
    | cons it left => exact insertAfter_spliced joined.1 (by grind)

/-- A loop that has ended is not changed by more fuel. -/
theorem insertLoop_mono {kind : Factory α κ} {list : LinkedList ν α} {elt : ν} {fuel : Nat}
    {spot : Option ν} {result : ν × LinkedList ν α}
    (done : insertLoop kind list elt fuel spot = some result) (more : Nat) :
    insertLoop kind list elt (fuel + more) spot = some result := by
  -- The loop takes the same turns with more fuel; only the walk onward uses it.
  induction fuel generalizing spot with
  | zero => simp [insertLoop] at done
  | succ fuel ih =>
    rw [Nat.add_right_comm]
    cases spot with
    | none => exact done
    | some it =>
      simp only [insertLoop] at done ⊢
      split at done
      · rw [if_pos ‹_›]
        exact done
      · rw [if_neg ‹_›]
        split at done
        · rw [if_pos ‹_›]
          exact done
        · rw [if_neg ‹_›]
          exact ih done

/-- Overwrites the memory at an address, contents and links. -/
def store (list : LinkedList ν α) (addr : ν) (entry : Entry ν α) : LinkedList ν α :=
  { list with mem := Function.update list.mem addr entry }

/-- Overwrites the contents of an element. -/
def edit (list : LinkedList ν α) (addr : ν) (elt : α) : LinkedList ν α :=
  list.store addr { list.mem addr with elt := elt }

/-- The lists that a container goes through from its initialization on. -/
inductive Built (kind : Factory α κ) : LinkedList ν α → Prop
  | init (mem : ν → Entry ν α) : Built kind (init mem)
  /-- Memory that is not linked may be given out and filled in anew. -/
  | store {list} (built : Built kind list) (addr : ν) (entry : Entry ν α)
      (free : ¬ list.Linked addr) : Built kind (list.store addr entry)
  /-- Elements may change in anything but their keys. -/
  | edit {list} (built : Built kind list) (addr : ν) (elt : α)
      (keeps : kind.idField elt = keyAt kind list addr) : Built kind (list.edit addr elt)
  | insert {list} (built : Built kind list) (elt : ν) {fuel : Nat} {holder : ν} {after}
      (done : insert kind list elt fuel = some (holder, after)) : Built kind after
  | remove {list} (built : Built kind list) {elm : ν} (linked : list.Linked elm) :
      Built kind (list.remove elm)

/-- What insertions and removals keep: a chain in ascending order, and the count of its length. -/
structure Sorted (kind : Factory α κ) (list : LinkedList ν α) (addrs : List ν) : Prop where
  chain : list.Chain addrs
  ascending : SortedList.Ascending kind.compare (keyAt kind list) addrs
  counted : list.count = UInt32.ofNat addrs.length

/-- A list as a finite map from the keys to the elements on its chain. -/
structure IsMap (kind : Factory α κ) (list : LinkedList ν α) (addrs : List ν) : Prop where
  chain : list.Chain addrs
  ascending : SortedList.Ascending kind.compare kind.idField (addrs.map list.contents)
  counted : list.count.toNat = addrs.length % 2 ^ 32
  /-- A lookup returns the element with the key if there is one, and nothing otherwise. -/
  finds : ∀ id fuel, addrs.length < fuel → ∃ found, find kind list id fuel = some found ∧
    ∀ elt, found = some elt ↔ elt ∈ addrs ∧ keyAt kind list elt = id
  /-- Inserting a key that is present returns its element and leaves the list as it is. -/
  keeps : ∀ elt it fuel, addrs.length < fuel → it ∈ addrs →
    keyAt kind list it = keyAt kind list elt → insert kind list elt fuel = some (it, list)
  /-- Inserting a key that is absent puts the element somewhere on the chain. -/
  grows : ∀ elt fuel, addrs.length < fuel → (∀ it ∈ addrs,
    keyAt kind list it ≠ keyAt kind list elt) →
    ∃ grown front rest, insert kind list elt fuel = some (elt, grown) ∧ addrs = front ++ rest ∧
      grown.Chain (front ++ elt :: rest) ∧ grown.contents = list.contents

omit [DecidableEq ν] in
/-- A chain is the same over memory that has the same links on it. -/
theorem Chain.congr {list other : LinkedList ν α} {addrs : List ν} (chain : list.Chain addrs)
    (same : ∀ spot : Option ν, (∀ addr, spot = some addr → addr ∈ addrs) →
      other.ahead spot = list.ahead spot ∧ other.behind spot = list.behind spot) :
    other.Chain addrs := by
  -- Each cut reads the links of its two sides, which lie on the chain.
  refine ⟨chain.nodup, ?_⟩
  intro front rest split
  have left := same front.getLast? fun addr last => by
    rw [split]
    exact List.mem_append_left rest (List.mem_of_getLast? last)
  have right := same rest.head? fun addr first => by
    rw [split]
    exact List.mem_append_right front (List.mem_of_head? first)
  rw [left.1, right.2]
  exact chain.joined front rest split

section Maps

variable {kind : Factory α κ} {list : LinkedList ν α} {addrs : List ν}

omit [DecidableEq ν] in
/-- The order of the keys is the same over memory that has the same keys on the chain. -/
theorem ascending_congr {other : LinkedList ν α}
    (ascending : SortedList.Ascending kind.compare (keyAt kind list) addrs)
    (same : ∀ addr ∈ addrs, keyAt kind other addr = keyAt kind list addr) :
    SortedList.Ascending kind.compare (keyAt kind other) addrs := by
  refine List.Pairwise.imp_of_mem ?_ ascending
  intro x y left right less
  rw [same x left, same y right]
  exact less

omit [DecidableEq ν] in
/-- A list that was initialized is sorted, as nothing is linked. -/
theorem Sorted.init (kind : Factory α κ) (mem : ν → Entry ν α) :
    Sorted kind (LinkedList.init mem) [] := by
  refine ⟨⟨List.nodup_nil, ?_⟩, List.Pairwise.nil, rfl⟩
  intro front rest split
  obtain ⟨rfl, rfl⟩ := List.append_eq_nil_iff.mp split.symm
  exact ⟨rfl, rfl⟩

/-- Storing into memory that is not on the chain keeps a sorted list. -/
theorem Sorted.store (sorted : Sorted kind list addrs) {addr : ν} (off : addr ∉ addrs)
    (entry : Entry ν α) : Sorted kind (list.store addr entry) addrs := by
  -- The write is at another address, so the links and the keys on the chain are as before.
  have same : ∀ other ∈ addrs, (list.store addr entry).mem other = list.mem other := by
    intro other member
    have apart : other ≠ addr := fun here => off (here ▸ member)
    exact Function.update_of_ne apart entry list.mem
  refine ⟨sorted.chain.congr ?_, ascending_congr sorted.ascending ?_, sorted.counted⟩
  · intro spot onChain
    cases spot with
    | none => exact ⟨rfl, rfl⟩
    | some other => simp only [ahead, behind, same other (onChain other rfl), and_self]
  · intro other member
    rw [keyAt, keyAt, contents, contents, same other member]

/-- Changing an element in anything but its key keeps a sorted list. -/
theorem Sorted.edit (sorted : Sorted kind list addrs) {addr : ν} {elt : α}
    (keeps : kind.idField elt = keyAt kind list addr) :
    Sorted kind (list.edit addr elt) addrs := by
  refine ⟨sorted.chain.congr ?_, ascending_congr sorted.ascending ?_, sorted.counted⟩
  · -- The links are those of the old entry.
    intro spot _
    cases spot with
    | none => exact ⟨rfl, rfl⟩
    | some other =>
      simp only [LinkedList.edit, LinkedList.store, ahead, behind, Function.update_apply]
      split <;> simp_all
  · intro other _
    -- The key of the entry is kept, and the other entries are not written.
    simp only [keyAt, contents, LinkedList.edit, LinkedList.store, Function.update_apply]
    split
    · rename_i here
      rw [here]
      exact keeps
    · rfl

/-- Removal keeps a sorted list. -/
theorem Sorted.remove {front rest : List ν} {elm : ν}
    (sorted : Sorted kind list (front ++ elm :: rest)) :
    Sorted kind (list.remove elm) (front ++ rest) := by
  -- Unlinking writes links and the count, never what the elements hold.
  have contents : (list.remove elm).contents = list.contents := by
    rw [sorted.chain.remove_eq]
    simp
  have fewer : (front ++ rest).Sublist (front ++ elm :: rest) :=
    List.Sublist.append_left (List.sublist_cons_self elm rest) front
  refine ⟨sorted.chain.remove, ?_, ?_⟩
  · refine ascending_congr (List.Pairwise.sublist fewer sorted.ascending) ?_
    intro addr _
    rw [keyAt, keyAt, contents]
  · -- The count is one less, also where it has wrapped.
    rw [sorted.chain.remove_eq, count_recount, sorted.counted]
    simp only [List.length_append, List.length_cons, ← Nat.add_assoc, UInt32.ofNat_add]
    exact UInt32.add_sub_cancel _ 1

omit [DecidableEq ν] in
/-- The keys ascend along every scan in its own comparison. -/
theorem Sorted.along (sorted : Sorted kind list addrs) (dir : Scan) :
    SortedList.Ascending (dir.turn kind.compare) (keyAt kind list) (dir.order addrs) :=
  dir.ascending_order.mpr sorted.ascending

variable [Std.TransCmp kind.compare] [Std.LawfulEqCmp kind.compare]

omit [Std.LawfulEqCmp kind.compare] in
/-- Inserting a key that is present returns its element and changes nothing. -/
theorem Sorted.insert_present (sorted : Sorted kind list addrs) {elt it : ν} {fuel : Nat}
    (enough : addrs.length < fuel) (member : it ∈ addrs)
    (same : keyAt kind list it = keyAt kind list elt) :
    insert kind list elt fuel = some (it, list) := by
  -- The scan meets the element before it comes to a place to insert at.
  have found := SortedList.findFwd_of_mem (sorted.along kind.insertDir)
    (Scan.mem_order.mpr member)
  rw [same] at found
  rw [insert, sorted.chain.start_eq]
  refine insertLoop_found sorted.chain (List.nil_append _).symm ?_ found
  rwa [(kind.insertDir.order_perm addrs).length_eq]

/-- Inserting a key that is absent puts the element on the chain. -/
theorem Sorted.insert_absent (sorted : Sorted kind list addrs) {elt : ν} {fuel : Nat}
    (enough : addrs.length < fuel)
    (absent : ∀ it ∈ addrs, keyAt kind list it ≠ keyAt kind list elt) :
    ∃ grown front rest, insert kind list elt fuel = some (elt, grown) ∧ addrs = front ++ rest ∧
      Sorted kind grown (front ++ elt :: rest) ∧ grown.contents = list.contents ∧
      SortedList.insertFwd (kind.insertDir.turn kind.compare) (keyAt kind list) elt
        (kind.insertDir.order addrs) = some (kind.insertDir.order (front ++ elt :: rest)) := by
  -- A scan finds no such key, so it runs to where the element belongs.
  have fresh : elt ∉ addrs := fun member => absent elt member rfl
  have missed : SortedList.findFwd (kind.insertDir.turn kind.compare) (keyAt kind list)
      (keyAt kind list elt) (kind.insertDir.order addrs) = none := by
    rcases result : SortedList.findFwd _ _ _ _ with _ | it
    · rfl
    · obtain ⟨member, same⟩ := SortedList.findFwd_mem result
      exact absurd same (absent it (Scan.mem_order.mp member))
  obtain ⟨skipped, left, split, placed, made⟩ := insertLoop_fresh sorted.chain
    (List.nil_append (kind.insertDir.order addrs)).symm
    (by rwa [(kind.insertDir.order_perm addrs).length_eq]) missed
  obtain ⟨front, rest, shape, place⟩ := kind.insertDir.order_cut elt split
  obtain ⟨chain, count, contents⟩ := sorted.chain.insertAt split fresh
  have back : kind.insertDir.order (front ++ elt :: rest) = skipped ++ elt :: left := by
    rw [← place, Scan.order_order]
  rw [place] at chain
  rw [← back] at placed
  refine ⟨_, front, rest, ?_, shape, ⟨chain, ?_, ?_⟩, contents, placed⟩
  · rw [insert, sorted.chain.start_eq]
    exact made
  · -- The scan leaves the keys ascending in its own comparison.
    have along := SortedList.insertFwd_ascending (sorted.along kind.insertDir) placed
    refine ascending_congr (kind.insertDir.ascending_order.mp along) ?_
    intro addr _
    rw [keyAt, keyAt, contents]
  · rw [count, sorted.counted, shape]
    simp only [List.length_append, List.length_cons, ← Nat.add_assoc, UInt32.ofNat_add]
    rfl

omit [DecidableEq ν] [Std.LawfulEqCmp kind.compare] in
/-- A lookup is a scan of the addresses in its own direction. -/
theorem Sorted.find_eq (sorted : Sorted kind list addrs) (id : κ) {fuel : Nat}
    (enough : addrs.length < fuel) : find kind list id fuel =
      some (SortedList.findFwd (kind.findDir.turn kind.compare) (keyAt kind list) id
        (kind.findDir.order addrs)) := by
  rw [find]
  split
  · -- An empty list is not scanned at all.
    rename_i empty
    have none := sorted.chain.ends.1.symm.trans empty
    rw [List.head?_eq_none_iff.mp none]
    cases kind.findDir <;> rfl
  · rw [sorted.chain.start_eq]
    refine findLoop_eq sorted.chain id (List.nil_append _).symm ?_
    rwa [(kind.findDir.order_perm addrs).length_eq]

omit [DecidableEq ν] in
/-- A lookup returns the element with the key if there is one, and nothing otherwise. -/
theorem Sorted.finds (sorted : Sorted kind list addrs) (id : κ) {fuel : Nat}
    (enough : addrs.length < fuel) : ∃ found, find kind list id fuel = some found ∧
      ∀ elt, found = some elt ↔ elt ∈ addrs ∧ keyAt kind list elt = id := by
  -- What the scan finds is in the list in whichever direction it goes.
  refine ⟨_, sorted.find_eq id enough, ?_⟩
  intro elt
  constructor
  · intro found
    obtain ⟨member, same⟩ := SortedList.findFwd_mem found
    exact ⟨Scan.mem_order.mp member, same⟩
  · rintro ⟨member, rfl⟩
    exact SortedList.findFwd_of_mem (sorted.along kind.findDir) (Scan.mem_order.mpr member)

/-- A sorted list is a finite map. -/
theorem Sorted.isMap (sorted : Sorted kind list addrs) : IsMap kind list addrs where
  chain := sorted.chain
  ascending := List.pairwise_map.mpr sorted.ascending
  counted := by rw [sorted.counted, UInt32.toNat_ofNat']
  finds := fun id _ enough => sorted.finds id enough
  keeps := fun _ _ _ enough member same => sorted.insert_present enough member same
  grows := by
    intro elt fuel enough absent
    obtain ⟨grown, front, rest, made, shape, grows, same, _⟩ := sorted.insert_absent enough absent
    exact ⟨grown, front, rest, made, shape, grows.chain, same⟩

/-- One operation of the container keeps its list sorted, so every list that it goes through is. -/
theorem Built.sorted (built : Built kind list) : ∃ addrs, Sorted kind list addrs := by
  -- The induction is on the operations that made the container.
  induction built with
  | init mem => exact ⟨[], Sorted.init kind mem⟩
  | store _ addr entry free ih =>
    obtain ⟨addrs, sorted⟩ := ih
    exact ⟨addrs, sorted.store (fun member => free ⟨addrs, sorted.chain, member⟩) entry⟩
  | edit _ addr elt keeps ih =>
    obtain ⟨addrs, sorted⟩ := ih
    exact ⟨addrs, sorted.edit keeps⟩
  | @insert list _ elt fuel holder after done ih =>
    obtain ⟨addrs, sorted⟩ := ih
    -- The scan ended within its fuel, so it ends in the same way with fuel for the whole list.
    have done : LinkedList.insert kind list elt (fuel + (addrs.length + 1)) = some
      (holder, after) :=
      insertLoop_mono done _
    have enough : addrs.length < fuel + (addrs.length + 1) := by omega
    -- The key is taken or it is not, which decides whether the list grows.
    by_cases present : ∃ it ∈ addrs, keyAt kind list it = keyAt kind list elt
    · obtain ⟨it, member, same⟩ := present
      rw [sorted.insert_present enough member same] at done
      obtain ⟨rfl, rfl⟩ : it = holder ∧ list = after := by simpa using done
      exact ⟨addrs, sorted⟩
    · have absent : ∀ it ∈ addrs, keyAt kind list it ≠ keyAt kind list elt :=
        fun it member same => present ⟨it, member, same⟩
      obtain ⟨grown, front, rest, made, _, grows, _, _⟩ := sorted.insert_absent enough absent
      rw [made] at done
      obtain ⟨rfl, rfl⟩ : elt = holder ∧ grown = after := by simpa using done
      exact ⟨front ++ elt :: rest, grows⟩
  | remove _ linked ih =>
    obtain ⟨addrs, sorted⟩ := ih
    obtain ⟨others, chain, member⟩ := linked
    obtain rfl := chain.unique sorted.chain
    obtain ⟨front, rest, rfl⟩ := List.append_of_mem member
    exact ⟨front ++ rest, sorted.remove⟩

section Views

variable {β : Type} (view : ν → β) (key : β → κ)

omit [DecidableEq ν] [Std.LawfulEqCmp kind.compare] in
/-- What a lookup returns is seen as what the scan of the pure list returns. -/
theorem Sorted.find_view (sorted : Sorted kind list addrs)
    (keyed : ∀ addr, key (view addr) = keyAt kind list addr) (id : κ) {fuel : Nat}
    (enough : addrs.length < fuel) : ∃ found, find kind list id fuel = some found ∧
      found.map view = kind.findDir.find kind.compare key id (addrs.map view) := by
  refine ⟨_, sorted.find_eq id enough, ?_⟩
  rw [← funext keyed, kind.findDir.find_map]
  rfl

/-- An insertion leaves what the insertion into the pure list leaves, if that finds a place. -/
theorem Sorted.insert_view (sorted : Sorted kind list addrs)
    (keyed : ∀ addr, key (view addr) = keyAt kind list addr) (elt : ν) {fuel : Nat}
    (enough : addrs.length < fuel) : ∃ holder after afterwards,
      insert kind list elt fuel = some (holder, after) ∧ Sorted kind after afterwards ∧
      after.contents = list.contents ∧ afterwards.map view =
        (kind.insertDir.insert kind.compare key (view elt) (addrs.map view)).getD
          (addrs.map view) := by
  -- Both insertions agree on whether the key is there, and on the place where it is not.
  rw [kind.insertDir.insert_map, show key ∘ view = keyAt kind list from funext keyed]
  by_cases present : ∃ it ∈ addrs, keyAt kind list it = keyAt kind list elt
  · obtain ⟨it, member, same⟩ := present
    refine ⟨it, list, addrs, sorted.insert_present enough member same, sorted, rfl, ?_⟩
    have found := SortedList.findFwd_of_mem (sorted.along kind.insertDir)
      (Scan.mem_order.mpr member)
    rw [same] at found
    simp [SortedList.insertFwd_none found]
  · have absent : ∀ it ∈ addrs, keyAt kind list it ≠ keyAt kind list elt :=
      fun it member same => present ⟨it, member, same⟩
    obtain ⟨grown, front, rest, made, _, grows, same, placed⟩ := sorted.insert_absent enough absent
    refine ⟨elt, grown, front ++ elt :: rest, made, grows, same, ?_⟩
    simp [placed]

end Views

end Maps

end LinkedList
