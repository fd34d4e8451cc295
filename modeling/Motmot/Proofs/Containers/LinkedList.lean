import Mathlib.Data.List.Basic
import Mathlib.Data.UInt
import Motmot.Containers.LinkedList
import Motmot.Proofs.Containers.SortedList

/-! Linked lists as the finite maps that their generated lookups and insertions take them for. -/

namespace LinkedList

variable {ν α κ : Type}

/-- What lies ahead of an element, or of the head itself. -/
def ahead (list : LinkedList ν α) : Option ν → Option ν
  | none => list.first
  | some addr => (list.mem addr).next

/-- What lies behind an element, or behind the head itself. -/
def behind (list : LinkedList ν α) : Option ν → Option ν
  | none => list.last
  | some addr => (list.mem addr).prev

/-- At every cut of the addresses the two sides point at each other, and no address occurs twice. -/
structure Chain (list : LinkedList ν α) (addrs : List ν) : Prop where
  nodup : addrs.Nodup
  joined : ∀ front rest, addrs = front ++ rest →
    list.ahead front.getLast? = rest.head? ∧ list.behind rest.head? = front.getLast?

/-- An element is linked when it stands on the chain of the list. -/
def Linked (list : LinkedList ν α) (addr : ν) : Prop := ∃ addrs, list.Chain addrs ∧ addr ∈ addrs

/-- The chain of a list is determined by its links. -/
theorem Chain.unique {list : LinkedList ν α} {xs ys : List ν} (left : list.Chain xs)
    (right : list.Chain ys) : xs = ys := by
  -- Beyond a common front both chains go on with what lies ahead of it.
  have beyond : ∀ tail front rest, list.Chain (front ++ tail) → list.Chain (front ++ rest) →
      tail = rest := by
    intro tail
    induction tail with
    | nil =>
      intro front rest first second
      have stop := (first.joined front [] rfl).1
      rw [(second.joined front rest rfl).1] at stop
      exact (List.head?_eq_none_iff.mp stop).symm
    | cons head tail ih =>
      intro front rest first second
      have same := (first.joined front (head :: tail) rfl).1
      rw [(second.joined front rest rfl).1] at same
      cases rest with
      | nil => simp at same
      | cons other rest =>
        obtain rfl : other = head := by simpa using same
        have first : list.Chain ((front ++ [other]) ++ tail) := by simpa using first
        have second : list.Chain ((front ++ [other]) ++ rest) := by simpa using second
        rw [ih (front ++ [other]) rest first second]
  exact beyond xs [] ys left right

/-- A longer front without repetition ends elsewhere. -/
theorem getLast?_ne_append {front more : List ν} (nodup : (front ++ more).Nodup)
    (grows : more ≠ []) : front.getLast? ≠ (front ++ more).getLast? := by
  intro same
  -- The longer front ends in the part that was added, which the shorter one has nothing of.
  rw [List.getLast?_append_of_ne_nil front grows, List.getLast?_eq_some_getLast grows] at same
  have apart := (List.nodup_append.mp nodup).2.2
  exact apart _ (List.mem_of_getLast? same) _ (List.getLast_mem grows) rfl

/-- A longer rest without repetition starts elsewhere. -/
theorem head?_ne_append {more rest : List ν} (nodup : (more ++ rest).Nodup)
    (grows : more ≠ []) : rest.head? ≠ (more ++ rest).head? := by
  intro same
  rw [List.head?_append_of_ne_nil more grows, List.head?_eq_some_head grows] at same
  have apart := (List.nodup_append.mp nodup).2.2
  exact apart _ (List.head_mem grows) _ (List.mem_of_head? same) rfl

/-- An element in the middle does not change where a list ends. -/
theorem getLast?_append_cons (front : List ν) (elm : ν) {more : List ν} (grows : more ≠ []) :
    (front ++ elm :: more).getLast? = (front ++ more).getLast? := by
  rw [List.getLast?_append_of_ne_nil front grows,
    List.getLast?_append_of_ne_nil front (List.cons_ne_nil elm more)]
  exact List.getLast?_cons_of_ne_nil grows

/-- An element in the middle does not change where a list starts. -/
theorem head?_append_cons (elm : ν) (rest : List ν) {more : List ν} (grows : more ≠ []) :
    (more ++ elm :: rest).head? = (more ++ rest).head? := by
  rw [List.head?_append_of_ne_nil more grows, List.head?_append_of_ne_nil more grows]

/-- What a list does not hold it does not end in. -/
theorem getLast?_ne_of_notMem {list : List ν} {elm : ν} (absent : elm ∉ list) :
    list.getLast? ≠ some elm := fun last => absent (List.mem_of_getLast? last)

/-- What a list does not hold it does not start with. -/
theorem head?_ne_of_notMem {list : List ν} {elm : ν} (absent : elm ∉ list) :
    list.head? ≠ some elm := fun first => absent (List.mem_of_head? first)

/-- The list with another count. -/
def recount (list : LinkedList ν α) (count : UInt32) : LinkedList ν α :=
    { list with count := count }

@[simp] theorem ahead_recount (list : LinkedList ν α) (count : UInt32) (spot : Option ν) :
    (list.recount count).ahead spot = list.ahead spot := by
  cases spot <;> rfl

@[simp] theorem behind_recount (list : LinkedList ν α) (count : UInt32) (spot : Option ν) :
    (list.recount count).behind spot = list.behind spot := by
  cases spot <;> rfl

@[simp] theorem contents_recount (list : LinkedList ν α) (count : UInt32) :
    (list.recount count).contents = list.contents := rfl

@[simp] theorem count_recount (list : LinkedList ν α) (count : UInt32) :
    (list.recount count).count = count := rfl

variable [DecidableEq ν]

/-- Makes an element, or the head, point ahead. -/
def pointAhead (list : LinkedList ν α) : Option ν → Option ν → LinkedList ν α
  | none, next => { list with first := next }
  | some addr, next => list.setNext addr next

/-- Makes an element, or the head, point back. -/
def pointBehind (list : LinkedList ν α) : Option ν → Option ν → LinkedList ν α
  | none, prev => { list with last := prev }
  | some addr, prev => list.setPrev addr prev

@[simp] theorem ahead_pointAhead (list : LinkedList ν α) (spot next other : Option ν) :
    (list.pointAhead spot next).ahead other = if other = spot then next else list.ahead other := by
  cases spot <;> cases other <;> simp [pointAhead, setNext, ahead, Function.update_apply]
  split <;> simp_all

@[simp] theorem behind_pointAhead (list : LinkedList ν α) (spot next other : Option ν) :
    (list.pointAhead spot next).behind other = list.behind other := by
  cases spot <;> cases other <;> simp [pointAhead, setNext, behind, Function.update_apply]
  split <;> simp_all

@[simp] theorem ahead_pointBehind (list : LinkedList ν α) (spot prev other : Option ν) :
    (list.pointBehind spot prev).ahead other = list.ahead other := by
  cases spot <;> cases other <;> simp [pointBehind, setPrev, ahead, Function.update_apply]
  split <;> simp_all

@[simp] theorem behind_pointBehind (list : LinkedList ν α) (spot prev other : Option ν) :
    (list.pointBehind spot prev).behind other =
      if other = spot then prev else list.behind other := by
  cases spot <;> cases other <;> simp [pointBehind, setPrev, behind, Function.update_apply]
  split <;> simp_all

@[simp] theorem contents_pointAhead (list : LinkedList ν α) (spot next : Option ν) :
    (list.pointAhead spot next).contents = list.contents := by
  funext addr
  cases spot <;> simp [pointAhead, setNext, contents, Function.update_apply]
  split <;> simp_all

@[simp] theorem contents_pointBehind (list : LinkedList ν α) (spot prev : Option ν) :
    (list.pointBehind spot prev).contents = list.contents := by
  funext addr
  cases spot <;> simp [pointBehind, setPrev, contents, Function.update_apply]
  split <;> simp_all

@[simp] theorem count_pointAhead (list : LinkedList ν α) (spot next : Option ν) :
    (list.pointAhead spot next).count = list.count := by
  cases spot <;> rfl

@[simp] theorem count_pointBehind (list : LinkedList ν α) (spot prev : Option ν) :
    (list.pointBehind spot prev).count = list.count := by
  cases spot <;> rfl

/-- An element is put between two that point at each other, and nothing else changes. -/
structure Spliced (list : LinkedList ν α) (prev : Option ν) (elm : ν) (next : Option ν)
    (grown : LinkedList ν α) : Prop where
  ahead : ∀ spot, grown.ahead spot =
    if spot = prev then some elm else if spot = some elm then next else list.ahead spot
  behind : ∀ spot, grown.behind spot =
    if spot = next then some elm else if spot = some elm then prev else list.behind spot
  count : grown.count = list.count + 1
  contents : grown.contents = list.contents

/-- The writes of an insertion that follows the backward link first. -/
theorem spliced_behind_ahead (list : LinkedList ν α) (prev next : Option ν) (elm : ν) :
    list.Spliced prev elm next
      (((((list.pointAhead (some elm) next).pointBehind (some elm) prev).pointBehind next
        (some elm)).pointAhead prev (some elm)).recount (list.count + 1)) := by
  constructor <;> simp

/-- The writes of an insertion that follows the forward link first. -/
theorem spliced_ahead_behind (list : LinkedList ν α) (prev next : Option ν) (elm : ν) :
    list.Spliced prev elm next
      (((((list.pointAhead (some elm) next).pointBehind (some elm) prev).pointAhead prev
        (some elm)).pointBehind next (some elm)).recount (list.count + 1)) := by
  constructor <;> simp

/-- Insertion behind an element puts the new one between it and what lay ahead of it. -/
theorem insertAfter_spliced {list : LinkedList ν α} {listelm elm : ν} {next : Option ν}
    (forth : list.ahead (some listelm) = next) (here : listelm ≠ elm) :
    list.Spliced (some listelm) elm next (list.insertAfter listelm elm) := by
  -- The four writes of the source, in its order, are two pairs of links and the count.
  have shape : list.insertAfter listelm elm =
      ((((list.pointAhead (some elm) next).pointBehind (some elm) (some listelm)).pointBehind next
        (some elm)).pointAhead (some listelm) (some elm)).recount (list.count + 1) := by
    cases next <;>
      simp_all [insertAfter, ahead, pointAhead, pointBehind, recount, setNext, setPrev]
  rw [shape]
  exact list.spliced_behind_ahead (some listelm) next elm

/-- Insertion in front of an element puts the new one between it and what lay behind it. -/
theorem insertBefore_spliced {list : LinkedList ν α} {listelm elm : ν} {prev : Option ν}
    (back : list.behind (some listelm) = prev) (here : listelm ≠ elm) :
    list.Spliced prev elm (some listelm) (list.insertBefore listelm elm) := by
  -- As behind an element, with the sides exchanged.
  have shape : list.insertBefore listelm elm =
      ((((list.pointAhead (some elm) (some listelm)).pointBehind (some elm) prev).pointAhead prev
        (some elm)).pointBehind (some listelm) (some elm)).recount (list.count + 1) := by
    cases prev <;>
      simp_all [insertBefore, behind, pointAhead, pointBehind, recount, setNext, setPrev]
  rw [shape]
  exact list.spliced_ahead_behind prev (some listelm) elm

/-- Insertion at the head puts the new element between the head and the first one. -/
theorem insertHead_spliced {list : LinkedList ν α} {elm : ν} {next : Option ν}
    (forth : list.ahead none = next) (ends : list.behind none = none ↔ next = none) :
    list.Spliced none elm next (list.insertHead elm) := by
  -- The head takes the place of the element that is inserted behind.
  have shape : list.insertHead elm =
      ((((list.pointAhead (some elm) next).pointBehind (some elm) none).pointBehind next
        (some elm)).pointAhead none (some elm)).recount (list.count + 1) := by
    cases next <;> rcases last : list.last with _ | tail <;>
      simp_all [insertHead, ahead, behind, pointAhead, pointBehind, recount, setNext, setPrev]
  rw [shape]
  exact list.spliced_behind_ahead none next elm

/-- Insertion at the tail puts the new element between the last one and the head. -/
theorem insertTail_spliced {list : LinkedList ν α} {elm : ν} {prev : Option ν}
    (back : list.behind none = prev) (ends : list.ahead none = none ↔ prev = none) :
    list.Spliced prev elm none (list.insertTail elm) := by
  -- The head takes the place of the element that is inserted in front of.
  have shape : list.insertTail elm =
      ((((list.pointAhead (some elm) none).pointBehind (some elm) prev).pointAhead prev
        (some elm)).pointBehind none (some elm)).recount (list.count + 1) := by
    cases prev <;> rcases first : list.first with _ | head <;>
      simp_all [insertTail, ahead, behind, pointAhead, pointBehind, recount, setNext, setPrev]
  rw [shape]
  exact list.spliced_ahead_behind prev none elm

/-- Splicing an element into a cut of the chain makes it an element of the chain there. -/
theorem Chain.splice {list grown : LinkedList ν α} {front rest : List ν} {elm : ν}
    (chain : list.Chain (front ++ rest)) (fresh : elm ∉ front ++ rest)
    (spliced : list.Spliced front.getLast? elm rest.head? grown) :
    grown.Chain (front ++ elm :: rest) := by
  -- Every cut of the grown chain lies at the new element, or away from it on either side.
  have offFront : elm ∉ front := fun member => fresh (List.mem_append_left rest member)
  have offRest : elm ∉ rest := fun member => fresh (List.mem_append_right front member)
  have nodup := chain.nodup
  constructor
  · exact (List.perm_middle.nodup_iff).mpr (List.nodup_cons.mpr ⟨fresh, nodup⟩)
  · intro left right cut
    rw [spliced.ahead, spliced.behind]
    rcases List.append_eq_append_iff.mp cut with ⟨middle, rfl, tail⟩ | ⟨middle, rfl, rfl⟩
    · cases middle with
      | nil =>
        -- The cut lies right in front of the new element.
        obtain rfl : elm :: rest = right := tail
        simp [Ne.symm (head?_ne_of_notMem offRest)]
      | cons first middle =>
        obtain ⟨rfl, rfl⟩ : elm = first ∧ rest = middle ++ right := by simpa using tail
        rcases eq_or_ne middle [] with rfl | more
        · -- The cut lies right behind the new element.
          simp [Ne.symm (getLast?_ne_of_notMem offFront)]
        · -- The cut lies further on, where the old links are.
          have old := chain.joined (front ++ middle) right (by simp)
          have onward := getLast?_ne_append (by grind : (front ++ middle).Nodup) more
          have later := head?_ne_append (by grind : (middle ++ right).Nodup) more
          have ends := getLast?_append_cons front elm more
          have notElm := getLast?_ne_of_notMem (by grind : elm ∉ front ++ middle)
          have notHere := head?_ne_of_notMem (by grind : elm ∉ right)
          rw [ends, if_neg onward.symm, if_neg notElm, if_neg later, if_neg notHere]
          exact old
    · rcases eq_or_ne middle [] with rfl | more
      · simp [Ne.symm (head?_ne_of_notMem offRest)]
      · -- The cut lies before the new element, where the old links are.
        have old := chain.joined left (middle ++ rest) (by simp)
        have earlier := getLast?_ne_append (by grind : (left ++ middle).Nodup) more
        have before := head?_ne_append (by grind : (middle ++ rest).Nodup) more
        have starts := head?_append_cons elm rest more
        have notElm := getLast?_ne_of_notMem (by grind : elm ∉ left)
        have notHere := head?_ne_of_notMem (by grind : elm ∉ middle ++ rest)
        rw [starts, if_neg earlier, if_neg notElm, if_neg before.symm, if_neg notHere]
        exact old

/-- Removal makes the two neighbours of an element point at each other, and nothing else changes. -/
theorem remove_eq {list : LinkedList ν α} {elm : ν} {prev next : Option ν}
    (back : list.behind (some elm) = prev) (forth : list.ahead (some elm) = next)
    (apart : next ≠ some elm) :
    list.remove elm =
      ((list.pointBehind next prev).pointAhead prev next).recount (list.count - 1) := by
  cases next with
  | none =>
    cases prev <;>
      simp_all [LinkedList.remove, ahead, behind, pointAhead, pointBehind, recount, setNext]
  | some addr =>
    -- The first write leaves the links of the element itself, which are read again.
    have off : elm ≠ addr := fun same => apart (congrArg some same.symm)
    cases prev <;>
      simp_all [LinkedList.remove, ahead, behind, pointAhead, pointBehind, recount, setNext,
        setPrev]

/-- On a chain the neighbours are the last element in front and the first one behind. -/
theorem Chain.remove_eq {list : LinkedList ν α} {front rest : List ν} {elm : ν}
    (chain : list.Chain (front ++ elm :: rest)) :
    list.remove elm = ((list.pointBehind rest.head? front.getLast?).pointAhead front.getLast?
      rest.head?).recount (list.count - 1) := by
  have nodup := chain.nodup
  have back := (chain.joined front (elm :: rest) rfl).2
  have forth := (chain.joined (front ++ [elm]) rest (by simp)).1
  rw [List.getLast?_concat] at forth
  exact LinkedList.remove_eq back forth (head?_ne_of_notMem (by grind))

/-- Removal takes the element off the chain. -/
theorem Chain.remove {list : LinkedList ν α} {front rest : List ν} {elm : ν}
    (chain : list.Chain (front ++ elm :: rest)) : (list.remove elm).Chain (front ++ rest) := by
  -- A cut of the shorter chain lies where the element was, or away from it on either side.
  have nodup := chain.nodup
  rw [chain.remove_eq]
  constructor
  · exact (List.nodup_cons.mp ((List.perm_middle.nodup_iff).mp nodup)).2
  · intro left right cut
    simp only [ahead_recount, behind_recount, ahead_pointAhead, ahead_pointBehind,
      behind_pointAhead, behind_pointBehind]
    rcases List.append_eq_append_iff.mp cut with ⟨middle, rfl, rfl⟩ | ⟨middle, rfl, rfl⟩
    · rcases eq_or_ne middle [] with rfl | more
      · -- The cut lies where the element was.
        simp
      · -- The cut lies further on, where the links are the old ones.
        have old := chain.joined (front ++ elm :: middle) right (by simp)
        have onward := getLast?_ne_append (by grind : (front ++ middle).Nodup) more
        have later := head?_ne_append (by grind : (middle ++ right).Nodup) more
        rw [getLast?_append_cons front elm more] at old
        rw [if_neg onward.symm, if_neg later]
        exact old
    · rcases eq_or_ne middle [] with rfl | more
      · simp
      · -- The cut lies before, where the links are the old ones.
        have old := chain.joined left (middle ++ elm :: rest) (by simp)
        have earlier := getLast?_ne_append (by grind : (left ++ middle).Nodup) more
        have before := head?_ne_append (by grind : (middle ++ rest).Nodup) more
        rw [head?_append_cons elm rest more] at old
        rw [if_neg earlier, if_neg before.symm]
        exact old

end LinkedList
