import Mathlib.Logic.Function.Basic
import Motmot.Containers.SortedList

/-! Circular doubly linked lists, and the scans and insertions generated over them. -/

/-- An element as it lies in memory, with its link fields; the list head itself is `none`. -/
structure Entry (ν α : Type) where
  elt : α
  next : Option ν
  prev : Option ν

/-- A list head, together with the memory that holds the elements. -/
structure LinkedList (ν α : Type) where
  first : Option ν
  last : Option ν
  /-- The number of elements, kept in an `unsigned`. -/
  count : UInt32
  mem : ν → Entry ν α

namespace LinkedList

variable {ν α κ : Type} [DecidableEq ν]

/-- The contents of the element at an address. -/
def contents (list : LinkedList ν α) (addr : ν) : α := (list.mem addr).elt

/-- Writes the forward link of an element. -/
def setNext (list : LinkedList ν α) (addr : ν) (next : Option ν) : LinkedList ν α :=
  { list with mem := Function.update list.mem addr { list.mem addr with next := next } }

/-- Writes the backward link of an element. -/
def setPrev (list : LinkedList ν α) (addr : ν) (prev : Option ν) : LinkedList ν α :=
  { list with mem := Function.update list.mem addr { list.mem addr with prev := prev } }

/-- Initializes a list head, over memory in any state. -/
def init (mem : ν → Entry ν α) : LinkedList ν α :=
  { first := none, last := none, count := 0, mem := mem }

/-- Links an element behind another. -/
def insertAfter (list : LinkedList ν α) (listelm elm : ν) : LinkedList ν α :=
  let list := list.setNext elm (list.mem listelm).next
  let list := list.setPrev elm (some listelm)
  -- An element behind the last one is the last one from now on.
  let list := match (list.mem listelm).next with
    | none => { list with last := some elm }
    | some next => list.setPrev next (some elm)
  let list := list.setNext listelm (some elm)
  { list with count := list.count + 1 }

/-- Links an element in front of another. -/
def insertBefore (list : LinkedList ν α) (listelm elm : ν) : LinkedList ν α :=
  let list := list.setNext elm (some listelm)
  let list := list.setPrev elm (list.mem listelm).prev
  -- An element in front of the first one is the first one from now on.
  let list := match (list.mem listelm).prev with
    | none => { list with first := some elm }
    | some prev => list.setNext prev (some elm)
  let list := list.setPrev listelm (some elm)
  { list with count := list.count + 1 }

/-- Links an element at the head of a list. -/
def insertHead (list : LinkedList ν α) (elm : ν) : LinkedList ν α :=
  let list := list.setNext elm list.first
  let list := list.setPrev elm none
  -- The test reads one end and the write goes through the other; both are the head or neither is.
  let list := match list.last, list.first with
    | none, _ => { list with last := some elm }
    | some _, some first => list.setPrev first (some elm)
    | some _, none => list
  let list := { list with first := some elm }
  { list with count := list.count + 1 }

/-- Links an element at the tail of a list. -/
def insertTail (list : LinkedList ν α) (elm : ν) : LinkedList ν α :=
  let list := list.setNext elm none
  let list := list.setPrev elm list.last
  let list := match list.first, list.last with
    | none, _ => { list with first := some elm }
    | some _, some last => list.setNext last (some elm)
    | some _, none => list
  let list := { list with last := some elm }
  { list with count := list.count + 1 }

/-- Unlinks an element, whose own links stay as they are. -/
def remove (list : LinkedList ν α) (elm : ν) : LinkedList ν α :=
  -- The neighbours are linked to each other, or the head to one of them.
  let list := match (list.mem elm).next with
    | none => { list with last := (list.mem elm).prev }
    | some next => list.setPrev next (list.mem elm).prev
  let list := match (list.mem elm).prev with
    | none => { list with first := (list.mem elm).next }
    | some prev => list.setNext prev (list.mem elm).next
  { list with count := list.count - 1 }

/-- The direction of an iteration. -/
inductive Scan where
  | fwd | rev
  deriving DecidableEq, Repr

/-- Where an iteration starts. -/
def start (list : LinkedList ν α) : Scan → Option ν
  | .fwd => list.first
  | .rev => list.last

/-- Where an iteration goes on from an element. -/
def advance (list : LinkedList ν α) (it : ν) : Scan → Option ν
  | .fwd => (list.mem it).next
  | .rev => (list.mem it).prev

/-- Whether a comparison result tells a scan that it has gone past the key. -/
def Scan.past : Scan → Ordering → Bool
  | .fwd, cmp => cmp == .lt
  | .rev, cmp => cmp == .gt

/-- Insertion at the end of a scan. -/
def insertEnd (list : LinkedList ν α) (elm : ν) : Scan → LinkedList ν α
  | .fwd => list.insertTail elm
  | .rev => list.insertHead elm

/-- Insertion at the element at which a scan stops. -/
def insertRel (list : LinkedList ν α) (it elm : ν) : Scan → LinkedList ν α
  | .fwd => list.insertBefore it elm
  | .rev => list.insertAfter it elm

/-- What the lookup and the insertion of a container are generated from. -/
structure Factory (α κ : Type) where
  idField : α → κ
  compare : κ → κ → Ordering
  findDir : Scan
  insertDir : Scan

/-- The loop of a lookup; `none` when the scan has not ended within the fuel. -/
def findLoop (kind : Factory α κ) (list : LinkedList ν α) (id : κ) :
    Nat → Option ν → Option (Option ν)
  | 0, _ => none
  -- The iteration has come around to the head.
  | _ + 1, none => some none
  | fuel + 1, some it =>
    let cmp := kind.compare id (kind.idField (list.contents it))
    if cmp = .eq then some (some it)
    -- The list is ordered, so the keys to come are past this one as well.
    else if kind.findDir.past cmp then some none
    else findLoop kind list id fuel (list.advance it kind.findDir)

/-- Looks an element up by its key. -/
def find (kind : Factory α κ) (list : LinkedList ν α) (id : κ) (fuel : Nat) : Option (Option ν) :=
  if list.first = none then some none
  else findLoop kind list id fuel (list.start kind.findDir)

/-- The loop of an insertion; `none` when the scan has not ended within the fuel. -/
def insertLoop (kind : Factory α κ) (list : LinkedList ν α) (elt : ν) :
    Nat → Option ν → Option (ν × LinkedList ν α)
  | 0, _ => none
  -- No key was past the new one, so it goes to the end.
  | _ + 1, none => some (elt, list.insertEnd elt kind.insertDir)
  | fuel + 1, some it =>
    let cmp := kind.compare (kind.idField (list.contents elt)) (kind.idField (list.contents it))
    -- The key is taken, by the element that is returned.
    if cmp = .eq then some (it, list)
    else if kind.insertDir.past cmp then some (elt, list.insertRel it elt kind.insertDir)
    else insertLoop kind list elt fuel (list.advance it kind.insertDir)

/-- Inserts an element by its key, and returns the element that holds the key. -/
def insert (kind : Factory α κ) (list : LinkedList ν α) (elt : ν) (fuel : Nat) :
    Option (ν × LinkedList ν α) :=
  insertLoop kind list elt fuel (list.start kind.insertDir)

end LinkedList
