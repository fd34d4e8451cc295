import Mathlib.Data.List.Basic
import Mathlib.Order.Compare

/-! Scans and insertions over keyed lists, written in either direction with an early exit. -/

namespace SortedList

variable {α κ : Type}

/-- A forward scan stops at the first element whose key lies past the one sought. -/
def findFwd (cmp : κ → κ → Ordering) (key : α → κ) (id : κ) : List α → Option α
  | [] => none
  | elt :: rest =>
    match cmp id (key elt) with
    | .eq => some elt
    | .lt => none
    | .gt => findFwd cmp key id rest

/-- The scan of a list handed over last element first. -/
def findDown (cmp : κ → κ → Ordering) (key : α → κ) (id : κ) : List α → Option α
  | [] => none
  | elt :: rest =>
    match cmp id (key elt) with
    | .eq => some elt
    | .gt => none
    | .lt => findDown cmp key id rest

/-- A reverse scan walks from the tail and stops at the first key below the one sought. -/
def findRev (cmp : κ → κ → Ordering) (key : α → κ) (id : κ) (list : List α) : Option α :=
  findDown cmp key id list.reverse

/-- A forward insertion goes in front of the first key above its own; `none` when it is taken. -/
def insertFwd (cmp : κ → κ → Ordering) (key : α → κ) (elt : α) : List α → Option (List α)
  | [] => some [elt]
  | head :: rest =>
    match cmp (key elt) (key head) with
    | .eq => none
    | .lt => some (elt :: head :: rest)
    | .gt => (insertFwd cmp key elt rest).map (head :: ·)

/-- Insertion into a list handed over last element first; `none` when the key is taken. -/
def insertDown (cmp : κ → κ → Ordering) (key : α → κ) (elt : α) : List α → Option (List α)
  | [] => some [elt]
  | head :: rest =>
    match cmp (key elt) (key head) with
    | .eq => none
    | .gt => some (elt :: head :: rest)
    | .lt => (insertDown cmp key elt rest).map (head :: ·)

/-- A reverse insertion places the element after the last key below its own. -/
def insertRev (cmp : κ → κ → Ordering) (key : α → κ) (elt : α) (list : List α) :
    Option (List α) :=
  (insertDown cmp key elt list.reverse).map List.reverse

end SortedList
