import Mathlib.Data.List.Basic

/-! Event sources that a main loop dispatches, as far as they are registered with one key. -/

/-- The sources that are registered, each with an identifier that no source had before it. -/
structure Watches (κ : Type) where
  sources : List (Nat × κ)
  next : Nat
  fresh : ∀ source ∈ sources, source.1 < next
  nodup : (sources.map Prod.fst).Nodup
  deriving DecidableEq

namespace Watches

variable {κ : Type}

/-- No source is registered. -/
def empty : Watches κ :=
  { sources := [], next := 0, fresh := by simp, nodup := List.nodup_nil }

/-- Registers a source. -/
def add (watches : Watches κ) (kind : κ) : Watches κ where
  sources := watches.sources ++ [(watches.next, kind)]
  next := watches.next + 1
  fresh := by
    intro source member
    rcases List.mem_append.mp member with old | new
    · exact Nat.lt_succ_of_lt (watches.fresh source old)
    · rw [List.mem_singleton.mp new]
      exact Nat.lt_succ_self watches.next
  nodup := by
    rw [List.map_append]
    refine List.nodup_append.mpr ⟨watches.nodup, by simp, ?_⟩
    intro id old other new
    obtain ⟨source, member, rfl⟩ := List.mem_map.mp old
    have : other = watches.next := by simpa using new
    have := watches.fresh source member
    omega

/-- Removes sources by their key until none is left. -/
def clear (watches : Watches κ) : Watches κ :=
  { sources := [], next := watches.next, fresh := by simp, nodup := List.nodup_nil }

/-- Removes the source with an identifier, if it is still registered. -/
def remove (watches : Watches κ) (id : Nat) : Watches κ where
  sources := watches.sources.filter fun source => source.1 ≠ id
  next := watches.next
  fresh := fun source member => watches.fresh source (List.mem_of_mem_filter member)
  nodup := watches.nodup.sublist (List.filter_sublist.map Prod.fst)

/-- What the main loop makes of the value that the callback of a source has returned. -/
def settle (watches : Watches κ) (id : Nat) (stay : Bool) : Watches κ :=
  if stay then watches else watches.remove id

/-- The kind of the source with an identifier. -/
def kindOf (watches : Watches κ) (id : Nat) : Option κ :=
  (watches.sources.find? fun source => source.1 = id).map Prod.snd

variable [DecidableEq κ]

/-- How many sources of a kind are registered. -/
def count (watches : Watches κ) (kind : κ) : Nat :=
  watches.sources.countP fun source => source.2 = kind

@[simp] theorem count_empty (kind : κ) : (empty : Watches κ).count kind = 0 := rfl

@[simp] theorem count_clear (watches : Watches κ) (kind : κ) : watches.clear.count kind = 0 := rfl

@[simp] theorem count_add (watches : Watches κ) (kind other : κ) :
    (watches.add kind).count other = watches.count other + if kind = other then 1 else 0 := by
  simp [count, add, List.countP_append, List.countP_singleton]

omit [DecidableEq κ] in
/-- A source is one of those that are registered. -/
theorem mem_of_kindOf {watches : Watches κ} {id : Nat} {kind : κ}
    (found : watches.kindOf id = some kind) : (id, kind) ∈ watches.sources := by
  obtain ⟨source, here, rfl⟩ := Option.map_eq_some_iff.mp found
  have same : source.1 = id := by simpa using List.find?_some here
  have member := List.mem_of_find?_eq_some here
  rwa [← same]

omit [DecidableEq κ] in
/-- The identifier of a source was given out. -/
theorem lt_of_kindOf {watches : Watches κ} {id : Nat} {kind : κ}
    (found : watches.kindOf id = some kind) : id < watches.next :=
  watches.fresh (id, kind) (mem_of_kindOf found)

omit [DecidableEq κ] in
@[simp] theorem kindOf_clear (watches : Watches κ) (id : Nat) :
    watches.clear.kindOf id = none := rfl

omit [DecidableEq κ] in
/-- A new source takes none of the identifiers that were given out. -/
theorem kindOf_add {watches : Watches κ} {id : Nat} (given : id < watches.next) (kind : κ) :
    (watches.add kind).kindOf id = watches.kindOf id := by
  have other : ¬ watches.next = id := by omega
  simp [kindOf, add, List.find?_append, other]

omit [DecidableEq κ] in
/-- Removing a source gives no other source an identifier. -/
theorem kindOf_remove_none {watches : Watches κ} {id other : Nat}
    (absent : watches.kindOf other = none) : (watches.remove id).kindOf other = none := by
  have missing := List.find?_eq_none.mp (Option.map_eq_none_iff.mp absent)
  refine Option.map_eq_none_iff.mpr (List.find?_eq_none.mpr ?_)
  exact fun source member => missing source (List.mem_of_mem_filter member)

/-- Removing a source adds none of any kind. -/
theorem count_remove_le (watches : Watches κ) (id : Nat) (kind : κ) :
    (watches.remove id).count kind ≤ watches.count kind :=
  List.filter_sublist.countP_le

/-- Removing an identifier that no source has changes nothing. -/
theorem count_remove_absent {watches : Watches κ} {id : Nat}
    (absent : watches.kindOf id = none) (kind : κ) :
    (watches.remove id).count kind = watches.count kind := by
  have all : watches.sources.filter (fun source => source.1 ≠ id) = watches.sources := by
    refine List.filter_eq_self.mpr ?_
    have missing := Option.map_eq_none_iff.mp absent
    simpa using List.find?_eq_none.mp missing
  simp only [count, remove, all]

/-- Removing a source leaves one less of its kind and as many of every other. -/
theorem count_remove {watches : Watches κ} {id : Nat} {kind : κ}
    (found : watches.kindOf id = some kind) (other : κ) :
    watches.count other = (watches.remove id).count other + if kind = other then 1 else 0 := by
  obtain ⟨front, rest, split⟩ := List.append_of_mem (mem_of_kindOf found)
  have nodup := watches.nodup
  rw [split] at nodup
  -- The identifier occurs nowhere else, so the rest passes the filter.
  have apart : (front ++ rest).filter (fun source => source.1 ≠ id) = front ++ rest := by
    refine List.filter_eq_self.mpr ?_
    intro source member
    have : source.1 ∈ (front ++ rest).map Prod.fst := List.mem_map_of_mem member
    grind
  have left : (watches.remove id).sources = front ++ rest := by
    have kept : (watches.remove id).sources =
        watches.sources.filter fun source => source.1 ≠ id := rfl
    rw [kept, split, ← apart]
    simp
  rw [count, count, left, split]
  simp [List.countP_append, List.countP_cons, Nat.add_assoc]

end Watches
