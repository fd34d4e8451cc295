import Mathlib.Logic.Function.Basic
import Mathlib.Logic.Relation

/-!
A log that only grows, and readers that go through it in order.

A reader begins at some place, hears the entries from there on one after the other, and may go away.
Whatever readers have heard is what the log has at the places where they have heard it, so no two
of them ever disagree about a place.
-/

/-- A log, the place at which each reader goes on if it is attached, and what each has heard. -/
@[ext] structure Replicated (ι α : Type) where
  log : List α
  place : ι → Option Nat
  heard : ι → List (Nat × α)

namespace Replicated

variable {ι α : Type}

/-- An empty log that nobody reads. -/
def empty : Replicated ι α :=
  { log := [], place := fun _ => none, heard := fun _ => [] }

section Steps

variable [DecidableEq ι]

/-- What may happen to a log and its readers. -/
inductive Step (state : Replicated ι α) : Replicated ι α → Prop where
  | append (entry : α) : Step state { state with log := state.log ++ [entry] }
  /-- A reader that has heard nothing yet begins to read at some place. -/
  | attach {reader : ι} (away : state.place reader = none) (new : state.heard reader = [])
      (at_ : Nat) : Step state { state with place := Function.update state.place reader (some at_) }
  /-- A reader hears the entry at its place, and goes on behind it. -/
  | hear {reader : ι} {at_ : Nat} {entry : α} (stands : state.place reader = some at_)
      (holds : state.log[at_]? = some entry) :
      Step state
        { state with
          place := Function.update state.place reader (some (at_ + 1))
          heard := Function.update state.heard reader (state.heard reader ++ [(at_, entry)]) }
  /-- Readers that go away hear no more. -/
  | detach (stays : ι → Bool) :
      Step state
        { state with place := fun reader => if stays reader then state.place reader else none }

/-- What any number of steps leads to. -/
abbrev Steps : Replicated ι α → Replicated ι α → Prop := Relation.ReflTransGen Step

end Steps

/-- What readers have heard is what the log has. -/
def Faithful (state : Replicated ι α) : Prop :=
  ∀ reader at_ entry, (at_, entry) ∈ state.heard reader → state.log[at_]? = some entry

/-- Readers of one log hear the same at the same place. -/
theorem Faithful.agree {state : Replicated ι α} (faithful : state.Faithful) {reader other : ι}
    {at_ : Nat} {entry another : α} (heard : (at_, entry) ∈ state.heard reader)
    (also : (at_, another) ∈ state.heard other) : entry = another := by
  have first := faithful reader at_ entry heard
  rw [faithful other at_ another also] at first
  exact (Option.some.inj first).symm

/-- The entries that a log has from a place on, with their places, up to another place. -/
inductive Reads (log : List α) : Nat → List (Nat × α) → Nat → Prop where
  | done (at_ : Nat) : Reads log at_ [] at_
  | read {at_ last : Nat} {entry : α} {rest : List (Nat × α)}
      (holds : log[at_]? = some entry) (reads : Reads log (at_ + 1) rest last) :
      Reads log at_ ((at_, entry) :: rest) last

/-- What is read in order is a stretch of the log. -/
theorem Reads.stretch {log : List α} {at_ last : Nat} {entries : List (Nat × α)}
    (reads : Reads log at_ entries last) :
    entries.map Prod.snd = (log.drop at_).take (last - at_) ∧ last = at_ + entries.length := by
  -- By induction on what is read: the log is cut at the place of the reader.
  induction reads with
  | done => simp
  | @read at_ last entry rest holds _ ih =>
    obtain ⟨same, size⟩ := ih
    obtain ⟨inside, rfl⟩ := List.getElem?_eq_some_iff.mp holds
    have count : last - at_ = last - (at_ + 1) + 1 := by omega
    refine ⟨?_, by rw [size, List.length_cons]; omega⟩
    rw [List.map_cons, same, count, ← List.getElem_cons_drop inside, List.take_succ_cons]

/-- What is read in order may be followed by another entry. -/
theorem Reads.snoc {log : List α} {at_ last : Nat} {entries : List (Nat × α)} {entry : α}
    (reads : Reads log at_ entries last) (holds : log[last]? = some entry) :
    Reads log at_ (entries ++ [(last, entry)]) (last + 1) := by
  induction reads with
  | done => exact .read holds (.done _)
  | read held _ ih => exact .read held (ih holds)

/-- What is read in order is read in a longer log as well. -/
theorem Reads.append {log : List α} {at_ last : Nat} {entries : List (Nat × α)}
    (reads : Reads log at_ entries last) (more : List α) :
    Reads (log ++ more) at_ entries last := by
  -- An entry that is in the log is at the same place in the longer one.
  induction reads with
  | done => exact .done _
  | read holds _ ih =>
    refine .read ?_ ih
    rw [List.getElem?_append_left (List.getElem?_eq_some_iff.mp holds).1]
    exact holds

/-- Every reader has heard one stretch of the log in order, up to where it stands. -/
def Orderly (state : Replicated ι α) : Prop :=
  ∀ reader, ∃ first last, Reads state.log first (state.heard reader) last ∧
    ∀ at_, state.place reader = some at_ → at_ = last

variable [DecidableEq ι] {state next : Replicated ι α}

/-- A step only adds to the log, and to what a reader has heard. -/
theorem Step.grows (step : Step state next) : state.log <+: next.log ∧
    ∀ reader, state.heard reader <+: next.heard reader := by
  cases step with
  | append entry => exact ⟨List.prefix_append _ _, fun _ => List.prefix_rfl⟩
  | attach => exact ⟨List.prefix_rfl, fun _ => List.prefix_rfl⟩
  | @hear reader =>
    refine ⟨List.prefix_rfl, fun other => ?_⟩
    -- Only the reader that hears has heard more.
    by_cases same : other = reader
    · subst same
      simp only [Function.update_self]
      exact List.prefix_append _ _
    · simp only [Function.update_of_ne same]
      exact List.prefix_rfl
  | detach => exact ⟨List.prefix_rfl, fun _ => List.prefix_rfl⟩

/-- A step keeps what readers have heard faithful. -/
theorem Step.faithful (step : Step state next) (faithful : state.Faithful) : next.Faithful := by
  intro other place entry heard
  -- The log grows at its end, so what was read of it is still there.
  cases step with
  | append =>
    have held := faithful other place entry heard
    show (state.log ++ _)[place]? = _
    rw [List.getElem?_append_left (List.getElem?_eq_some_iff.mp held).1]
    exact held
  | attach => exact faithful other place entry heard
  | @hear reader _ _ _ holds =>
    by_cases same : other = reader
    · subst same
      simp only [Function.update_self, List.mem_append, List.mem_singleton] at heard
      rcases heard with before | new
      · exact faithful other place entry before
      · obtain ⟨rfl, rfl⟩ := Prod.mk.inj new
        exact holds
    · simp only [Function.update_of_ne same] at heard
      exact faithful other place entry heard
  | detach => exact faithful other place entry heard

/-- A step lets every reader read on in order. -/
theorem Step.orderly (step : Step state next) (orderly : state.Orderly) : next.Orderly := by
  -- A reader that has gone stands nowhere, so only the others have to stand where they have read
  -- to.
  intro other
  obtain ⟨first, last, reads, stands⟩ := orderly other
  cases step with
  | append entry => exact ⟨first, last, reads.append [entry], stands⟩
  | @attach reader away new at_ =>
    by_cases same : other = reader
    · -- Nothing was heard, so the stretch begins where the reader does.
      subst same
      refine ⟨at_, at_, ?_, fun place held => ?_⟩
      · show Reads state.log at_ (state.heard other) at_
        rw [new]
        exact .done at_
      · simp only [Function.update_self] at held
        exact (Option.some.inj held).symm
    · refine ⟨first, last, reads, fun place held => stands place ?_⟩
      simpa only [Function.update_of_ne same] using held
  | @hear reader at_ entry held holds =>
    by_cases same : other = reader
    · -- The reader stands at the entry behind the one that it has just heard.
      subst same
      obtain rfl := stands at_ held
      refine ⟨first, at_ + 1, ?_, fun place held => ?_⟩
      · simp only [Function.update_self]
        exact reads.snoc holds
      · simp only [Function.update_self] at held
        exact (Option.some.inj held).symm
    · refine ⟨first, last, ?_, fun place held => stands place ?_⟩
      · simpa only [Function.update_of_ne same] using reads
      · simpa only [Function.update_of_ne same] using held
  | detach stays =>
    refine ⟨first, last, reads, fun place held => ?_⟩
    have held : (if stays other then state.place other else none) = some place := held
    split at held
    · exact stands place held
    · contradiction

/-- Whatever happens, every reader reads in order. -/
theorem Steps.orderly (steps : Steps state next) (orderly : state.Orderly) : next.Orderly := by
  induction steps with
  | refl => exact orderly
  | tail _ step ih => exact step.orderly ih

/-- Whatever happens, what readers have heard stays faithful. -/
theorem Steps.faithful (steps : Steps state next) (faithful : state.Faithful) :
    next.Faithful := by
  induction steps with
  | refl => exact faithful
  | tail _ step ih => exact step.faithful ih

/-- Whatever happens, only more is logged and heard. -/
theorem Steps.grows (steps : Steps state next) : state.log <+: next.log ∧
    ∀ reader, state.heard reader <+: next.heard reader := by
  induction steps with
  | refl => exact ⟨List.prefix_rfl, fun _ => List.prefix_rfl⟩
  | tail _ step ih =>
    obtain ⟨log, heard⟩ := step.grows
    exact ⟨ih.1.trans log, fun reader => (ih.2 reader).trans (heard reader)⟩

/-- Entries may be logged one after the other. -/
theorem Steps.append (state : Replicated ι α) (entries : List α) :
    Steps state { state with log := state.log ++ entries } := by
  -- By induction on the entries.
  induction entries generalizing state with
  | nil =>
    rw [List.append_nil]
  | cons entry entries ih =>
    have rest := ih { state with log := state.log ++ [entry] }
    rw [List.append_assoc] at rest
    exact .head (.append entry) rest

/-- A reader may hear entries one after the other. -/
theorem Steps.reads {reader : ι} {at_ last : Nat} {entries : List (Nat × α)}
    (stands : state.place reader = some at_) (reads : Reads state.log at_ entries last) :
    Steps state
      { state with
        place := Function.update state.place reader (some last)
        heard := Function.update state.heard reader (state.heard reader ++ entries) } := by
  -- By induction on what is read, one entry after the other.
  generalize same : state.log = log at reads
  induction reads generalizing state with
  | done at_ =>
    subst same
    rw [List.append_nil, ← stands, Function.update_eq_self, Function.update_eq_self]
  | @read at_ last entry rest holds reads ih =>
    subst same
    refine .head (.hear stands holds) ?_
    have goes := @ih
      { state with
        place := Function.update state.place reader (some (at_ + 1))
        heard := Function.update state.heard reader (state.heard reader ++ [(at_, entry)]) }
      (Function.update_self _ _ _) rfl
    simpa only [Function.update_idem, Function.update_self, List.append_assoc,
      List.singleton_append] using goes

/-- Readers may go away while nothing else happens. -/
theorem Steps.detached (log : next.log = state.log)
    (place : ∀ reader, next.place reader = state.place reader ∨ next.place reader = none)
    (heard : ∀ reader, next.heard reader = state.heard reader) : Steps state next := by
  -- Whoever stands somewhere afterwards stood there before.
  have same : next =
      { state with
        place := fun reader =>
          if (next.place reader).isSome then state.place reader else none } := by
    refine Replicated.ext log (funext fun reader => ?_) (funext heard)
    show next.place reader = if _ then _ else _
    rcases place reader with stays | gone
    · cases held : state.place reader <;> simp [stays, held]
    · simp [gone]
  rw [same]
  exact .single (.detach _)

/-- A reader may come, and be gone again. -/
theorem Steps.attached (reader : ι) (at_ : Nat) (away : state.place reader = none)
    (new : state.heard reader = []) (log : next.log = state.log)
    (own : next.place reader = some at_ ∨ next.place reader = none)
    (others : ∀ other, other ≠ reader → next.place other = state.place other)
    (heard : ∀ reader, next.heard reader = state.heard reader) : Steps state next := by
  -- The reader is attached first; every other reader is where it was before.
  refine .head (.attach away new at_) (Steps.detached log (fun other => ?_) heard)
  show _ = Function.update state.place reader (some at_) other ∨ _
  by_cases same : other = reader
  · subst same
    rw [Function.update_self]
    exact own
  · rw [Function.update_of_ne same]
    exact Or.inl (others other same)

/-- A reader may read on in a log that has grown, and be gone then. -/
theorem Steps.advanced (reader : ι) {at_ last : Nat} {more : List α}
    {entries : List (Nat × α)} (stands : state.place reader = some at_)
    (reads : Reads (state.log ++ more) at_ entries last) (log : next.log = state.log ++ more)
    (own : next.place reader = some last ∨ next.place reader = none)
    (hears : next.heard reader = state.heard reader ++ entries)
    (others : ∀ other, other ≠ reader →
      next.place other = state.place other ∧ next.heard other = state.heard other) :
    Steps state next := by
  -- The log grows first, then the reader reads on, and at last readers may go away.
  have grown := Steps.append state more
  have read := @Steps.reads _ _ _ { state with log := state.log ++ more } _ _ _ _ stands reads
  refine (grown.trans read).trans (Steps.detached log (fun other => ?_) fun other => ?_)
  · show _ = Function.update state.place reader (some last) other ∨ _
    by_cases same : other = reader
    · subst same
      rw [Function.update_self]
      exact own
    · rw [Function.update_of_ne same]
      exact Or.inl (others other same).1
  · show _ = Function.update state.heard reader (state.heard reader ++ entries) other
    by_cases same : other = reader
    · subst same
      rw [Function.update_self]
      exact hears
    · rw [Function.update_of_ne same]
      exact (others other same).2

end Replicated
