import Mathlib.Logic.Function.Basic

/-!
Contests: each position is held by one candidate at most, and a later candidate takes it over when
it beats the holder, unless the holder is settled.

Whatever the order in which the candidates of several positions come, a position ends up with one
that no other candidate for it beats.
-/

namespace Contest

variable {α ι : Type} [DecidableEq ι] (settled : α → Bool) (beats : α → α → Bool) (position : α → ι)

/-- Who holds a position once a candidate has come. -/
def outdo (held : Option α) (candidate : α) : α :=
  match held with
  | none => candidate
  | some holder => if !settled holder && beats candidate holder then candidate else holder

/-- Who holds each position once a candidate has come. -/
def run (board : ι → Option α) (candidate : α) : ι → Option α :=
  Function.update board (position candidate)
    (some (outdo settled beats (board (position candidate)) candidate))

/-- Who holds a position once all its candidates have come. -/
def hold (held : Option α) (candidates : List α) : Option α :=
  candidates.foldl (fun held candidate => some (outdo settled beats held candidate)) held

variable {settled beats position} {board : ι → Option α} {held : Option α} {candidates : List α}

/-- The candidates of other positions leave a position alone. -/
theorem foldl_run (i : ι) : candidates.foldl (run settled beats position) board i =
    hold settled beats (board i) (candidates.filter fun candidate => position candidate = i) := by
  induction candidates generalizing board with
  | nil => rfl
  | cons candidate candidates ih =>
    rw [List.foldl_cons, ih]
    by_cases same : position candidate = i
    · -- The candidate is one for this position.
      subst same
      simp [run, hold]
    · simp [run, same, Function.update_of_ne (Ne.symm same)]

/-- A settled holder stays. -/
theorem hold_settled {holder : α} (stays : settled holder = true) :
    hold settled beats (some holder) candidates = some holder := by
  -- By induction on the candidates: none of them outdoes the holder.
  induction candidates with
  | nil => rfl
  | cons candidate candidates ih =>
    have same : outdo settled beats (some holder) candidate = holder := by simp [outdo, stays]
    unfold hold at ih ⊢
    rw [List.foldl_cons, same]
    exact ih

/-- A position that nobody holds and nobody stands for stays vacant, and no other does. -/
theorem hold_eq_none : hold settled beats held candidates = none ↔ held = none ∧
    candidates = [] := by
  -- By induction on the candidates, with whoever holds the position so far.
  induction candidates generalizing held with
  | nil => simp [hold]
  | cons candidate candidates ih =>
    unfold hold at ih ⊢
    rw [List.foldl_cons, ih]
    simp

/-- Whoever holds a position held it before or stood for it. -/
theorem hold_mem {holder : α} (holds : hold settled beats held candidates = some holder) :
    held = some holder ∨ holder ∈ candidates := by
  induction candidates generalizing held with
  | nil => exact Or.inl holds
  | cons candidate candidates ih =>
    unfold hold at ih holds
    rw [List.foldl_cons] at holds
    rcases ih holds with now | later
    · -- The next holder is the one before or the candidate itself.
      simp only [Option.some.injEq] at now
      unfold outdo at now
      split at now
      · right
        simp [now]
      · split at now
        · right
          simp [now]
        · left
          rw [now]
    · right
      simp [later]

/-- Neither the holder before nor the candidate beats who holds an open position afterwards. -/
theorem outdo_unbeaten (asym : ∀ x y, beats x y = true → beats y x = false) {candidate : α}
    (free : ∀ holder, held = some holder → settled holder = false) :
    beats candidate (outdo settled beats held candidate) = false ∧
      ∀ holder, held = some holder → beats holder (outdo settled beats held candidate) = false := by
  -- Nobody beats itself.
  have irrefl : ∀ x, beats x x = false := by
    intro x
    by_contra wins
    have wins : beats x x = true := by simpa using wins
    simp [asym x x wins] at wins
  unfold outdo
  -- An open position goes to the candidate that beats its holder, and to the first where it is
  -- empty.
  cases held with
  | none => simp [irrefl]
  | some holder =>
    have open_ := free holder rfl
    cases wins : beats candidate holder with
    | true => simp [open_, wins, irrefl, asym candidate holder wins]
    | false => simp [wins, irrefl]

/-- Nobody beats who ends up with an open position, among those that held it or stood for it. -/
theorem hold_unbeaten (asym : ∀ x y, beats x y = true → beats y x = false)
    (weak : ∀ x y z, beats x z = true → beats x y = true ∨ beats y z = true)
    (free : ∀ holder, held = some holder → settled holder = false)
    (fresh : ∀ candidate ∈ candidates, settled candidate = false) {holder : α}
    (holds : hold settled beats held candidates = some holder) {other : α}
    (stood : held = some other ∨ other ∈ candidates) : beats other holder = false := by
  -- By induction on the candidates, each of which meets the best of those before it.
  induction candidates generalizing held other with
  | nil =>
    rcases stood with held_ | none
    · -- Without candidates the holder is the one before.
      obtain rfl : holder = other := Option.some.inj (holds.symm.trans held_)
      by_contra wins
      have wins : beats holder holder = true := by simpa using wins
      simp [asym holder holder wins] at wins
    · simp at none
  | cons candidate candidates ih =>
    obtain ⟨ours, theirs⟩ := @outdo_unbeaten _ _ _ held asym candidate free
    generalize now : outdo settled beats held candidate = next at ours theirs
    unfold hold at holds
    rw [List.foldl_cons, now] at holds
    have freed : ∀ holder, some next = some holder → settled holder = false := by
      rintro _ ⟨⟩
      unfold outdo at now
      split at now
      · rw [← now]
        exact fresh candidate List.mem_cons_self
      · rename_i holder
        split at now
        · rw [← now]
          exact fresh candidate List.mem_cons_self
        · rw [← now]
          exact free holder rfl
    have later : ∀ x, some next = some x ∨ x ∈ candidates → beats x holder = false := by
      intro x stood
      exact ih freed (fun x mem => fresh x (List.mem_cons_of_mem _ mem)) holds stood
    have kept : beats next holder = false := later next (Or.inl rfl)
    -- Whoever does not beat the next holder does not beat the last one either.
    have above : ∀ x, beats x next = false → beats x holder = false := by
      intro x not
      by_contra wins
      rcases weak x next holder (by simpa using wins) with first | second
      · simp [not] at first
      · simp [kept] at second
    rcases stood with held_ | stood
    · exact above other (theirs other held_)
    · rcases List.mem_cons.mp stood with rfl | stood
      · exact above other ours
      · exact later other (Or.inr stood)

end Contest
