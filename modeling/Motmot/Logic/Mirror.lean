import Mathlib.Data.List.Basic

/-! Two copies of a state, and the operations that are on their way from one to the other. -/

namespace Mirror

variable {σ μ : Type} (apply : μ → σ → σ)

/-- Applies operations in the order in which they are on their way. -/
def arrive (ops : List μ) (state : σ) : σ := ops.foldl (fun state op => apply op state) state

/-- It makes no difference whether an operation comes before or after those that it overtakes. -/
def Harmless (overtaken : List μ) (op : μ) (state : σ) : Prop :=
  arrive apply overtaken (apply op state) = apply op (arrive apply overtaken state)

instance [DecidableEq σ] (overtaken : List μ) (op : μ) (state : σ) :
    Decidable (Harmless apply overtaken op state) :=
  inferInstanceAs (Decidable (_ = _))

/-- Overtaking operations that it commutes with makes no difference. -/
theorem harmless_of_commute {overtaken : List μ} {op : μ}
    (commute : ∀ other ∈ overtaken, ∀ state,
      apply other (apply op state) = apply op (apply other state)) (state : σ) :
    Harmless apply overtaken op state := by
  -- By induction on what is overtaken: the operation is moved past one after the other.
  induction overtaken generalizing state with
  | nil => rfl
  | cons other overtaken ih =>
    have first := commute other (by simp) state
    have rest := ih (fun more mem => commute more (by simp [mem])) (apply other state)
    unfold Harmless arrive at *
    rw [List.foldl_cons, first, rest, List.foldl_cons]

/-- The copies are equal once everything that is on its way has arrived. -/
def Mirrors (left right : σ) (toRight toLeft : List μ) : Prop :=
  arrive apply toRight right = arrive apply toLeft left

variable {apply} {left right : σ} {toRight toLeft : List μ}

theorem Mirrors.symm (mirrors : Mirrors apply left right toRight toLeft) :
    Mirrors apply right left toLeft toRight := Eq.symm mirrors

/-- Copies that nothing is on its way to are equal. -/
theorem Mirrors.rest (mirrors : Mirrors apply left right [] []) : left = right := Eq.symm mirrors

/-- An operation starts at one copy, ahead of those that are on their way to it. -/
theorem Mirrors.start (mirrors : Mirrors apply left right toRight toLeft) {op : μ}
    (harmless : Harmless apply toLeft op left) :
    Mirrors apply (apply op left) right (toRight ++ [op]) toLeft := by
  unfold Mirrors Harmless arrive at *
  rw [List.foldl_append, harmless, mirrors]
  rfl

/-- An operation arrives at the other copy, ahead of those that have started before it. -/
theorem Mirrors.finish {front rest : List μ} {op : μ}
    (mirrors : Mirrors apply left right (front ++ op :: rest) toLeft)
    (harmless : Harmless apply front op right) :
    Mirrors apply left (apply op right) (front ++ rest) toLeft := by
  unfold Mirrors Harmless arrive at *
  rw [← mirrors, List.foldl_append, List.foldl_append, harmless]
  rfl

end Mirror
