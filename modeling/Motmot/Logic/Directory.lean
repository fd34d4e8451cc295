import Mathlib.Logic.Function.Basic

/-!
Directories of members and of names: each member has one name at most, and each name leads to one
of the members that have it.

The two halves of a directory are written together, and stay consistent unless a member drops a
name that still leads to it, or a name is struck while another member has it.
-/

/-- The names that members have, and the member that each name leads to. -/
structure Directory (α κ : Type) where
  named : α → Option κ
  listed : κ → Option α

namespace Directory

variable {α κ : Type} [DecidableEq α] [DecidableEq κ] {d : Directory α κ} {member : α} {name : κ}

/-- Every name leads to a member that has it, and every name that a member has leads somewhere. -/
structure Consistent (d : Directory α κ) : Prop where
  listed : ∀ name member, d.listed name = some member → d.named member = some name
  known : ∀ member name, d.named member = some name → d.listed name ≠ none

/-- Gives a member a name, which leads to it from now on. -/
def login (d : Directory α κ) (member : α) (name : κ) : Directory α κ where
  named := Function.update d.named member (some name)
  listed := Function.update d.listed name (some member)

/-- Strikes a member, and the name that it had. -/
def logout (d : Directory α κ) (member : α) : Directory α κ :=
  match d.named member with
  | none => d
  | some name =>
    { named := Function.update d.named member none
      listed := Function.update d.listed name none }

/-- A login keeps a directory consistent unless another name still leads to the member. -/
theorem login_consistent (consistent : d.Consistent) :
    (d.login member name).Consistent ↔ ∀ other, d.listed other = some member → other = name := by
  constructor
  · intro kept other leads
    by_contra apart
    -- The other name leads to the member as before, which has the new name.
    have still : (d.login member name).listed other = some member := by
      simp only [login, Function.update_of_ne apart]
      exact leads
    have has := kept.listed other member still
    simp only [login, Function.update_self, Option.some.injEq] at has
    exact apart has.symm
  · intro only
    constructor
    · -- Names other than the new one lead where they did, which is not to the member.
      intro k other leads
      simp only [login, Function.update_apply] at leads ⊢
      split at leads
      · rename_i same
        rw [same]
        cases leads
        simp
      · rename_i apart
        split
        · rename_i same
          rw [same] at leads
          exact absurd (only k leads) apart
        · exact consistent.listed k other leads
    · intro other k has
      simp only [login, Function.update_apply] at has ⊢
      split
      · simp
      · rename_i apart
        split at has
        · cases has
          contradiction
        · exact consistent.known other k has

/-- A logout keeps a directory consistent unless another member has the name that is struck. -/
theorem logout_consistent (consistent : d.Consistent) :
    (d.logout member).Consistent ↔
      ∀ name, d.named member = some name → ∀ other, d.named other = some name → other = member := by
  -- A member without a name strikes nothing.
  unfold logout
  split
  · rename_i nameless
    simp only [nameless, reduceCtorEq, false_implies, implies_true, iff_true]
    exact consistent
  · rename_i name has
    simp only [has, Option.some.injEq, forall_eq']
    constructor
    · intro kept other too
      by_contra apart
      -- The other member keeps the name, which leads nowhere any more.
      have still : Function.update d.named member none other = some name := by
        rw [Function.update_of_ne apart]
        exact too
      apply kept.known other name still
      simp
    · intro only
      constructor
      · intro k other leads
        simp only [Function.update_apply] at leads ⊢
        split at leads
        · contradiction
        · rename_i apart
          have named := consistent.listed k other leads
          split
          · -- The member that is struck has no name but the one that is struck.
            rename_i same
            rw [same, has] at named
            cases named
            contradiction
          · exact named
      · intro other k named
        simp only [Function.update_apply] at named ⊢
        split at named
        · contradiction
        · rename_i apart
          split
          · rename_i same
            rw [same] at named
            exact absurd (only other named) apart
          · exact consistent.known other k named

end Directory
