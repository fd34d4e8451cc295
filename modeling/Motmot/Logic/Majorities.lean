import Mathlib.Data.Finset.Card

/-!
Majorities of a membership that changes by one member at a time.

A majority before such a change and a majority after it have a member in common.
-/

namespace Majorities

variable {α : Type} {members more votes others : Finset α}

/-- Votes that come from members, and from more than half of them. -/
structure Majority (members votes : Finset α) : Prop where
  within : votes ⊆ members
  most : members.card < 2 * votes.card

/-- A membership that has all members of another one, and one more at most. -/
structure Extended (members more : Finset α) : Prop where
  within : members ⊆ more
  single : more.card ≤ members.card + 1

/-- Nobody has entered. -/
theorem Extended.refl (members : Finset α) : Extended members members where
  within := fun _ => id
  single := Nat.le_succ _

variable [DecidableEq α]

/-- Somebody enters, who may have been a member before. -/
theorem Extended.insert (member : α) (members : Finset α) :
    Extended members (insert member members) where
  within := Finset.subset_insert member members
  single := Finset.card_insert_le member members

/-- Somebody is struck, who need not have been a member. -/
theorem Extended.erase (member : α) (members : Finset α) :
    Extended (members.erase member) members where
  within := Finset.erase_subset member members
  single := by
    have less := @Finset.pred_card_le_card_erase α members member _
    omega

/-- A majority of a membership meets a majority of the membership that extends it. -/
theorem Extended.meets (extended : Extended members more) (first : Majority members votes)
    (last : Majority more others) : ∃ member ∈ votes, member ∈ others := by
  -- Both majorities are of the larger membership, where they do not fit beside each other.
  have single := extended.single
  have most := first.most
  have also := last.most
  have meet : (votes ∩ others).Nonempty := by
    apply Finset.inter_nonempty_of_card_lt_card_add_card (first.within.trans extended.within)
      last.within
    omega
  obtain ⟨member, mem⟩ := meet
  exact ⟨member, Finset.mem_inter.mp mem⟩

/-- One of two memberships extends the other. -/
def Neighbours (members more : Finset α) : Prop := Extended members more ∨ Extended more members

/-- Majorities of neighbouring memberships meet. -/
theorem Neighbours.meet (near : Neighbours members more) (first : Majority members votes)
    (last : Majority more others) : ∃ member ∈ votes, member ∈ others := by
  rcases near with grown | shrunk
  · exact grown.meets first last
  · obtain ⟨member, mem, also⟩ := shrunk.meets last first
    exact ⟨member, also, mem⟩

end Majorities
