import Mathlib.Order.Defs.LinearOrder
import Motmot.Types.Core

/-! The comparisons of identifiers and ballots are total orders. -/

namespace Motmot

@[simp] theorem paxidCompare_eq_lt {x y : Nat} : paxidCompare x y = .lt ↔ x < y := by
  unfold paxidCompare
  grind

@[simp] theorem paxidCompare_eq_gt {x y : Nat} : paxidCompare x y = .gt ↔ y < x := by
  unfold paxidCompare
  grind

@[simp] theorem paxidCompare_eq_eq {x y : Nat} : paxidCompare x y = .eq ↔ x = y := by
  unfold paxidCompare
  grind

/-- The comparison of identifiers is the usual one. -/
theorem paxidCompare_eq_compare (x y : Nat) : paxidCompare x y = compare x y := by
  -- The three results exclude each other and exhaust the cases.
  rcases Nat.lt_trichotomy x y with less | rfl | more
  · rw [paxidCompare_eq_lt.mpr less, Nat.compare_eq_lt.mpr less]
  · rw [paxidCompare_eq_eq.mpr rfl, Nat.compare_eq_eq.mpr rfl]
  · rw [paxidCompare_eq_gt.mpr more, Nat.compare_eq_gt.mpr more]

instance : Std.TransCmp paxidCompare := by
  have same : paxidCompare = compare := by
    funext x y
    exact paxidCompare_eq_compare x y
  rw [same]
  infer_instance

instance : Std.LawfulEqCmp paxidCompare := ⟨paxidCompare_eq_eq.mp⟩

/-- A pair lies below another in a lower generation, or in the same one with a higher identifier. -/
theorem ppairCompare_eq_lt {x y : PPair} :
    ppairCompare x y = .lt ↔ x.gen < y.gen ∨ x.gen = y.gen ∧ y.id < x.id := by
  unfold ppairCompare
  -- The identifiers decide only between equal generations.
  split
  · rename_i equal
    have := paxidCompare_eq_eq.mp equal
    simp only [paxidCompare_eq_lt]
    omega
  · rename_i differ
    have apart : ¬ x.gen = y.gen := mt paxidCompare_eq_eq.mpr differ
    rw [paxidCompare_eq_lt]
    omega

/-- A pair lies above another exactly when the other lies below it. -/
theorem ppairCompare_eq_gt {x y : PPair} :
    ppairCompare x y = .gt ↔ y.gen < x.gen ∨ y.gen = x.gen ∧ x.id < y.id := by
  unfold ppairCompare
  split
  · -- With the same generation the lower identifier is above.
    rename_i equal
    have := paxidCompare_eq_eq.mp equal
    simp only [paxidCompare_eq_gt]
    omega
  · -- Otherwise the generation decides.
    rename_i differ
    have apart : ¬ x.gen = y.gen := mt paxidCompare_eq_eq.mpr differ
    rw [paxidCompare_eq_gt]
    omega

@[simp] theorem ppairCompare_eq_eq {x y : PPair} : ppairCompare x y = .eq ↔ x = y := by
  -- The generations decide, and for equal ones the identifiers.
  obtain ⟨xid, xgen⟩ := x
  obtain ⟨yid, ygen⟩ := y
  unfold ppairCompare
  simp only [PPair.mk.injEq]
  split
  · rename_i equal
    have := paxidCompare_eq_eq.mp equal
    rw [paxidCompare_eq_eq]
    omega
  · rename_i differ
    have apart : ¬ xgen = ygen := mt paxidCompare_eq_eq.mpr differ
    simp only [paxidCompare_eq_eq]
    omega

/-- A comparison that is not less is equal or greater. -/
theorem ppairCompare_ne_lt {x y : PPair} :
    ppairCompare x y ≠ .lt ↔ x = y ∨ ppairCompare x y = .gt := by
  rw [← ppairCompare_eq_eq]
  cases ppairCompare x y <;> simp

instance : Std.OrientedCmp ppairCompare where
  eq_swap {x y} := by
    -- Both sides are settled by the same arithmetic on generations and identifiers.
    rcases result : ppairCompare y x with _ | _ | _
    · rw [Ordering.swap, ppairCompare_eq_gt]
      exact ppairCompare_eq_lt.mp result
    · rw [Ordering.swap, ppairCompare_eq_eq]
      exact (ppairCompare_eq_eq.mp result).symm
    · rw [Ordering.swap, ppairCompare_eq_lt]
      exact ppairCompare_eq_gt.mp result

instance : Std.TransCmp ppairCompare where
  isLE_trans {x y z} first second := by
    -- Not above is the same as below or equal, and both compose.
    have notGt : ∀ a b : PPair, (ppairCompare a b).isLE ↔
        a.gen < b.gen ∨ a.gen = b.gen ∧ b.id ≤ a.id := by
      intro a b
      simp only [Ordering.isLE_iff_ne_gt, ppairCompare_eq_gt]
      omega
    rw [notGt] at first second ⊢
    omega

instance : Std.LawfulEqCmp ppairCompare := ⟨ppairCompare_eq_eq.mp⟩

instance : Std.TransCmp reqidCompare := inferInstanceAs (Std.TransCmp ppairCompare)

instance : Std.LawfulEqCmp reqidCompare := inferInstanceAs (Std.LawfulEqCmp ppairCompare)

end Motmot
