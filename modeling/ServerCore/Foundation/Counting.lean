import Mathlib.Algebra.BigOperators.Group.Finset.Piecewise
import Mathlib.Data.Fintype.Card
import Mathlib.Tactic.Ring

/-!
# Counting the members of a family

A family of finitely many members changes one member at a time. How many of them have a property
then changes by what that member gains or loses.
-/

namespace ServerCore.Foundation

variable {ι β : Type*} [Fintype ι]

/-- The number of members with a property. -/
def count (property : β → Prop) [DecidablePred property] (family : ι → β) : ℕ :=
  (Finset.univ.filter fun i ↦ property (family i)).card

variable {property : β → Prop} [DecidablePred property] {family after : ι → β}

theorem count_eq_sum (property : β → Prop) [DecidablePred property] (family : ι → β) :
    count property family = ∑ i, if property (family i) then 1 else 0 :=
  Finset.card_filter _ _

theorem count_congr (h : ∀ i, property (after i) ↔ property (family i)) :
    count property after = count property family := by
  unfold count
  congr 1
  apply Finset.filter_congr
  intro i _
  exact h i

theorem count_eq_zero (h : ∀ i, ¬ property (family i)) : count property family = 0 := by
  unfold count
  rw [Finset.filter_eq_empty_iff.mpr (fun i _ ↦ h i), Finset.card_empty]

theorem count_mono {weaker : β → Prop} [DecidablePred weaker]
    (h : ∀ i, property (family i) → weaker (family i)) :
    count property family ≤ count weaker family := by
  apply Finset.card_le_card
  apply Finset.monotone_filter_right
  exact fun i _ ↦ h i

theorem count_pos {i : ι} (hi : property (family i)) : 0 < count property family :=
  Finset.card_pos.mpr ⟨i, Finset.mem_filter.mpr ⟨Finset.mem_univ i, hi⟩⟩

/-- At most one member has the property if fewer than two are counted. -/
theorem eq_of_count (hcount : count property family ≤ 1) {i j : ι} (hi : property (family i))
    (hj : property (family j)) : i = j :=
  Finset.card_le_one.mp hcount i (Finset.mem_filter.mpr ⟨Finset.mem_univ i, hi⟩) j
    (Finset.mem_filter.mpr ⟨Finset.mem_univ j, hj⟩)

/-- One member changes. -/
theorem count_update [DecidableEq ι] (property : β → Prop) [DecidablePred property]
    (family : ι → β) (i : ι) (value : β) :
    count property (Function.update family i value) + (if property (family i) then 1 else 0) =
      count property family + (if property value then 1 else 0) := by
  have hrest :
      ∑ j ∈ Finset.univ.erase i, (if property (Function.update family i value j) then 1 else 0) =
        ∑ j ∈ Finset.univ.erase i, (if property (family j) then 1 else 0) := by
    apply Finset.sum_congr rfl
    intro j hj
    rw [Function.update_of_ne (Finset.ne_of_mem_erase hj)]
  calc
    _ = (if property value then 1 else 0) +
        ∑ j ∈ Finset.univ.erase i, (if property (family j) then 1 else 0) +
          (if property (family i) then 1 else 0) := by
      rw [count_eq_sum, ← Finset.add_sum_erase _ _ (Finset.mem_univ i), Function.update_self, hrest]
    _ = ((if property (family i) then 1 else 0) +
        ∑ j ∈ Finset.univ.erase i, (if property (family j) then 1 else 0)) +
          (if property value then 1 else 0) := by
      ring
    _ = _ := by
      rw [Finset.add_sum_erase _ (fun j ↦ if property (family j) then 1 else 0)
        (Finset.mem_univ i), ← count_eq_sum]

end ServerCore.Foundation
