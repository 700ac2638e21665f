import Mathlib.Logic.Function.Basic
import Mathlib.Tactic.Common

/-!
# Shared pointers

The control blocks of `std::shared_ptr`s. Each managed object has a count of the pointers to it, and
the release that brings the count to zero calls the deleter. `Counts` relates the blocks to a function
that says how many references to each object there are: if every reference is retained and released
as it comes and goes, an object is deleted once, and exactly when its last reference is gone.
-/

namespace ServerCore.Foundation

/-- `made` is the number of objects managed so far, and `deleted` what was passed to the deleter. -/
structure ControlBlocks where
  made : ℕ
  useCount : ℕ → ℕ
  deleted : List ℕ

namespace ControlBlocks

def initial : ControlBlocks := ⟨0, fun _ ↦ 0, []⟩

/-- The constructor from a raw pointer and a deleter. -/
def make (b : ControlBlocks) : ControlBlocks :=
  { b with made := b.made + 1, useCount := Function.update b.useCount b.made 1 }

/-- The copy of a pointer. -/
def retain (b : ControlBlocks) (x : ℕ) : ControlBlocks :=
  { b with useCount := Function.update b.useCount x (b.useCount x + 1) }

/-- The destructor of a pointer. -/
def release (b : ControlBlocks) (x : ℕ) : ControlBlocks :=
  { b with
    useCount := Function.update b.useCount x (b.useCount x - 1)
    deleted := if b.useCount x = 1 then x :: b.deleted else b.deleted }

/-- The counts are those of the references, and what has no reference left was deleted once. -/
structure Counts (b : ControlBlocks) (refs : ℕ → ℕ) : Prop where
  useCount : ∀ x, b.useCount x = refs x
  fresh : ∀ x, b.made ≤ x → refs x = 0
  deleted : ∀ x, b.deleted.count x = if x < b.made ∧ refs x = 0 then 1 else 0

variable {b : ControlBlocks} {refs after : ℕ → ℕ} {x : ℕ}

theorem counts_initial : initial.Counts fun _ ↦ 0 where
  useCount _ := rfl
  fresh _ _ := rfl
  deleted := by simp [initial]

theorem Counts.lt_made (hs : b.Counts refs) (hx : refs x ≠ 0) : x < b.made := by
  by_contra hge
  exact hx (hs.fresh x (by omega))

theorem Counts.make (hs : b.Counts refs)
    (hafter : ∀ y, after y = refs y + if b.made = y then 1 else 0) : b.make.Counts after := by
  have hnew := hs.fresh b.made (Nat.le_refl _)
  refine ⟨?_, ?_, ?_⟩
  · intro y
    rw [hafter]
    by_cases hy : b.made = y
    · simp [ControlBlocks.make, ← hy, hnew]
    · simp [ControlBlocks.make, Ne.symm hy, hy, hs.useCount y]
  · intro y hy
    have hy : b.made + 1 ≤ y := hy
    rw [hafter, hs.fresh y (by omega), if_neg (by omega)]
  · intro y
    change b.deleted.count y = if y < b.made + 1 ∧ after y = 0 then 1 else 0
    rw [hs.deleted, hafter]
    by_cases hy : b.made = y
    · simp [← hy]
    · have hlt : y < b.made + 1 ↔ y < b.made := by omega
      simp [hy, hlt]

theorem Counts.retain (hs : b.Counts refs) (hx : refs x ≠ 0)
    (hafter : ∀ y, after y = refs y + if x = y then 1 else 0) : (b.retain x).Counts after := by
  refine ⟨?_, ?_, ?_⟩
  · intro y
    rw [hafter]
    by_cases hy : x = y
    · simp [ControlBlocks.retain, ← hy, hs.useCount x]
    · simp [ControlBlocks.retain, Ne.symm hy, hy, hs.useCount y]
  · intro y hy
    have hlt := hs.lt_made hx
    have hy : b.made ≤ y := hy
    rw [hafter, hs.fresh y hy, if_neg (by omega)]
  · intro y
    change b.deleted.count y = if y < b.made ∧ after y = 0 then 1 else 0
    rw [hs.deleted, hafter]
    by_cases hy : x = y
    · simp [← hy, hx]
    · simp [hy]

theorem Counts.release (hs : b.Counts refs)
    (hafter : ∀ y, refs y = after y + if x = y then 1 else 0) : (b.release x).Counts after := by
  have hself := hafter x
  rw [if_pos rfl] at hself
  have hlt := hs.lt_made (x := x) (by omega)
  refine ⟨?_, ?_, ?_⟩
  · intro y
    by_cases hy : x = y
    · subst hy
      simp [ControlBlocks.release, hs.useCount x, hself]
    · have hother := hafter y
      rw [if_neg hy, Nat.add_zero] at hother
      simp [ControlBlocks.release, Ne.symm hy, hs.useCount y, hother]
  · intro y hy
    have hfresh := hs.fresh y hy
    have hother := hafter y
    omega
  · intro y
    have hother := hafter y
    change (if b.useCount x = 1 then x :: b.deleted else b.deleted).count y =
      if y < b.made ∧ after y = 0 then 1 else 0
    rw [hs.useCount]
    by_cases hy : x = y
    · subst hy
      have hdeleted := hs.deleted x
      rw [if_neg (by omega)] at hdeleted
      by_cases hlast : refs x = 1
      · rw [if_pos hlast, List.count_cons_self, hdeleted, if_pos ⟨hlt, by omega⟩]
      · rw [if_neg hlast, hdeleted, if_neg (by omega)]
    · rw [if_neg hy] at hother
      have hsame : (if refs x = 1 then x :: b.deleted else b.deleted).count y =
          b.deleted.count y := by
        split
        · exact List.count_cons_of_ne hy
        · rfl
      rw [hsame, hs.deleted, hother, Nat.add_zero]

end ControlBlocks

end ServerCore.Foundation
