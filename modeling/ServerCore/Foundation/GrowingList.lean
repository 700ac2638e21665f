import Mathlib.Data.List.Forall2

/-!
# Lists that grow

A list of parties that are numbered in the order in which they come. In one step parties go on, each as
the relation between what it was and what it is says, and new ones are added at the end. So a number
always stands for the same party.
-/

namespace ServerCore.Foundation

universe u v

variable {α : Type u} {β : Type v} {R : α → α → Prop} {old new after : List α}

/-- The parties of a list go on, and new ones come. -/
def Grows (R : α → α → Prop) (old new after : List α) : Prop :=
  ∃ kept, List.Forall₂ R old kept ∧ after = kept ++ new

namespace Grows

theorem append [Std.Refl R] (old new : List α) : Grows R old new (old ++ new) :=
  ⟨old, List.forall₂_refl old, rfl⟩

theorem refl [Std.Refl R] (old : List α) : Grows R old [] old :=
  ⟨old, List.forall₂_refl old, (List.append_nil old).symm⟩

theorem map {f : α → α} (h : ∀ a, R a (f a)) : Grows R old [] (old.map f) := by
  refine ⟨old.map f, ?_, (List.append_nil _).symm⟩
  rw [List.forall₂_map_right_iff]
  exact List.forall₂_same.mpr fun a _ ↦ h a

/-- One party goes on. -/
theorem set [Std.Refl R] {i : ℕ} {a b : α} (hi : old[i]? = some a) (hab : R a b) :
    Grows R old [] (old.set i b) := by
  refine ⟨old.set i b, ?_, (List.append_nil _).symm⟩
  induction old generalizing i with
  | nil => exact List.Forall₂.nil
  | cons c rest ih =>
    cases i with
    | zero =>
      rw [List.getElem?_cons_zero, Option.some.injEq] at hi
      rw [List.set_cons_zero, hi]
      exact List.Forall₂.cons hab (List.forall₂_refl rest)
    | succ i =>
      rw [List.getElem?_cons_succ] at hi
      exact List.Forall₂.cons (Std.Refl.refl c) (ih hi)

/-- A party keeps its number. -/
theorem getElem? (h : Grows R old new after) {i : ℕ} {a : α} (hi : old[i]? = some a) :
    ∃ b, after[i]? = some b ∧ R a b := by
  obtain ⟨kept, hkept, rfl⟩ := h
  obtain ⟨hlt, rfl⟩ := List.getElem?_eq_some_iff.mp hi
  have hlt' : i < kept.length := hkept.length_eq ▸ hlt
  refine ⟨kept[i], ?_, hkept.get hlt hlt'⟩
  rw [List.getElem?_append_left hlt', List.getElem?_eq_getElem hlt']

/-- What no party changes of itself. -/
theorem map_eq (h : Grows R old new after) {f : α → β} (hf : ∀ a b, R a b → f b = f a) :
    after.map f = old.map f ++ new.map f := by
  obtain ⟨kept, hkept, rfl⟩ := h
  have hsame : kept.map f = old.map f := by
    induction hkept with
    | nil => rfl
    | cons hab _ ih => rw [List.map_cons, List.map_cons, hf _ _ hab, ih]
  rw [List.map_append, hsame]

end Grows

end ServerCore.Foundation
