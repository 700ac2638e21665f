import Mathlib.Logic.Basic

/-!
# Items in hands

Each party has at most one item in its hands, and no item is in the hands of two. Parties go on one at
a time, with the item that they have, with none, or with one that nobody has; the rules say who has
what afterwards.
-/

namespace ServerCore.Foundation

universe u v

variable {ι : Type u} {α : Type v}

/-- Somebody has the item. -/
def InHand (hands : ι → Option α) (x : α) : Prop :=
  ∃ i, hands i = some x

/-- No item is in the hands of two parties. -/
def Alone (hands : ι → Option α) : Prop :=
  ∀ i j x, hands i = some x → hands j = some x → i = j

/-- One party goes on: it keeps its item, lays it down, or takes one that nobody has. -/
structure Moves (hands after : ι → Option α) (i : ι) (next : Option α) : Prop where
  self : after i = next
  other : ∀ j, j ≠ i → after j = hands j
  own : ∀ x, next = some x → hands i = some x ∨ ¬ InHand hands x

namespace Moves

variable {hands after : ι → Option α} {i : ι} {next : Option α} {x : α}

/-- What another party has is not what this one goes on with. -/
theorem next_ne (h : Moves hands after i next) (hs : Alone hands) {j : ι} (hj : j ≠ i)
    (hx : hands j = some x) : next ≠ some x := by
  intro hnext
  rcases h.own x hnext with hsame | hnew
  · exact hj (hs j i x hx hsame)
  · exact hnew ⟨j, hx⟩

theorem alone (h : Moves hands after i next) (hs : Alone hands) : Alone after := by
  intro j k x hj hk
  by_cases hji : j = i
  · by_cases hki : k = i
    · rw [hji, hki]
    · rw [hji, h.self] at hj
      rw [h.other k hki] at hk
      exact absurd hj (h.next_ne hs hki hk)
  · rw [h.other j hji] at hj
    by_cases hki : k = i
    · rw [hki, h.self] at hk
      exact absurd hk (h.next_ne hs hji hj)
    · rw [h.other k hki] at hk
      exact hs j k x hj hk

theorem inHand_iff (h : Moves hands after i next) (hs : Alone hands) :
    InHand after x ↔ next = some x ∨ (InHand hands x ∧ hands i ≠ some x) := by
  constructor
  · rintro ⟨j, hj⟩
    by_cases hji : j = i
    · rw [hji, h.self] at hj
      exact Or.inl hj
    · rw [h.other j hji] at hj
      exact Or.inr ⟨⟨j, hj⟩, fun hi ↦ hji (hs j i x hj hi)⟩
  · rintro (hnext | ⟨⟨j, hj⟩, hi⟩)
    · exact ⟨i, h.self.trans hnext⟩
    · have hji : j ≠ i := by
        rintro rfl
        exact hi hj
      exact ⟨j, (h.other j hji).trans hj⟩

/-- A party with empty hands takes an item. -/
theorem inHand_take (h : Moves hands after i (some x)) (hs : Alone hands) (hi : hands i = none)
    {y : α} : InHand after y ↔ y = x ∨ InHand hands y := by
  rw [h.inHand_iff hs, hi, Option.some.injEq, eq_comm]
  simp

/-- A party lays down its item. -/
theorem inHand_layDown (h : Moves hands after i none) (hs : Alone hands) (hi : hands i = some x)
    {y : α} : InHand after y ↔ y ≠ x ∧ InHand hands y := by
  rw [h.inHand_iff hs, hi]
  simp [and_comm, eq_comm]

end Moves

end ServerCore.Foundation
