import Mathlib.Data.List.Perm.Basic

/-!
# Loops whose order does not matter

A loop makes one round for each element of a list. States are compared by a relation that the rounds
respect. If moreover any two rounds may be exchanged up to the relation, so may the whole list be
permuted.
-/

namespace ServerCore.Foundation

universe u v

variable {σ : Type u} {α : Type v} {R : σ → σ → Prop} {round : σ → α → σ}

/-- Related states stay related through the same rounds. -/
theorem foldl_related (hround : ∀ a state other, R state other → R (round state a) (round other a))
    (elements : List α) {state other : σ} (h : R state other) :
    R (elements.foldl round state) (elements.foldl round other) := by
  induction elements generalizing state other with
  | nil => exact h
  | cons a rest ih => exact ih (hround a state other h)

/-- And through the same rounds in another order. -/
theorem foldl_related_of_perm [IsTrans σ R] [Std.Refl R]
    (hround : ∀ a state other, R state other → R (round state a) (round other a))
    {elements permuted : List α}
    (hexchange : ∀ a ∈ elements, ∀ b ∈ elements, ∀ state,
      R (round (round state a) b) (round (round state b) a))
    (hperm : elements.Perm permuted) {state other : σ} (h : R state other) :
    R (elements.foldl round state) (permuted.foldl round other) := by
  induction hperm generalizing state other with
  | nil => exact h
  | cons a _ ih =>
    apply ih _ (hround a state other h)
    intro b hb c hc
    exact hexchange b (List.mem_cons_of_mem _ hb) c (List.mem_cons_of_mem _ hc)
  | swap a b rest =>
    have hfirst : R (round (round state b) a) (round (round state a) b) :=
      hexchange b List.mem_cons_self a (List.mem_cons_of_mem _ List.mem_cons_self) state
    have hsecond : R (round (round state a) b) (round (round other a) b) :=
      hround b _ _ (hround a _ _ h)
    exact foldl_related hround rest (IsTrans.trans _ _ _ hfirst hsecond)
  | trans hfirst _ ihfirst ihsecond =>
    have hmiddle := ihfirst hexchange h
    refine IsTrans.trans _ _ _ hmiddle (ihsecond ?_ (Std.Refl.refl other))
    intro a ha b hb
    exact hexchange a (hfirst.mem_iff.mpr ha) b (hfirst.mem_iff.mpr hb)

end ServerCore.Foundation
