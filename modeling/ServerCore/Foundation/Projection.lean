import Mathlib.Data.List.Basic

/-!
# Projections of a sequence of steps

`view` cuts one component out of a state. When it turns the steps that concern the component into
steps of the component's own and does not see the other steps, the component at the end of a sequence
is what the concerned steps alone make of it. Two sequences with the same concerned steps therefore
end with the same component.
-/

namespace ServerCore.Foundation

universe u v w

/-- On states with the invariant, `view` maps the steps of these actions that concern the component to
`viewStep` and is blind to the others. -/
structure Projects {σ : Type u} {τ : Type v} {α : Type w} (invariant : σ → Prop)
    (concerns : α → Prop) (view : σ → τ) (step : σ → α → σ) (viewStep : τ → α → τ)
    (actions : List α) : Prop where
  keeps : ∀ state, ∀ action ∈ actions, invariant state → invariant (step state action)
  own : ∀ state, ∀ action ∈ actions, invariant state → concerns action →
    view (step state action) = viewStep (view state) action
  other : ∀ state, ∀ action ∈ actions, invariant state → ¬ concerns action →
    view (step state action) = view state

namespace Projects

variable {σ : Type u} {τ : Type v} {α : Type w} {invariant : σ → Prop} {concerns : α → Prop}
  {view : σ → τ} {step : σ → α → σ} {viewStep : τ → α → τ} {actions : List α}

theorem tail {action : α} (h : Projects invariant concerns view step viewStep (action :: actions)) :
    Projects invariant concerns view step viewStep actions where
  keeps state next hnext := h.keeps state next (List.mem_cons_of_mem _ hnext)
  own state next hnext := h.own state next (List.mem_cons_of_mem _ hnext)
  other state next hnext := h.other state next (List.mem_cons_of_mem _ hnext)

theorem view_foldl [DecidablePred concerns]
    (h : Projects invariant concerns view step viewStep actions) {state : σ}
    (hstate : invariant state) : view (actions.foldl step state) =
      (actions.filter fun action ↦ concerns action).foldl viewStep (view state) := by
  induction actions generalizing state with
  | nil => rfl
  | cons action rest ih =>
    have hnext := h.keeps state action List.mem_cons_self hstate
    rw [List.foldl_cons, ih h.tail hnext]
    by_cases hconcerns : concerns action
    · rw [List.filter_cons_of_pos (by simpa using hconcerns), List.foldl_cons,
        h.own state action List.mem_cons_self hstate hconcerns]
    · rw [List.filter_cons_of_neg (by simpa using hconcerns),
        h.other state action List.mem_cons_self hstate hconcerns]

end Projects

end ServerCore.Foundation
