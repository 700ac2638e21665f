import Mathlib.Logic.Relation
import ServerCore.Foundation.TransitionSystem

/-!
# What can still be reached

`Leads` is any number of steps of a system, `CanReach` that a goal is some steps away. The rule is the one
of a variant: if from every state with the invariant that does not satisfy the goal some steps lead to a
state with the invariant and a smaller measure, or to the goal, then the goal can be reached.
-/

namespace ServerCore.Foundation

namespace System

universe u v

variable {σ : Type u} {α : Type v} {S : System σ α} {state middle after : σ}
  {goal : σ → Prop}

/-- Any number of steps. -/
def Leads (S : System σ α) : σ → σ → Prop :=
  Relation.ReflTransGen fun state after ↦ ∃ action, S.step state action after

theorem Leads.refl (state : σ) : S.Leads state state :=
  Relation.ReflTransGen.refl

theorem Leads.trans (hfirst : S.Leads state middle) (hsecond : S.Leads middle after) :
    S.Leads state after :=
  Relation.ReflTransGen.trans hfirst hsecond

theorem Leads.of_step {action : α} (hstep : S.step state action after) : S.Leads state after :=
  Relation.ReflTransGen.single ⟨action, hstep⟩

theorem Leads.next {action : α} (hleads : S.Leads state middle)
    (hstep : S.step middle action after) : S.Leads state after :=
  Relation.ReflTransGen.tail hleads ⟨action, hstep⟩

theorem Leads.invariant (invariant : σ → Prop) (hleads : S.Leads state after)
    (hkeep : ∀ state action after, invariant state → S.step state action after → invariant after)
    (hstate : invariant state) : invariant after := by
  induction hleads with
  | refl => exact hstate
  | tail _ hlast ih =>
    obtain ⟨action, hlast⟩ := hlast
    exact hkeep _ _ _ ih hlast

/-- The goal is some steps away. -/
def CanReach (S : System σ α) (goal : σ → Prop) (state : σ) : Prop :=
  ∃ after, S.Leads state after ∧ goal after

theorem CanReach.of_goal (hgoal : goal state) : S.CanReach goal state :=
  ⟨state, Leads.refl state, hgoal⟩

theorem CanReach.of_leads (hleads : S.Leads state middle) (hreach : S.CanReach goal middle) :
    S.CanReach goal state := by
  obtain ⟨after, hafter, hgoal⟩ := hreach
  exact ⟨after, hleads.trans hafter, hgoal⟩

theorem CanReach.mono {weaker : σ → Prop} (hreach : S.CanReach goal state)
    (hgoal : ∀ after, goal after → weaker after) : S.CanReach weaker state := by
  obtain ⟨after, hafter, hreached⟩ := hreach
  exact ⟨after, hafter, hgoal after hreached⟩

/-- The rule of the variant. -/
theorem CanReach.of_measure (invariant : σ → Prop) (measure : σ → ℕ)
    (hdown : ∀ state, invariant state → ¬ goal state → ∃ after, S.Leads state after ∧
      (goal after ∨ invariant after ∧ measure after < measure state))
    (hstate : invariant state) : S.CanReach goal state := by
  induction hmeasure : measure state using Nat.strongRecOn generalizing state with
  | _ bound ih =>
    by_cases hgoal : goal state
    · exact CanReach.of_goal hgoal
    · obtain ⟨middle, hleads, hnext⟩ := hdown state hstate hgoal
      apply CanReach.of_leads hleads
      rcases hnext with hreached | ⟨hinv, hless⟩
      · exact CanReach.of_goal hreached
      · exact ih (measure middle) (hmeasure ▸ hless) hinv rfl

/-- A replay of steps that the system has. -/
theorem Leads.of_replay {step : σ → α → Option σ} {actions : List α}
    (hactions : ∀ action ∈ actions, ∀ state after, step state action = some after →
      S.step state action after)
    (hreplay : System.replay step state actions = some after) : S.Leads state after := by
  induction actions generalizing state with
  | nil =>
    rw [System.replay, Option.some.injEq] at hreplay
    exact hreplay ▸ Leads.refl state
  | cons action rest ih =>
    obtain ⟨middle, hmiddle, hrest⟩ := Option.bind_eq_some_iff.mp hreplay
    obtain ⟨hfirst, hlater⟩ := List.forall_mem_cons.mp hactions
    exact (Leads.of_step (hfirst state middle hmiddle)).trans (ih hlater hrest)

/-- What is some steps away from a state of a run is a state of a longer run. -/
theorem Run.leads {history : List (σ × α)} (hrun : S.Run history state)
    (hleads : S.Leads state after) : ∃ longer, S.Run (longer ++ history) after := by
  induction hleads with
  | refl => exact ⟨[], hrun⟩
  | tail _ hlast ih =>
    obtain ⟨longer, hlonger⟩ := ih
    obtain ⟨action, hlast⟩ := hlast
    exact ⟨_ :: longer, hlonger.next hlast⟩

end System

end ServerCore.Foundation
