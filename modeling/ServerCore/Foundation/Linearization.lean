import ServerCore.Foundation.Machine
import ServerCore.Foundation.TransitionSystem

/-!
# Operations that take effect at one step

The operations of a concurrent system are spread over many steps and overlap. A sequential machine
describes the system if each operation has one step at which it takes effect: that step does to the
state what the call does to the machine, and all other steps do nothing to it. A result may be fixed
before it is returned; until then it is owed. The calls in the order in which they take effect then
have the results that were returned and those that are owed.
-/

namespace ServerCore.Foundation

namespace System

universe u v w x y

variable {σ : Type u} {α : Type v} {τ : Type w} {γ : Type x} {β : Type y}

/-- The calls that took effect in a run, in order. -/
def effects (effect : σ → α → Option γ) (history : List (σ × α)) : List γ :=
  history.reverse.filterMap fun entry ↦ effect entry.1 entry.2

/-- The results that were returned in a run, in order. -/
def replies (returned : σ → α → List β) (history : List (σ × α)) : List β :=
  history.reverse.flatMap fun entry ↦ returned entry.1 entry.2

theorem effects_cons (effect : σ → α → Option γ) (state : σ) (action : α)
    (history : List (σ × α)) : effects effect ((state, action) :: history) =
      effects effect history ++ (effect state action).toList := by
  rw [effects, effects, List.reverse_cons, List.filterMap_append]
  cases heffect : effect state action with
  | none => simp [heffect]
  | some call => simp [heffect]

theorem replies_cons (returned : σ → α → List β) (state : σ) (action : α)
    (history : List (σ × α)) : replies returned ((state, action) :: history) =
      replies returned history ++ returned state action := by
  simp [replies]

/-- Each step has the effect of at most one call on the sequential machine. Of the results, only the
`visible` ones are returned to somebody. -/
structure Linearizes (S : System σ α) (condition : σ → α → Prop) (spec : τ → γ → β × τ)
    (visible : β → Bool) (effect : σ → α → Option γ) (returned : σ → α → List β)
    (owed : σ → List β) (related : σ → τ → Prop) : Prop where
  quiet : ∀ state action after machine, related state machine → condition state action →
    S.step state action after → effect state action = none →
      related after machine ∧ owed state = returned state action ++ owed after
  acts : ∀ state action after machine call, related state machine → condition state action →
    S.step state action after → effect state action = some call →
      related after (spec machine call).2 ∧
        owed state ++ [(spec machine call).1].filter visible =
          returned state action ++ owed after

/-- What is returned and owed in a run are the results of the calls, one after another. -/
theorem Linearizes.serial {S : System σ α} {condition : σ → α → Prop} {spec : τ → γ → β × τ}
    {visible : β → Bool} {effect : σ → α → Option γ} {returned : σ → α → List β}
    {owed : σ → List β} {related : σ → τ → Prop}
    (h : Linearizes S condition spec visible effect returned owed related) {machine : τ}
    (hstart : ∀ state, S.init state → related state machine ∧ owed state = [])
    {history : List (σ × α)} {state : σ} (hrun : S.Run history state)
    (hobeys : Obeys condition history) :
    related state (Machine.answers spec machine (effects effect history)).2 ∧
      (Machine.answers spec machine (effects effect history)).1.filter visible =
        replies returned history ++ owed state := by
  induction hrun with
  | start hinit =>
    obtain ⟨hrelated, howed⟩ := hstart _ hinit
    exact ⟨hrelated, by rw [howed]; rfl⟩
  | @next history state after action hbefore hstep ih =>
    rw [obeys_cons] at hobeys
    obtain ⟨hrelated, hreplies⟩ := ih hobeys.2
    rw [effects_cons, replies_cons]
    cases heffect : effect state action with
    | none =>
      obtain ⟨hafter, howed⟩ := h.quiet _ _ _ _ hrelated hobeys.1 hstep heffect
      rw [Option.toList_none, List.append_nil]
      refine ⟨hafter, ?_⟩
      rw [hreplies, howed, List.append_assoc]
    | some call =>
      obtain ⟨hafter, howed⟩ := h.acts _ _ _ _ call hrelated hobeys.1 hstep heffect
      rw [Option.toList_some, Machine.answers_append, Machine.replies_append,
        List.filter_append, hreplies, List.append_assoc, List.append_assoc]
      exact ⟨hafter, congrArg _ howed⟩

end System

end ServerCore.Foundation
