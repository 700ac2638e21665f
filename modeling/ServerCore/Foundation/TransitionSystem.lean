import Mathlib.Algebra.GroupWithZero.Nat
import Mathlib.Tactic.Common
import Mathlib.Data.List.Basic

/-!
# Labelled transition systems and their runs

A system has initial states and a step relation labelled by actions. A run keeps its whole history,
most recent step first, as the list of actions together with the state each was taken in, so that a
property can be asked of every state visited or of every step taken.

Two rules do the work. `Run.invariant` carries an inductive invariant to the end of every run whose
steps obey a condition. `Run.forall_visited_iff_obeys` turns an exact description of one step into an
exact description of runs: the property holds in every visited state if and only if every step obeyed
the condition.
-/

namespace ServerCore.Foundation

universe u v

/-- Initial states together with a labelled step relation. -/
structure System (σ : Type u) (α : Type v) where
  init : σ → Prop
  step : σ → α → σ → Prop

namespace System

variable {σ : Type u} {α : Type v} {S : System σ α}

/-- A finite run: the steps taken, each with the state it was taken in, and the state reached. -/
inductive Run (S : System σ α) : List (σ × α) → σ → Prop
  | start {state : σ} (hinit : S.init state) : Run S [] state
  | next {history : List (σ × α)} {state after : σ} {action : α}
      (hrun : Run S history state) (hstep : S.step state action after) :
      Run S ((state, action) :: history) after

/-- Every state the run passed through, the last one included. -/
def visited (history : List (σ × α)) (state : σ) : List σ :=
  state :: history.map Prod.fst

/-- Each step of the run satisfies `condition` in the state it was taken in. -/
def Obeys (condition : σ → α → Prop) (history : List (σ × α)) : Prop :=
  ∀ entry ∈ history, condition entry.1 entry.2

def Reachable (S : System σ α) (state : σ) : Prop :=
  ∃ history, S.Run history state

@[simp]
theorem obeys_nil (condition : σ → α → Prop) : Obeys condition ([] : List (σ × α)) := by
  simp [Obeys]

@[simp]
theorem obeys_cons (condition : σ → α → Prop) (state : σ) (action : α)
    (history : List (σ × α)) :
    Obeys condition ((state, action) :: history) ↔
      condition state action ∧ Obeys condition history := by
  simp [Obeys]

/-- A condition that every step satisfies is no restriction on runs. -/
theorem obeys_of_forall {condition : σ → α → Prop} (h : ∀ state action, condition state action)
    (history : List (σ × α)) : Obeys condition history :=
  fun entry _ ↦ h entry.1 entry.2

@[simp]
theorem forall_visited_nil (property : σ → Prop) (state : σ) :
    (∀ seen ∈ visited ([] : List (σ × α)) state, property seen) ↔ property state := by
  simp [visited]

@[simp]
theorem forall_visited_cons (property : σ → Prop) (state after : σ) (action : α)
    (history : List (σ × α)) :
    (∀ seen ∈ visited ((state, action) :: history) after, property seen) ↔
      property after ∧ ∀ seen ∈ visited history state, property seen := by
  simp [visited]

/-- The invariant rule, relative to a condition on the steps. -/
theorem Run.invariant {condition : σ → α → Prop} (invariant : σ → Prop)
    (hinit : ∀ state, S.init state → invariant state)
    (hstep : ∀ state action after, invariant state → condition state action →
      S.step state action after → invariant after)
    {history : List (σ × α)} {state : σ} (hrun : S.Run history state)
    (hobeys : Obeys condition history) : invariant state := by
  induction hrun with
  | start hstart => exact hinit _ hstart
  | next hbefore hnext ih =>
    rw [obeys_cons] at hobeys
    exact hstep _ _ _ (ih hobeys.2) hobeys.1 hnext

/-- The invariant rule for a condition every step satisfies. -/
theorem Reachable.invariant (invariant : σ → Prop)
    (hinit : ∀ state, S.init state → invariant state)
    (hstep : ∀ state action after, invariant state → S.step state action after → invariant after)
    {state : σ} (hreach : S.Reachable state) : invariant state := by
  obtain ⟨history, hrun⟩ := hreach
  have hobeys : Obeys (fun (_ : σ) (_ : α) ↦ True) history := obeys_of_forall (fun _ _ ↦ trivial) _
  apply hrun.invariant invariant hinit _ hobeys
  intro state action after hinv _ h
  exact hstep state action after hinv h

/-- A run of a system is one of every system with more initial states and more steps. -/
theorem Run.mono {S' : System σ α} (hinit : ∀ state, S.init state → S'.init state)
    (hstep : ∀ state action after, S.step state action after → S'.step state action after)
    {history : List (σ × α)} {state : σ} (hrun : S.Run history state) : S'.Run history state := by
  induction hrun with
  | start hstart => exact .start (hinit _ hstart)
  | next _ hnext ih => exact ih.next (hstep _ _ _ hnext)

/-- A map into the states of another system that takes each step to a step or to nothing takes reachable
states to reachable ones. -/
theorem Reachable.map {τ β : Type*} {T : System τ β} (view : σ → τ)
    (hinit : ∀ state, S.init state → T.init (view state))
    (hstep : ∀ state action after, S.step state action after →
      view after = view state ∨ ∃ viewed, T.step (view state) viewed (view after))
    {state : σ} (hreach : S.Reachable state) : T.Reachable (view state) := by
  apply hreach.invariant fun state ↦ T.Reachable (view state)
  · exact fun state hstart ↦ ⟨[], .start (hinit state hstart)⟩
  · rintro state action after ⟨history, hrun⟩ hnext
    rcases hstep state action after hnext with hsame | ⟨viewed, hviewed⟩
    · exact ⟨history, hsame ▸ hrun⟩
    · exact ⟨_, hrun.next hviewed⟩

/-- An inductive invariant holds in every state of a run that obeys the condition. -/
theorem Run.invariant_visited {condition : σ → α → Prop} (invariant : σ → Prop)
    (hinit : ∀ state, S.init state → invariant state)
    (hstep : ∀ state action after, invariant state → condition state action →
      S.step state action after → invariant after)
    {history : List (σ × α)} {state : σ} (hrun : S.Run history state)
    (hobeys : Obeys condition history) : ∀ seen ∈ visited history state, invariant seen := by
  induction hrun with
  | start hstart => simpa using hinit _ hstart
  | next hbefore hnext ih =>
    have hlast := (hbefore.next hnext).invariant invariant hinit hstep hobeys
    rw [obeys_cons] at hobeys
    exact (forall_visited_cons invariant _ _ _ _).mpr ⟨hlast, ih hobeys.2⟩

/-- A fact about steps taken from states satisfying the invariant holds of every step of the run. -/
theorem Run.obeys_of_invariant {condition safe : σ → α → Prop} (invariant : σ → Prop)
    (hinit : ∀ state, S.init state → invariant state)
    (hstep : ∀ state action after, invariant state → condition state action →
      S.step state action after → invariant after)
    (hsafe : ∀ state action after, invariant state → condition state action →
      S.step state action after → safe state action)
    {history : List (σ × α)} {state : σ} (hrun : S.Run history state)
    (hobeys : Obeys condition history) : Obeys safe history := by
  induction hrun with
  | start _ => exact obeys_nil safe
  | next hbefore hnext ih =>
    rw [obeys_cons] at hobeys ⊢
    have hinv := hbefore.invariant invariant hinit hstep hobeys.2
    exact ⟨hsafe _ _ _ hinv hobeys.1 hnext, ih hobeys.2⟩

/-- If, from a good state, the next state is good exactly when the step obeys the condition, then a
run visits only good states exactly when all its steps obey the condition. -/
theorem Run.forall_visited_iff_obeys {condition : σ → α → Prop} {good : σ → Prop}
    (invariant : σ → Prop)
    (hinit : ∀ state, S.init state → invariant state ∧ good state)
    (hkeep : ∀ state action after, invariant state → good state → S.step state action after →
      invariant after)
    (hexact : ∀ state action after, invariant state → good state → S.step state action after →
      (good after ↔ condition state action))
    {history : List (σ × α)} {state : σ} (hrun : S.Run history state) :
    (∀ seen ∈ visited history state, good seen) ↔ Obeys condition history := by
  suffices hboth : ((∀ seen ∈ visited history state, good seen) ↔ Obeys condition history) ∧
      (Obeys condition history → invariant state ∧ good state) from hboth.1
  induction hrun with
  | start hstart => simp [hinit _ hstart]
  | next hbefore hnext ih =>
    obtain ⟨hiff, hgood⟩ := ih
    rw [forall_visited_cons, obeys_cons, hiff]
    constructor
    · constructor
      · rintro ⟨hafter, hhistory⟩
        obtain ⟨hinv, hstate⟩ := hgood hhistory
        exact ⟨(hexact _ _ _ hinv hstate hnext).mp hafter, hhistory⟩
      · rintro ⟨hcondition, hhistory⟩
        obtain ⟨hinv, hstate⟩ := hgood hhistory
        exact ⟨(hexact _ _ _ hinv hstate hnext).mpr hcondition, hhistory⟩
    · rintro ⟨hcondition, hhistory⟩
      obtain ⟨hinv, hstate⟩ := hgood hhistory
      exact ⟨hkeep _ _ _ hinv hstate hnext, (hexact _ _ _ hinv hstate hnext).mpr hcondition⟩

/-- The same with an invariant that only good states satisfy: a step that meets the condition keeps
it, and one that does not meet it leads to a state that is not good. -/
theorem Run.forall_visited_iff_obeys_of_sound {condition : σ → α → Prop} {good : σ → Prop}
    (sound : σ → Prop) (hgood : ∀ state, sound state → good state)
    (hinit : ∀ state, S.init state → sound state)
    (hkeep : ∀ state action after, sound state → condition state action →
      S.step state action after → sound after)
    (hbreak : ∀ state action after, sound state → ¬ condition state action →
      S.step state action after → ¬ good after)
    {history : List (σ × α)} {state : σ} (hrun : S.Run history state) :
    (∀ seen ∈ visited history state, good seen) ↔ Obeys condition history := by
  apply hrun.forall_visited_iff_obeys fun state ↦ good state → sound state
  · intro state hstart
    have hsound := hinit state hstart
    exact ⟨fun _ ↦ hsound, hgood state hsound⟩
  · intro state action after hinv hstate hstep hafter
    by_cases hcondition : condition state action
    · exact hkeep _ _ _ (hinv hstate) hcondition hstep
    · exact absurd hafter (hbreak _ _ _ (hinv hstate) hcondition hstep)
  · intro state action after hinv hstate hstep
    constructor
    · intro hafter
      by_contra hcondition
      exact hbreak _ _ _ (hinv hstate) hcondition hstep hafter
    · intro hcondition
      exact hgood _ (hkeep _ _ _ (hinv hstate) hcondition hstep)

/-- A property that no step brings back once it is lost, and that a step keeps exactly when it obeys the
condition, holds at the end of a run exactly when all its steps obeyed. -/
theorem Run.iff_obeys {condition : σ → α → Prop} {good : σ → Prop} (invariant : σ → Prop)
    (hinit : ∀ state, S.init state → invariant state ∧ good state)
    (hkeep : ∀ state action after, invariant state → S.step state action after → invariant after)
    (hexact : ∀ state action after, invariant state → S.step state action after →
      (good after ↔ good state ∧ condition state action))
    {history : List (σ × α)} {state : σ} (hrun : S.Run history state) :
    good state ↔ Obeys condition history := by
  suffices hboth : invariant state ∧ (good state ↔ Obeys condition history) from hboth.2
  induction hrun with
  | start hstart => simp [hinit _ hstart]
  | next _ hnext ih =>
    obtain ⟨hinv, hgood⟩ := ih
    refine ⟨hkeep _ _ _ hinv hnext, ?_⟩
    rw [hexact _ _ _ hinv hnext, hgood, obeys_cons, and_comm]

/-! ## Systems given by an executable step function -/

/-- The system of a step function that returns `none` where the action is not enabled. -/
def ofStep (init : σ → Prop) (step : σ → α → Option σ) : System σ α where
  init := init
  step state action after := step state action = some after

/-- Numerals in `Fin 1` and `Fin 2`, the parties of the runs that are replayed. -/
instance neZero_one : NeZero 1 :=
  ⟨Nat.one_ne_zero⟩

instance neZero_two : NeZero 2 :=
  ⟨Nat.succ_ne_zero 1⟩

/-- Replay a list of actions. -/
def replay (step : σ → α → Option σ) : σ → List α → Option σ
  | state, [] => some state
  | state, action :: rest => (step state action).bind fun after ↦ replay step after rest

theorem Run.replay {init : σ → Prop} {step : σ → α → Option σ} {history : List (σ × α)}
    {state after : σ} {actions : List α} (hrun : (ofStep init step).Run history state)
    (hreplay : System.replay step state actions = some after) :
    ∃ longer, (ofStep init step).Run (longer ++ history) after := by
  induction actions generalizing history state with
  | nil =>
    rw [System.replay, Option.some.injEq] at hreplay
    exact ⟨[], by simpa [hreplay] using hrun⟩
  | cons action rest ih =>
    obtain ⟨middle, hstep, hrest⟩ := Option.bind_eq_some_iff.mp hreplay
    obtain ⟨longer, hlonger⟩ := ih (hrun.next hstep) hrest
    exact ⟨longer ++ [(state, action)], by simpa using hlonger⟩

/-- A replay from an initial state that ends in a state failing a test refutes an invariant. -/
theorem exists_run_of_replay (init : σ → Prop) {step : σ → α → Option σ} {start : σ}
    {actions : List α} {test : σ → Bool} (hinit : init start)
    (hreplay : (System.replay step start actions).map test = some true) :
    ∃ history state, (ofStep init step).Run history state ∧ test state = true := by
  obtain ⟨state, hstate, htest⟩ := Option.map_eq_some_iff.mp hreplay
  have hstart : (ofStep init step).Run [] start := Run.start hinit
  obtain ⟨history, hrun⟩ := hstart.replay hstate
  exact ⟨_, state, hrun, htest⟩

/-- Replay a list of actions after a history, and keep the history. -/
def traced (step : σ → α → Option σ) : List (σ × α) → σ → List α → Option (List (σ × α) × σ)
  | history, state, [] => some (history, state)
  | history, state, action :: rest =>
    (step state action).bind fun after ↦ traced step ((state, action) :: history) after rest

theorem Run.traced {init : σ → Prop} {step : σ → α → Option σ} {history longer : List (σ × α)}
    {state after : σ} {actions : List α} (hrun : (ofStep init step).Run history state)
    (htraced : System.traced step history state actions = some (longer, after)) :
    (ofStep init step).Run longer after := by
  induction actions generalizing history state with
  | nil =>
    rw [System.traced, Option.some.injEq, Prod.mk.injEq] at htraced
    exact htraced.1 ▸ htraced.2 ▸ hrun
  | cons action rest ih =>
    obtain ⟨middle, hstep, hrest⟩ := Option.bind_eq_some_iff.mp htraced
    exact ih (hrun.next hstep) hrest

/-- A replay from an initial state whose history and last state pass a test. -/
theorem exists_run_of_traced (init : σ → Prop) {step : σ → α → Option σ} {start : σ}
    {actions : List α} {test : List (σ × α) × σ → Bool} (hinit : init start)
    (htraced : (System.traced step [] start actions).map test = some true) :
    ∃ history state, (ofStep init step).Run history state ∧ test (history, state) = true := by
  obtain ⟨⟨history, state⟩, hfound, htest⟩ := Option.map_eq_some_iff.mp htraced
  have hstart : (ofStep init step).Run [] start := Run.start hinit
  exact ⟨history, state, hstart.traced hfound, htest⟩

/-- A run whose steps were tested against a condition before they were taken. -/
theorem Run.of_tested {init : σ → Prop} {step : σ → α → Option σ} {condition : σ → α → Prop}
    [∀ state action, Decidable (condition state action)] {history : List (σ × α)} {state : σ}
    (hrun : (ofStep init fun state action ↦
      if condition state action then step state action else none).Run history state) :
    (ofStep init step).Run history state ∧ Obeys condition history := by
  induction hrun with
  | start hinit => exact ⟨Run.start hinit, obeys_nil condition⟩
  | next hbefore hstep ih =>
    obtain ⟨hcondition, hnext⟩ := Option.ite_none_right_eq_some.mp hstep
    exact ⟨ih.1.next hnext, (obeys_cons _ _ _ _).mpr ⟨hcondition, ih.2⟩⟩

end System

end ServerCore.Foundation
