import Mathlib.Data.List.Basic

/-!
# Machines that answer

A machine takes an input, answers it and goes on to its next state, or fails. It is described by a
second machine that never fails: related states give the same answer to an input, and lead to related
states. Then all answers to a sequence of inputs are the ones of the description.
-/

namespace ServerCore.Foundation

namespace Machine

universe u v w x

variable {σ : Type u} {τ : Type v} {α : Type w} {β : Type x} {ε : Type*}

/-- The inputs one after another, up to the first failure: the answers in order, and the state they
lead to. -/
def feed (step : σ → α → Except ε (β × σ)) : σ → List α → Except ε (List β × σ)
  | state, [] => return ([], state)
  | state, input :: rest => do
    let (answer, next) ← step state input
    let (answers, last) ← feed step next rest
    return (answer :: answers, last)

/-- Every input meets the condition in the state it comes to. -/
def FedWell (condition : σ → α → Prop) (step : σ → α → Except ε (β × σ)) : σ → List α → Prop
  | _, [] => True
  | state, input :: rest => condition state input ∧
      ∀ answer next, step state input = .ok (answer, next) → FedWell condition step next rest

/-- The same for a machine that never fails. -/
def answers (spec : τ → α → β × τ) : τ → List α → List β × τ
  | state, [] => ([], state)
  | state, input :: rest =>
    ((spec state input).1 :: (answers spec (spec state input).2 rest).1,
      (answers spec (spec state input).2 rest).2)

section

variable {condition : σ → α → Prop} {step : σ → α → Except ε (β × σ)} {spec : τ → α → β × τ}
  {s last : σ} {t : τ} {input : α} {inputs : List α} {replies : List β}

@[simp]
theorem feed_nil : feed step s [] = .ok ([], s) := rfl

theorem feed_cons {answer : β} {next : σ} (hstep : step s input = .ok (answer, next)) :
    feed step s (input :: inputs) =
      (feed step next inputs).map fun result ↦ (answer :: result.1, result.2) := by
  simp only [feed, hstep, bind, Except.bind]
  cases feed step next inputs with
  | error fault => rfl
  | ok result => rfl

/-- A sequence that goes through begins with a step that goes through. -/
theorem of_feed_cons (h : feed step s (input :: inputs) = .ok (replies, last)) :
    ∃ answer next rest, step s input = .ok (answer, next) ∧
      feed step next inputs = .ok (rest, last) ∧ replies = answer :: rest := by
  cases hstep : step s input with
  | error fault => simp [feed, hstep, bind, Except.bind] at h
  | ok result =>
    obtain ⟨answer, next⟩ := result
    rw [feed_cons hstep] at h
    cases hrest : feed step next inputs with
    | error fault => simp [hrest, Except.map] at h
    | ok result =>
      obtain ⟨rest, final⟩ := result
      simp only [hrest, Except.map, Except.ok.injEq, Prod.mk.injEq] at h
      exact ⟨answer, next, rest, rfl, by rw [hrest, h.2], h.1.symm⟩

@[simp]
theorem answers_nil : answers spec t [] = ([], t) := rfl

@[simp]
theorem answers_cons : answers spec t (input :: inputs) =
    ((spec t input).1 :: (answers spec (spec t input).2 inputs).1,
      (answers spec (spec t input).2 inputs).2) := rfl

/-- Where two sequences lead, one after the other. -/
theorem answers_append (more : List α) : (answers spec t (inputs ++ more)).2 =
    (answers spec (answers spec t inputs).2 more).2 := by
  induction inputs generalizing t with
  | nil => rfl
  | cons input rest ih => exact ih

/-- What they answer, one after the other. -/
theorem replies_append (more : List α) : (answers spec t (inputs ++ more)).1 =
    (answers spec t inputs).1 ++ (answers spec (answers spec t inputs).2 more).1 := by
  induction inputs generalizing t with
  | nil => rfl
  | cons input rest ih =>
    rw [List.cons_append, answers_cons, answers_cons, List.cons_append, ih]

/-- The machine does what its description says, one step at a time. -/
def Describes (related : σ → τ → Prop) (condition : σ → α → Prop)
    (step : σ → α → Except ε (β × σ)) (spec : τ → α → β × τ) : Prop :=
  ∀ state view input, related state view → condition state input →
    ∃ next, step state input = .ok ((spec view input).1, next) ∧ related next (spec view input).2

/-- And so it does for every sequence of inputs. -/
theorem Describes.feed_eq {related : σ → τ → Prop} (h : Describes related condition step spec)
    (hrelated : related s t) (hfed : FedWell condition step s inputs) :
    ∃ last, feed step s inputs = .ok ((answers spec t inputs).1, last) ∧
      related last (answers spec t inputs).2 := by
  induction inputs generalizing s t with
  | nil => exact ⟨s, rfl, hrelated⟩
  | cons input rest ih =>
    obtain ⟨hfirst, hrest⟩ := hfed
    obtain ⟨next, hstep, hnext⟩ := h s t input hrelated hfirst
    obtain ⟨last, hlast, hend⟩ := ih hnext (hrest _ next hstep)
    refine ⟨last, ?_, hend⟩
    rw [feed_cons hstep, hlast]
    rfl

end

end Machine

end ServerCore.Foundation
