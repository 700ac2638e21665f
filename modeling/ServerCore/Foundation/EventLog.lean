import Mathlib.Data.List.Basic

/-!
# Rules for the order of events

A log keeps the events of a run, the latest one first. A rule says of an event whether it may come after
the events before it. A log respects the rule if each of its events does.
-/

namespace ServerCore.Foundation

universe u

variable {ε : Type u} {rule : ε → List ε → Prop}

/-- Each event obeys the rule, given the events before it. -/
def Respects (rule : ε → List ε → Prop) : List ε → Prop
  | [] => True
  | event :: earlier => rule event earlier ∧ Respects rule earlier

@[simp]
theorem respects_nil : Respects rule [] :=
  trivial

@[simp]
theorem respects_cons {event : ε} {earlier : List ε} :
    Respects rule (event :: earlier) ↔ rule event earlier ∧ Respects rule earlier :=
  Iff.rfl

end ServerCore.Foundation
