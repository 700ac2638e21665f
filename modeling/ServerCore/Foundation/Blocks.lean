import Mathlib.Tactic.Common
import Mathlib.Data.List.Basic

/-!
# Blocks of a stream

A stream is the concatenation of blocks, and a first part of it has arrived. `completed` lists the
blocks that have arrived whole, `ahead` the others, and `begun` says how much of the first of these
has arrived.
-/

namespace ServerCore.Foundation

universe u

variable {α : Type u}

namespace Blocks

/-- The blocks that lie in the first `k` elements of the stream. -/
def completed : List (List α) → ℕ → List (List α)
  | [], _ => []
  | block :: rest, k =>
    if block.length ≤ k then block :: completed rest (k - block.length) else []

/-- The blocks that do not. -/
def ahead : List (List α) → ℕ → List (List α)
  | [], _ => []
  | block :: rest, k =>
    if block.length ≤ k then ahead rest (k - block.length) else block :: rest

/-- How much of the first of these has arrived. -/
def begun : List (List α) → ℕ → ℕ
  | [], k => k
  | block :: rest, k => if block.length ≤ k then begun rest (k - block.length) else k

@[simp]
theorem completed_nil (k : ℕ) : completed ([] : List (List α)) k = [] := rfl

theorem completed_cons_of_le {block : List α} {rest : List (List α)} {k : ℕ}
    (h : block.length ≤ k) :
    completed (block :: rest) k = block :: completed rest (k - block.length) := if_pos h

theorem completed_cons_of_lt {block : List α} {rest : List (List α)} {k : ℕ}
    (h : k < block.length) : completed (block :: rest) k = [] := if_neg (by omega)

theorem eq_cons_of_completed {blocks more : List (List α)} {block : List α} {k : ℕ}
    (h : completed blocks k = block :: more) :
    block.length ≤ k ∧ ∃ rest, blocks = block :: rest := by
  cases blocks with
  | nil => simp at h
  | cons first rest =>
    by_cases hle : first.length ≤ k
    · rw [completed_cons_of_le hle, List.cons.injEq] at h
      rw [← h.1]
      exact ⟨hle, rest, rfl⟩
    · rw [completed_cons_of_lt (by omega)] at h
      cases h

/-- More of the stream arrives. -/
theorem completed_add (blocks : List (List α)) (k more : ℕ) :
    completed blocks (k + more) =
      completed blocks k ++ completed (ahead blocks k) (begun blocks k + more) := by
  induction blocks generalizing k with
  | nil => rfl
  | cons block rest ih =>
    by_cases h : block.length ≤ k
    · rw [completed_cons_of_le (by omega), completed_cons_of_le h, ahead, if_pos h, begun, if_pos h,
        List.cons_append, ← ih, Nat.sub_add_comm h]
    · rw [completed_cons_of_lt (show k < block.length by omega), ahead, if_neg h, begun, if_neg h,
        List.nil_append]

/-- What is still to come. -/
theorem drop_flatten (blocks : List (List α)) (k : ℕ) :
    blocks.flatten.drop k = (ahead blocks k).flatten.drop (begun blocks k) := by
  induction blocks generalizing k with
  | nil => simp [ahead]
  | cons block rest ih =>
    by_cases h : block.length ≤ k
    · rw [ahead, if_pos h, begun, if_pos h, ← ih, List.flatten_cons, List.drop_append,
        List.drop_eq_nil_of_le h, List.nil_append]
    · rw [ahead, if_neg h, begun, if_neg h]

theorem mem_of_mem_ahead {blocks : List (List α)} {k : ℕ} {block : List α}
    (h : block ∈ ahead blocks k) : block ∈ blocks := by
  induction blocks generalizing k with
  | nil => exact h
  | cons first rest ih =>
    unfold ahead at h
    split at h
    · exact List.mem_cons_of_mem _ (ih h)
    · exact h

end Blocks

end ServerCore.Foundation
