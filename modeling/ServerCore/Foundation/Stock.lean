import Mathlib.Data.List.Nodup

/-!
# Stocks

A stock hands out its first item and takes items back at both ends. It never hands out its last item:
while that one alone is left, a request is answered from a delivery, whose other items go in front.
Without a delivery the request is refused.

The law proved here is about the place of an item that stays in stock: behind it, nothing changes but
what comes in at the end.
-/

namespace ServerCore.Foundation

universe u

/-- A request to a stock. `take` brings a delivery along, for a stock that is down to its last item. -/
inductive StockCall (α : Type u)
  | take (delivery : List α)
  | give (item : α)
  | giveLast (item : α)

namespace Stock

variable {α : Type u}

/-- What is handed out, and what is in stock afterwards. -/
def serve : List α → StockCall α → Option α × List α
  | first :: second :: rest, .take _ => (some first, second :: rest)
  | items, .take [] => (none, items)
  | items, .take (first :: rest) => (some first, rest ++ items)
  | items, .give item => (none, item :: items)
  | items, .giveLast item => (none, items ++ [item])

variable {items delivery : List α}

theorem serve_take_of_two {first second : α} {rest : List α} (hitems : items = first :: second :: rest) :
    serve items (.take delivery) = (some first, second :: rest) := by
  rw [hitems]
  rfl

theorem serve_take_nil (hfew : items.length ≤ 1) : serve items (.take []) = (none, items) := by
  rcases items with _ | ⟨first, _ | ⟨second, rest⟩⟩
  · rfl
  · rfl
  · simp at hfew

theorem serve_take_cons (hfew : items.length ≤ 1) (first : α) (rest : List α) :
    serve items (.take (first :: rest)) = (some first, rest ++ items) := by
  rcases items with _ | ⟨sole, _ | ⟨second, more⟩⟩
  · rfl
  · rfl
  · simp at hfew

@[simp]
theorem serve_give (item : α) : serve items (.give item) = (none, item :: items) := by
  rcases items with _ | ⟨first, _ | ⟨second, rest⟩⟩ <;> rfl

@[simp]
theorem serve_giveLast (item : α) : serve items (.giveLast item) = (none, items ++ [item]) := by
  rcases items with _ | ⟨first, _ | ⟨second, rest⟩⟩ <;> rfl

/-- How many items come in at the end. -/
def appended : StockCall α → ℕ
  | .take _ | .give _ => 0
  | .giveLast _ => 1

section Place

variable {x : α} {call : StockCall α}

/-- Nothing but the first item of at least two leaves a stock. -/
theorem mem_serve (hx : x ∈ items) (hkept : (serve items call).1 ≠ some x) :
    x ∈ (serve items call).2 := by
  cases call with
  | give item => simp [hx]
  | giveLast item => simp [hx]
  | take delivery =>
    rcases items with _ | ⟨first, _ | ⟨second, rest⟩⟩
    · simp at hx
    · cases delivery with
      | nil => exact hx
      | cons head tail => exact List.mem_append_right tail hx
    · simp only [serve, ne_eq, Option.some.injEq] at hkept ⊢
      exact (List.mem_cons.mp hx).resolve_left (Ne.symm hkept)

variable [DecidableEq α]

/-- Behind an item that stays, the stock changes at its end only. -/
theorem idxOf_serve (hx : x ∈ items) (hnodup : (serve items call).2.Nodup)
    (hkept : (serve items call).1 ≠ some x) :
    (serve items call).2.idxOf x + (items.length + appended call) =
      items.idxOf x + (serve items call).2.length := by
  cases call with
  | give item =>
    rw [serve_give] at hnodup ⊢
    have hne : item ≠ x := by
      rintro rfl
      exact (List.nodup_cons.mp hnodup).1 hx
    rw [List.idxOf_cons_ne _ hne, List.length_cons, appended]
    omega
  | giveLast item =>
    rw [serve_giveLast, List.idxOf_append_of_mem hx, List.length_append, appended]
    rfl
  | take delivery =>
    rcases items with _ | ⟨first, _ | ⟨second, rest⟩⟩
    · simp at hx
    · cases delivery with
      | nil => rfl
      | cons head tail =>
        have htail : x ∉ tail := by
          intro hmem
          exact (List.nodup_append.mp hnodup).2.2 x hmem x hx rfl
        simp only [serve, List.idxOf_append_of_notMem htail, List.length_append, appended]
        omega
    · simp only [serve, ne_eq, Option.some.injEq] at hkept
      simp only [serve, List.idxOf_cons_ne _ hkept, List.length_cons, appended]
      omega

/-- An item that was in stock is handed out exactly if it is the first of at least two. -/
theorem serve_take_eq_some_iff (hx : x ∈ items)
    (hhead : items.length ≤ 1 → delivery.head? ≠ some x) :
    (serve items (.take delivery)).1 = some x ↔ items.idxOf x = 0 ∧ 1 < items.length := by
  rcases items with _ | ⟨first, _ | ⟨second, rest⟩⟩
  · simp at hx
  · cases delivery with
    | nil => simp [serve]
    | cons head tail => simpa [serve] using hhead (Nat.le_refl 1)
  · by_cases hfirst : first = x
    · simp [serve, hfirst]
    · simp [serve, hfirst, List.idxOf_cons_ne _ hfirst]

end Place

end Stock

end ServerCore.Foundation
