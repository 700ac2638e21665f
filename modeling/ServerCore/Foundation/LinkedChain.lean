import Mathlib.Data.List.Chain
import Mathlib.Data.List.Basic
import Mathlib.Data.List.Iterate
import Mathlib.Data.List.Nodup

/-!
# Chains of intrusive links

`Linked next path` says that `next` leads from each element of `path` to the one after it; nothing is
said about the link of the last element. The lemmas are the edits of an intrusive list: take the
head, put a new head in front, splice a chain behind another one, change links elsewhere. A chain is
the orbit of its first node.
-/

namespace ServerCore.Foundation

variable {α : Type*}

/-- Following `next` from the first element runs through `path` in order. -/
def Linked (next : α → α) (path : List α) : Prop :=
  path.IsChain fun node after ↦ next node = after

@[simp]
theorem linked_nil (next : α → α) : Linked next [] := by
  simp [Linked]

@[simp]
theorem linked_singleton (next : α → α) (node : α) : Linked next [node] := by
  simp [Linked]

@[simp]
theorem linked_cons_cons (next : α → α) (node after : α) (rest : List α) :
    Linked next (node :: after :: rest) ↔ next node = after ∧ Linked next (after :: rest) := by
  simp [Linked]

theorem Linked.tail {next : α → α} {node : α} {rest : List α} (h : Linked next (node :: rest)) :
    Linked next rest :=
  List.IsChain.tail h

/-- Two chains join when the link of the last node of one is the first node of the other. -/
theorem linked_append {next : α → α} {front back : List α} :
    Linked next (front ++ back) ↔ Linked next front ∧ Linked next back ∧
      ∀ last ∈ front.getLast?, ∀ first ∈ back.head?, next last = first :=
  List.isChain_append

/-- A new node in front of a chain, linked to its first node. -/
theorem Linked.cons {next : α → α} {node : α} {path : List α} (h : Linked next path)
    (hlink : ∀ first ∈ path.head?, next node = first) : Linked next (node :: path) := by
  cases path with
  | nil => simp
  | cons first rest => exact (linked_cons_cons _ _ _ _).mpr ⟨hlink first (by simp), h⟩

/-- A chain reads the links of all its nodes but the last. -/
theorem Linked.congr {next next' : α → α} {path : List α} (h : Linked next path)
    (hsame : ∀ node ∈ path.dropLast, next' node = next node) : Linked next' path := by
  induction path with
  | nil => simp
  | cons node rest ih =>
    cases rest with
    | nil => simp
    | cons after rest =>
      rw [linked_cons_cons] at h ⊢
      constructor
      · rw [hsame node (by simp), h.1]
      · apply ih h.2
        intro other hother
        exact hsame other (by simp [hother])

/-- A chain is what iterating `next` from its first node visits. -/
theorem Linked.eq_iterate {next : α → α} {node : α} {rest : List α}
    (h : Linked next (node :: rest)) : node :: rest = List.iterate next node (rest.length + 1) := by
  induction rest generalizing node with
  | nil => rfl
  | cons after rest ih =>
    rw [linked_cons_cons] at h
    have hrest := ih h.2
    calc
      node :: after :: rest = node :: List.iterate next after (rest.length + 1) := by rw [← hrest]
      _ = List.iterate next node ((after :: rest).length + 1) := by rw [← h.1]; rfl

theorem getLast?_iterate (next : α → α) (node : α) (n : ℕ) :
    (List.iterate next node (n + 1)).getLast? = some (next^[n] node) := by
  rw [List.getLast?_eq_getElem?, List.length_iterate, Nat.add_sub_cancel,
    List.getElem?_iterate _ _ _ _ (Nat.lt_succ_self n)]

/-- An orbit that repeats no node reaches its last node at one place only. -/
theorem iterate_eq_iterate {next : α → α} {node : α} {m n : ℕ}
    (hlast : (List.iterate next node (m + 1)).getLast? =
      (List.iterate next node (n + 1)).getLast?)
    (hm : (List.iterate next node (m + 1)).Nodup) (hn : (List.iterate next node (n + 1)).Nodup) :
    m = n := by
  rw [getLast?_iterate, getLast?_iterate, Option.some.injEq] at hlast
  have hinjective (k : ℕ) (hk : (List.iterate next node (k + 1)).Nodup) (i j : ℕ) (hi : i ≤ k)
      (hj : j ≤ k) (heq : next^[i] node = next^[j] node) : i = j := by
    have hi' : i < (List.iterate next node (k + 1)).length := by
      rw [List.length_iterate]
      omega
    have hj' : j < (List.iterate next node (k + 1)).length := by
      rw [List.length_iterate]
      omega
    have hsame : (List.iterate next node (k + 1))[i] = (List.iterate next node (k + 1))[j] := by
      rw [List.getElem_iterate, List.getElem_iterate, heq]
    exact (List.Nodup.getElem_inj_iff hk).mp hsame
  rcases Nat.le_total m n with hle | hle
  · exact hinjective n hn m n hle le_rfl hlast
  · exact hinjective m hm m n le_rfl hle hlast

end ServerCore.Foundation
