import Mathlib.Data.Set.Insert
import Mathlib.Logic.Function.Basic

/-!
# Resources that their takers do not give back

Each party has resources before it that it takes one after the other. It does not give them back: only a
server can do that, and only when it has nothing to take itself. `Sufficient` says of a party that what it
has before it is free, each resource once, so that it gets through by itself.

A party that is not sufficient, while no server is, stays so whatever is done: taking makes resources
scarcer, and nobody is there to give any back.
-/

namespace ServerCore.Foundation

universe u v

variable {P : Type u} {R : Type v}

/-- What is needed is free, each resource once. -/
structure Sufficient (free : Set R) (needs : List R) : Prop where
  nodup : needs.Nodup
  subset : ∀ r ∈ needs, r ∈ free

namespace Sufficient

variable {free less : Set R} {needs rest : List R} {r : R}

theorem nil (free : Set R) : Sufficient free [] :=
  ⟨List.nodup_nil, fun _ h ↦ absurd h List.not_mem_nil⟩

theorem mono (h : Sufficient less needs) (hless : less ⊆ free) : Sufficient free needs :=
  ⟨h.nodup, fun r hr ↦ hless (h.subset r hr)⟩

/-- The first resource can be taken, and the rest is sufficient without it. -/
theorem cons_iff : Sufficient free (r :: rest) ↔ r ∈ free ∧ Sufficient (free \ {r}) rest := by
  constructor
  · intro h
    obtain ⟨hnot, hnodup⟩ := List.nodup_cons.mp h.nodup
    refine ⟨h.subset r List.mem_cons_self, hnodup, fun d hd ↦ ⟨h.subset d (List.mem_cons_of_mem r hd), ?_⟩⟩
    rintro rfl
    exact hnot hd
  · rintro ⟨hfree, h⟩
    refine ⟨List.nodup_cons.mpr ⟨fun hr ↦ (h.subset r hr).2 rfl, h.nodup⟩, ?_⟩
    exact List.forall_mem_cons.mpr ⟨hfree, fun d hd ↦ (h.subset d hd).1⟩

end Sufficient

variable [DecidableEq P]

/-- What can happen to the needs of the parties and to the free resources. -/
inductive Move (server : P → Prop) (needs : P → List R) (free : Set R) :
    (P → List R) → Set R → Prop
  | keep : Move server needs free needs free
  | take (p : P) (r : R) (rest : List R) (hneeds : needs p = r :: rest) (hfree : r ∈ free) :
      Move server needs free (Function.update needs p rest) (free \ {r})
  | turn (p : P) (next : List R) (hneeds : needs p = []) :
      Move server needs free (Function.update needs p next) free
  | serve (p : P) (more : Set R) (hserver : server p) (hneeds : needs p = []) :
      Move server needs free needs more

namespace Move

variable {server : P → Prop} {needs needs' : P → List R} {free free' : Set R}

/-- While no server is sufficient nobody becomes it. -/
theorem insufficient (h : Move server needs free needs' free')
    (hserver : ∀ p, server p → ¬ Sufficient free (needs p)) {p : P}
    (hp : ¬ Sufficient free (needs p)) : ¬ Sufficient free' (needs' p) := by
  cases h with
  | keep => exact hp
  | take q r rest hneeds hfree =>
    intro hafter
    apply hp
    by_cases hpq : p = q
    · rw [hpq, Function.update_self] at hafter
      rw [hpq, hneeds]
      exact Sufficient.cons_iff.mpr ⟨hfree, hafter⟩
    · rw [Function.update_of_ne hpq] at hafter
      exact hafter.mono fun d hd ↦ hd.1
  | turn q next hneeds =>
    have hpq : p ≠ q := by
      rintro rfl
      exact hp (hneeds ▸ Sufficient.nil free)
    rwa [Function.update_of_ne hpq]
  | serve q more hq hneeds => exact absurd (hneeds ▸ Sufficient.nil free) (hserver q hq)

/-- Who needs a resource that is not free still needs it. -/
theorem mem_needs (h : Move server needs free needs' free') {p : P} {r : R} (hr : r ∈ needs p)
    (hlocked : r ∉ free) : r ∈ needs' p := by
  cases h with
  | keep | serve => exact hr
  | take q d rest hneeds hfree =>
    by_cases hpq : p = q
    · rw [hpq, hneeds, List.mem_cons] at hr
      rw [hpq, Function.update_self]
      rcases hr with rfl | hr
      · exact absurd hfree hlocked
      · exact hr
    · rwa [Function.update_of_ne hpq]
  | turn q next hneeds =>
    have hpq : p ≠ q := by
      rintro rfl
      rw [hneeds] at hr
      exact List.not_mem_nil hr
    rwa [Function.update_of_ne hpq]

end Move

end ServerCore.Foundation
