import Mathlib.Logic.Function.Basic
import Mathlib.Tactic.Common
import ServerCore.Server.Buffer

/-!
# Who holds a buffer

Any number of calls use one buffer: each takes the lock in `Produce` and gives it back in `Consume`. A call
that has the lock holds as many bytes as it produced, until `Consume` has withdrawn them. Whoever never
consumes holds them for ever.
-/

namespace ServerCore.Server

theorem sub32_self (a : ℕ) : sub32 a a = 0 := by
  unfold sub32
  rw [Nat.add_sub_cancel_left, Nat.mod_self]

namespace Buffer

theorem offset_withdraw (b : Buffer) (n : ℕ) : (b.withdraw n).offset = sub32 b.offset n :=
  rfl

-- Without the splits the offsets would be compared as well.
theorem locked_withdraw (b : Buffer) (n : ℕ) : (b.withdraw n).locked = b.locked := by
  obtain ⟨memory, size, offset, head, locked⟩ := b
  change _ = locked
  rfl

theorem size_withdraw (b : Buffer) (n : ℕ) : (b.withdraw n).size = b.size := by
  obtain ⟨memory, size, offset, head, locked⟩ := b
  change _ = size
  rfl

theorem size_unlock (b : Buffer) : b.unlock.size = b.size :=
  rfl

theorem size_consume {b after : Buffer} {n : ℕ} (hconsume : b.consume n = some after) :
    after.size = b.size := by
  obtain ⟨shifted, hshift, rfl⟩ := Option.map_eq_some_iff.mp hconsume
  obtain ⟨-, hshifted⟩ := Option.ite_none_right_eq_some.mp hshift
  calc
    (shifted.withdraw n).unlock.size = (shifted.withdraw n).size := size_unlock _
    _ = shifted.size := size_withdraw _ _
    _ = b.size := by rw [← Option.some.inj hshifted]

variable {ι : Type} {b after : Buffer} {amount : ι → Option ℕ} {i : ι} {n : ℕ}

/-- The calls that have the lock are those with an amount, one at most, and nothing else is in use. -/
structure HeldBy (b : Buffer) (amount : ι → Option ℕ) : Prop where
  held : b.locked = true → ∃ i, amount i ≠ none
  holder : ∀ i n, amount i = some n →
    b.locked = true ∧ b.offset = n ∧ ∀ j, amount j ≠ none → j = i
  empty : b.locked = false → b.offset = 0

theorem HeldBy.of_same (hb : b.HeldBy amount) (hlocked : after.locked = b.locked)
    (hoffset : after.offset = b.offset) : after.HeldBy amount := by
  constructor
  · rw [hlocked]
    exact hb.held
  · rw [hlocked, hoffset]
    exact hb.holder
  · rw [hlocked, hoffset]
    exact hb.empty

/-- A free buffer has no holder. -/
theorem HeldBy.none_of_free (hb : b.HeldBy amount) (hfree : b.locked = false) (j : ι) :
    amount j = none := by
  cases hj : amount j with
  | none => rfl
  | some m =>
    have hlocked := (hb.holder j m hj).1
    rw [hfree] at hlocked
    cases hlocked

variable [DecidableEq ι]

theorem HeldBy.produce (hb : b.HeldBy amount) (hn : n < 2 ^ 32)
    (hproduce : b.produce n = some after) : after.HeldBy (Function.update amount i (some n)) := by
  obtain ⟨hfree, rfl⟩ := produce_eq_some.mp hproduce
  have hnone := hb.none_of_free hfree
  have honly (j : ι) (hj : Function.update amount i (some n) j ≠ none) : j = i := by
    by_contra hne
    rw [Function.update_of_ne hne, hnone j] at hj
    exact hj rfl
  refine ⟨fun _ ↦ ⟨i, by simp⟩, ?_, ?_⟩
  · intro j m hj
    have hji := honly j (by simp [hj])
    subst hji
    rw [Function.update_self, Option.some.injEq] at hj
    refine ⟨rfl, ?_, honly⟩
    change (b.offset + n) % 2 ^ 32 = m
    rw [hb.empty hfree, Nat.zero_add, Nat.mod_eq_of_lt hn, hj]
  · intro hlocked
    cases hlocked

theorem HeldBy.withdraw (hb : b.HeldBy amount) (hi : amount i = some n) :
    (b.withdraw n).HeldBy (Function.update amount i (some 0)) := by
  obtain ⟨hlocked, hoffset, hsole⟩ := hb.holder i n hi
  have honly (j : ι) (hj : Function.update amount i (some 0) j ≠ none) : j = i := by
    by_contra hne
    rw [Function.update_of_ne hne] at hj
    exact hne (hsole j hj)
  have hzero : (b.withdraw n).offset = 0 := by
    rw [offset_withdraw, hoffset, sub32_self]
  refine ⟨fun _ ↦ ⟨i, by simp⟩, ?_, fun _ ↦ hzero⟩
  intro j m hj
  have hji := honly j (by simp [hj])
  subst hji
  rw [Function.update_self, Option.some.injEq] at hj
  rw [locked_withdraw]
  exact ⟨hlocked, hzero.trans hj, honly⟩

theorem HeldBy.unlock (hb : b.HeldBy amount) (hi : amount i = some 0) :
    b.unlock.HeldBy (Function.update amount i none) := by
  obtain ⟨-, hoffset, hsole⟩ := hb.holder i 0 hi
  have hnone (j : ι) : Function.update amount i none j = none := by
    by_cases hji : j = i
    · rw [hji, Function.update_self]
    · rw [Function.update_of_ne hji]
      by_contra hj
      exact hji (hsole j hj)
  refine ⟨fun hlocked ↦ ?_, fun j m hj ↦ ?_, fun _ ↦ hoffset⟩
  · cases hlocked
  · rw [hnone j] at hj
    cases hj

/-- The holder consumes what it has produced. -/
theorem HeldBy.consume (hb : b.HeldBy amount) (hi : amount i = some n)
    (hconsume : b.consume n = some after) : after.HeldBy (Function.update amount i none) := by
  obtain ⟨shifted, hshift, rfl⟩ := Option.map_eq_some_iff.mp hconsume
  obtain ⟨-, hshifted⟩ := Option.ite_none_right_eq_some.mp hshift
  have hmoved : shifted.HeldBy amount := by
    rw [← Option.some.inj hshifted]
    exact hb.of_same rfl rfl
  have hunlocked := (hmoved.withdraw hi).unlock (Function.update_self ..)
  rwa [Function.update_idem] at hunlocked

end Buffer

end ServerCore.Server
