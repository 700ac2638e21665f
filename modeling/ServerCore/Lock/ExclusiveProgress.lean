import ServerCore.Lock.ExclusiveLockHolder
import ServerCore.Lock.SpinlockProgress

/-!
# Progress of programs with exclusive scopes

A program that uses a spinlock through scopes of `ExclusiveLockHolder` only never counts a reader. `Orderly`
says where each thread stands in `Lock` and `Unlock`, and it gives what progress needs: while the lock is
set one thread holds it, and a thread in a constructor that finds the lock free, or holds it, gets in by
steps of its own.
-/

namespace ServerCore.Lock

open Foundation

/-- Where a thread can stand in the functions of the lock. -/
def LockUse.Fits : LockUse → Pc → Prop
  | .unused, pc => pc = .outside
  | .constructing, pc => pc = .outside ∨ pc = .lockExchange ∨ pc = .lockPoll ∨ pc = .writing
  | .inScope, pc | .destructing, pc => pc = .writing

namespace Spinlock

variable {T : Type} [DecidableEq T] {lock : Spinlock T} {use after : T → LockUse}
  {a : SpinlockStep T} {t : T}

/-- The lock of a program with exclusive scopes only. -/
structure Orderly (lock : Spinlock T) (use : T → LockUse) : Prop where
  sole : lock.Sole
  held : lock.Held
  unread : lock.reader = 0
  fits : ∀ t, (use t).Fits (lock.pc t)

omit [DecidableEq T] in
theorem orderly_initial (h : ∀ t, ¬ (use t).Entered) : (initial T).Orderly use where
  sole := sole_initial
  held := held_initial
  unread := rfl
  fits t := by
    cases huse : use t with
    | unused => rfl
    | constructing => exact Or.inl rfl
    | inScope => exact absurd (Or.inl huse) (h t)
    | destructing => exact absurd (Or.inr huse) (h t)

omit [DecidableEq T] in
/-- One thread goes on to where it may stand. -/
theorem Orderly.of_moved (hs : lock.Orderly use) (hother : ∀ u, u ≠ t → after u = use u)
    (hself : (after t).Fits (lock.pc t)) : lock.Orderly after where
  sole := hs.sole
  held := hs.held
  unread := hs.unread
  fits u := by
    by_cases hut : u = t
    · rw [hut]
      exact hself
    · rw [hother u hut]
      exact hs.fits u

/-- The lock takes a step of a constructor. -/
theorem Orderly.step_constructing (hs : lock.Orderly use) (hpc : lock.pc a.thread = a.pc)
    (huse : use a.thread = .constructing) (hallows : LockUse.constructing.Allows a) :
    (lock.effect a).Orderly use where
  sole := sole_step hpc hs.sole
  held := held_step hpc hs.held
  unread := by
    cases a with
    | callLock t | exchangeLock t | loadReader t => exact hs.unread
    | _ => exact absurd hallows id
  fits u := by
    by_cases hua : u = a.thread
    · rw [hua, huse]
      cases a with
      | callLock t => exact Or.inr (Or.inl (Function.update_self _ _ _))
      | exchangeLock t =>
        simp only [effect, SpinlockStep.thread, goto_pc, Function.update_self]
        split
        · exact Or.inr (Or.inr (Or.inl rfl))
        · exact Or.inr (Or.inl rfl)
      | loadReader t =>
        simp only [effect, SpinlockStep.thread, goto_pc, Function.update_self]
        split
        · exact Or.inr (Or.inr (Or.inr rfl))
        · exact Or.inr (Or.inr (Or.inl rfl))
      | _ => exact absurd hallows id
    · rw [effect_pc_of_ne lock a hua]
      exact hs.fits u

/-- The lock takes the step of a destructor. -/
theorem Orderly.step_destructing (hs : lock.Orderly use) (hpc : lock.pc a.thread = a.pc)
    (hallows : LockUse.destructing.Allows a) (hother : ∀ u, u ≠ a.thread → after u = use u)
    (hself : ¬ (after a.thread).Entered) : (lock.effect a).Orderly after where
  sole := sole_step hpc hs.sole
  held := held_step hpc hs.held
  unread := by
    cases a with
    | exchangeUnlock t => exact hs.unread
    | _ => exact absurd hallows id
  fits u := by
    by_cases hua : u = a.thread
    · have houtside : (lock.effect a).pc u = .outside := by
        rw [hua]
        cases a with
        | exchangeUnlock t => exact Function.update_self _ _ _
        | _ => exact absurd hallows id
      rw [hua] at houtside ⊢
      rw [houtside]
      cases huse : after a.thread with
      | unused => rfl
      | constructing => exact Or.inl rfl
      | inScope => exact absurd (Or.inl huse) hself
      | destructing => exact absurd (Or.inr huse) hself
    · rw [hother u hua, effect_pc_of_ne lock a hua]
      exact hs.fits u

omit [DecidableEq T] in
theorem Orderly.writing_of_entered (hs : lock.Orderly use) (ht : (use t).Entered) :
    lock.pc t = .writing := by
  have hfits := hs.fits t
  rcases ht with huse | huse
  · rwa [huse] at hfits
  · rwa [huse] at hfits

/-- The thread gets the lock from one state to the other by steps of a constructor. -/
def Enters (lock : Spinlock T) (t : T) (entered : Spinlock T) : Prop :=
  ∃ steps, (∀ a ∈ steps, a.thread = t ∧ LockUse.constructing.Allows a) ∧
    System.replay step lock steps = some entered

theorem Enters.refl (lock : Spinlock T) (t : T) : lock.Enters t lock :=
  ⟨[], by simp, rfl⟩

theorem Enters.cons {middle entered : Spinlock T} (hpc : lock.pc a.thread = a.pc)
    (hmiddle : lock.effect a = middle) (hallows : LockUse.constructing.Allows a)
    (h : middle.Enters a.thread entered) : lock.Enters a.thread entered := by
  obtain ⟨steps, hsteps, hreplay⟩ := h
  refine ⟨a :: steps, List.forall_mem_cons.mpr ⟨⟨rfl, hallows⟩, hsteps⟩, ?_⟩
  rw [System.replay, step_eq_some.mpr ⟨hpc, hmiddle⟩, Option.bind_some, hreplay]

theorem enters_of_poll (hpc : lock.pc t = .lockPoll) (hunread : lock.reader = 0) :
    lock.Enters t (lock.goto t .writing) := by
  apply Enters.cons (a := .loadReader t) hpc _ trivial (Enters.refl _ t)
  rw [effect, if_pos hunread]

theorem enters_of_exchange (hpc : lock.pc t = .lockExchange) (hfree : lock.lock = 0)
    (hunread : lock.reader = 0) :
    lock.Enters t (({ lock with lock := 1 }.goto t .lockPoll).goto t .writing) := by
  have hnext : ({ lock with lock := 1 }.goto t .lockPoll).Enters t _ :=
    enters_of_poll (Function.update_self _ _ _) hunread
  apply Enters.cons (a := .exchangeLock t) hpc _ trivial hnext
  rw [effect, if_pos hfree]

/-- A thread in a constructor that holds the lock, or finds it free, gets in by its own steps. -/
theorem Orderly.entrance (hs : lock.Orderly use) (huse : use t = .constructing)
    (hmay : lock.lock = 0 ∨ lock.Holds t) :
    ∃ entered, lock.Enters t entered ∧ entered.pc t = .writing := by
  have hfree (hnot : ¬ lock.Holds t) : lock.lock = 0 := hmay.resolve_right hnot
  have hfits := hs.fits t
  rw [huse] at hfits
  rcases hfits with houtside | htrying | hpolling | hwriting
  · have hnext : (lock.goto t .lockExchange).Enters t _ := enters_of_exchange
      (Function.update_self _ _ _) (hfree (by simp [Holds, houtside])) hs.unread
    exact ⟨_, Enters.cons (a := .callLock t) houtside rfl trivial hnext, Function.update_self _ _ _⟩
  · exact ⟨_, enters_of_exchange htrying (hfree (by simp [Holds, htrying])) hs.unread,
      Function.update_self _ _ _⟩
  · exact ⟨_, enters_of_poll hpolling hs.unread, Function.update_self _ _ _⟩
  · exact ⟨lock, Enters.refl lock t, hwriting⟩

end Spinlock

end ServerCore.Lock
