import ServerCore.Lock.Spinlock

/-!
# Scopes of an `ExclusiveLockHolder`

The constructor of an `ExclusiveLockHolder` calls `Lock` and its destructor `Unlock`. A program that
uses a spinlock through such scopes only is described by what each of its threads is doing with the
lock. `Guards` connects this with the state of the lock: whoever is in a scope holds the lock, and
nobody else does. The rules keep it while the threads move and the lock takes its steps.
-/

namespace ServerCore.Lock

/-- What a thread does with the lock: nothing, the constructor, the statements of the scope, or the
destructor. -/
inductive LockUse
  | unused
  | constructing
  | inScope
  | destructing
  deriving DecidableEq, Repr

namespace LockUse

/-- The steps of the lock that belong to what the thread does. -/
def Allows {T : Type} : LockUse → SpinlockStep T → Prop
  | .constructing, .callLock _ | .constructing, .exchangeLock _ | .constructing, .loadReader _ =>
    True
  | .destructing, .exchangeUnlock _ => True
  | _, _ => False

instance {T : Type} (use : LockUse) (a : SpinlockStep T) : Decidable (use.Allows a) := by
  unfold Allows
  split <;> infer_instance

/-- The thread is through with the constructor and not with the destructor. -/
def Entered (use : LockUse) : Prop :=
  use = .inScope ∨ use = .destructing

instance (use : LockUse) : Decidable use.Entered :=
  inferInstanceAs (Decidable (_ ∨ _))

end LockUse

namespace Spinlock

variable {T : Type} {lock : Spinlock T} {use after : T → LockUse}

/-- A thread that has entered a scope holds the lock, and the lock has one holder. -/
structure Guards (lock : Spinlock T) (use : T → LockUse) : Prop where
  sole : lock.Sole
  entered : ∀ t, (use t).Entered → lock.pc t = .writing

theorem guards_initial (h : ∀ t, ¬ (use t).Entered) : (initial T).Guards use where
  sole := sole_initial
  entered t ht := absurd ht (h t)

/-- Nobody else has entered a scope while a thread holds the lock. -/
theorem Guards.eq_of_entered (hs : lock.Guards use) {t u : T} (ht : lock.pc t = .writing)
    (hu : (use u).Entered) : u = t :=
  hs.sole.unique u t (Or.inr (hs.entered u hu)) (Or.inr ht)

/-- One thread goes on: it enters a scope only with the lock. -/
theorem Guards.of_moved (hs : lock.Guards use) {t : T} (hother : ∀ u, u ≠ t → after u = use u)
    (hself : (after t).Entered → lock.pc t = .writing) : lock.Guards after where
  sole := hs.sole
  entered u hu := by
    by_cases hut : u = t
    · rw [hut] at hu ⊢
      exact hself hu
    · rw [hother u hut] at hu
      exact hs.entered u hu

/-- The lock takes a step of a thread that has not entered a scope afterwards: one of a constructor,
or the last one of a destructor. -/
theorem Guards.step [DecidableEq T] (hs : lock.Guards use) {a : SpinlockStep T}
    (hpc : lock.pc a.thread = a.pc) (hother : ∀ u, u ≠ a.thread → after u = use u)
    (hself : ¬ (after a.thread).Entered) : (lock.effect a).Guards after where
  sole := sole_step hpc hs.sole
  entered u hu := by
    have hua : u ≠ a.thread := by
      rintro rfl
      exact hself hu
    rw [hother u hua] at hu
    rw [effect_pc_of_ne _ _ hua]
    exact hs.entered u hu

end Spinlock

end ServerCore.Lock
