import Mathlib.Algebra.BigOperators.Group.Finset.Basic
import Mathlib.Algebra.Order.BigOperators.Group.Finset
import ServerCore.Foundation.Progress
import ServerCore.Lock.Spinlock

/-!
# The reader-writer spinlock does not deadlock

Whatever has happened, the threads inside `Lock`, `ReadLock` and their critical sections get through
without new calls: each of them can be let in, and in the end all are outside and both counters are
zero. Readers that are counted leave first, then the holder of `lock_`, and a waiting thread is let in
only when nobody holds the lock; every such step brings some thread closer to the outside.
-/

namespace ServerCore.Lock

open Foundation

namespace Pc

/-- How many steps a thread is away from the outside if nobody is in its way. -/
def rank : Pc → ℕ
  | .outside => 0
  | .writing | .reading => 1
  | .lockPoll | .readIncrement => 2
  | .lockExchange | .readTest => 3

/-- What a thread inside `Lock` or `ReadLock` waits for. -/
def target : Pc → Pc
  | .lockExchange | .lockPoll => .writing
  | .readTest | .readIncrement => .reading
  | pc => pc

end Pc

namespace Spinlock

variable {T : Type} [DecidableEq T]

/-- The steps of the threads that are inside, without new calls. -/
def settling (T : Type) [DecidableEq T] : System (Spinlock T) (SpinlockStep T) where
  init s := s = initial T
  step s a after := s.step a = some after ∧ a.pc ≠ .outside

variable {s : Spinlock T}

/-- `lock_` is set only while somebody holds it. -/
def Held (s : Spinlock T) : Prop :=
  s.lock ≠ 0 → ∃ thread, s.Holds thread

omit [DecidableEq T] in
theorem held_initial : (initial T).Held :=
  fun hset ↦ absurd rfl hset

theorem held_step {a : SpinlockStep T} (hpc : s.pc a.thread = a.pc) (hs : s.Held) :
    (s.effect a).Held := by
  intro hset
  cases a with
  | exchangeUnlock t => exact absurd rfl hset
  | loadReader t =>
    refine ⟨t, ?_⟩
    by_cases hzero : s.reader = 0
    · exact Or.inr (by simp [effect, hzero])
    · exact Or.inl (by simp only [effect, if_neg hzero, goto_pc, Function.update_self])
  | exchangeLock t =>
    by_cases hfree : s.lock = 0
    · exact ⟨t, by simp [effect, Holds, hfree]⟩
    · obtain ⟨holder, hholds⟩ := hs hfree
      have hne : holder ≠ t := by
        rintro rfl
        simp [Holds, show s.pc holder = .lockExchange from hpc] at hholds
      exact ⟨holder, by simpa [Holds, effect, hne] using hholds⟩
  | callLock t | callReadLock t | loadLock t | incrementReader t | decrementReader t =>
    obtain ⟨holder, hholds⟩ := hs hset
    have hne : holder ≠ t := by
      rintro rfl
      have hsame : s.pc holder = _ := hpc
      simp [Holds, hsame, SpinlockStep.pc] at hholds
    exact ⟨holder, by simpa [Holds, effect, hne] using hholds⟩

variable [Fintype T]

/-- What progress rests on. -/
structure Live (s : Spinlock T) : Prop where
  accounting : s.Accounting
  held : s.Held

theorem live_step {a : SpinlockStep T} (hpc : s.pc a.thread = a.pc) (hs : s.Live) :
    (s.effect a).Live :=
  ⟨accounting_step hpc hs.accounting, held_step hpc hs.held⟩

theorem live_of_reachable (hreach : (system T).Reachable s) : s.Live := by
  apply hreach.invariant Live
  · rintro state rfl
    exact ⟨accounting_initial, held_initial⟩
  · intro state a after hs hstep
    obtain ⟨hpc, rfl⟩ := step_eq_some.mp hstep
    exact live_step hpc hs

/-- The steps that all threads together are away from the outside. -/
def remaining (s : Spinlock T) : ℕ :=
  ∑ thread, (s.pc thread).rank

/-- A step that brings its thread closer to the outside. -/
def Advances (s : Spinlock T) (a : SpinlockStep T) : Prop :=
  s.pc a.thread = a.pc ∧ ((s.effect a).pc a.thread).rank < a.pc.rank

theorem remaining_effect {a : SpinlockStep T} (hadvances : s.Advances a) :
    (s.effect a).remaining < s.remaining := by
  obtain ⟨hpc, hless⟩ := hadvances
  apply Finset.sum_lt_sum
  · intro thread _
    by_cases hthread : thread = a.thread
    · rw [hthread, hpc]
      exact hless.le
    · rw [effect_pc_of_ne s a hthread]
  · exact ⟨a.thread, Finset.mem_univ _, by rwa [hpc]⟩

omit [Fintype T] in
theorem settling_step_of_advances {a : SpinlockStep T} (hadvances : s.Advances a) :
    (settling T).step s a (s.effect a) := by
  refine ⟨step_eq_some.mpr ⟨hadvances.1, rfl⟩, ?_⟩
  intro houtside
  have hless := hadvances.2
  rw [houtside] at hless
  exact Nat.not_lt_zero _ hless

/-- The holder of the lock gets on once no reader is left. -/
theorem Live.holder_advances (hs : s.Live) (hreaders : s.readers = ∅) {holder : T}
    (hholds : s.Holds holder) : ∃ a, s.Advances a := by
  rcases hholds with hpoll | hwriting
  · have hzero : s.reader = 0 := by
      rw [hs.accounting.counted, hreaders]
      rfl
    exact ⟨.loadReader holder, hpoll, by simp [effect, hzero, SpinlockStep.thread, SpinlockStep.pc,
      Pc.rank]⟩
  · exact ⟨.exchangeUnlock holder, hwriting, by simp [effect, SpinlockStep.thread, SpinlockStep.pc,
      Pc.rank]⟩

/-- Wherever the threads are, one of those inside gets on. -/
theorem Live.exists_advance (hs : s.Live) {thread : T} (hinside : s.pc thread ≠ .outside) :
    ∃ a, s.Advances a := by
  by_cases hreading : ∃ reader, s.pc reader = .reading
  · obtain ⟨reader, hreader⟩ := hreading
    exact ⟨.decrementReader reader, hreader, by simp [effect, SpinlockStep.thread, SpinlockStep.pc,
      Pc.rank]⟩
  · have hempty : s.readers = ∅ := by
      apply Finset.filter_eq_empty_iff.mpr
      intro reader _ hreader
      exact hreading ⟨reader, hreader⟩
    by_cases hholder : ∃ holder, s.Holds holder
    · obtain ⟨holder, hholds⟩ := hholder
      exact hs.holder_advances hempty hholds
    · have hfree : s.lock = 0 := by
        by_contra hset
        exact hholder (hs.held hset)
      cases hpc : s.pc thread with
      | outside => exact absurd hpc hinside
      | reading => exact absurd ⟨thread, hpc⟩ hreading
      | lockPoll => exact absurd ⟨thread, Or.inl hpc⟩ hholder
      | writing => exact absurd ⟨thread, Or.inr hpc⟩ hholder
      | lockExchange =>
        exact ⟨.exchangeLock thread, hpc, by simp [effect, hfree, SpinlockStep.thread,
          SpinlockStep.pc, Pc.rank]⟩
      | readTest =>
        exact ⟨.loadLock thread, hpc, by simp [effect, hfree, SpinlockStep.thread,
          SpinlockStep.pc, Pc.rank]⟩
      | readIncrement =>
        exact ⟨.incrementReader thread, hpc, by simp [effect, SpinlockStep.thread,
          SpinlockStep.pc, Pc.rank]⟩

/-- Until all are outside, some steps bring the threads closer to it. -/
theorem Live.quiescent (hs : s.Live) :
    (settling T).CanReach (fun after ↦ after.Live ∧ ∀ thread, after.pc thread = .outside) s := by
  apply System.CanReach.of_measure Live remaining _ hs
  intro state hstate hgoal
  have hinside : ∃ thread, state.pc thread ≠ .outside := by
    by_contra hall
    exact hgoal ⟨hstate, by simpa using hall⟩
  obtain ⟨thread, hthread⟩ := hinside
  obtain ⟨a, hadvances⟩ := hstate.exists_advance hthread
  exact ⟨_, .of_step (settling_step_of_advances hadvances),
    Or.inr ⟨live_step hadvances.1 hstate, remaining_effect hadvances⟩⟩

omit [Fintype T] in
/-- A thread on its way in keeps its target. -/
theorem target_effect {a : SpinlockStep T} (hadvances : s.Advances a)
    (hwaiting : a.pc ≠ a.pc.target) :
    ((s.effect a).pc a.thread).target = a.pc.target := by
  cases a with
  | exchangeLock t | loadReader t | loadLock t =>
    simp only [effect, SpinlockStep.thread, goto_pc, Function.update_self]
    split <;> rfl
  | incrementReader t => simp [effect, SpinlockStep.thread, SpinlockStep.pc, Pc.target]
  | callLock t | callReadLock t | exchangeUnlock t | decrementReader t =>
    exact absurd rfl hwaiting

/-- A thread on its way in can be let in. -/
theorem Live.granted (hs : s.Live) (thread : T) :
    (settling T).CanReach (fun after ↦ after.pc thread = (s.pc thread).target) s := by
  apply System.CanReach.of_measure
    (fun state ↦ state.Live ∧ (state.pc thread).target = (s.pc thread).target) remaining _ ⟨hs, rfl⟩
  rintro state ⟨hstate, htarget⟩ hgoal
  rw [← htarget] at hgoal
  have hinside : state.pc thread ≠ .outside := by
    intro houtside
    rw [houtside] at hgoal
    exact hgoal rfl
  obtain ⟨a, hadvances⟩ := hstate.exists_advance hinside
  refine ⟨_, .of_step (settling_step_of_advances hadvances),
    Or.inr ⟨⟨live_step hadvances.1 hstate, ?_⟩, remaining_effect hadvances⟩⟩
  rw [← htarget]
  by_cases hthread : thread = a.thread
  · rw [hthread, hadvances.1] at hgoal ⊢
    exact target_effect hadvances hgoal
  · rw [effect_pc_of_ne state a hthread]

/-- **No deadlock.** Whatever any threads have done with the lock, the threads that are inside need no
new call to get through: each one that waits in `Lock` or `ReadLock` can be let in, and all of them can
leave, after which both counters are zero. -/
theorem deadlock_free (hreach : (system T).Reachable s) :
    (∀ thread, (settling T).CanReach (fun after ↦ after.pc thread = (s.pc thread).target) s) ∧
      (settling T).CanReach (fun after ↦ after.lock = 0 ∧ after.reader = 0 ∧
        ∀ thread, after.pc thread = .outside) s := by
  have hs := live_of_reachable hreach
  refine ⟨hs.granted, hs.quiescent.mono ?_⟩
  rintro after ⟨hlive, houtside⟩
  refine ⟨?_, ?_, houtside⟩
  · by_contra hset
    obtain ⟨holder, hholds⟩ := hlive.held hset
    simp [Holds, houtside] at hholds
  · have hempty : after.readers = ∅ := by
      apply Finset.filter_eq_empty_iff.mpr
      intro reader _ hreader
      rw [houtside] at hreader
      cases hreader
    rw [hlive.accounting.counted, hempty]
    rfl

/-- The theorem applied where a reader has joined a writer. -/
theorem deadlock_free_overtaken :
    ∃ s, (system (Fin 2)).Reachable s ∧ (s.pc 1 = .writing ∧ s.pc 0 = .reading) ∧
      (∀ thread, (settling (Fin 2)).CanReach (fun after ↦ after.pc thread = (s.pc thread).target) s) ∧
      (settling (Fin 2)).CanReach (fun after ↦ after.lock = 0 ∧ after.reader = 0 ∧
        ∀ thread, after.pc thread = .outside) s := by
  have hreplay : (System.replay step (initial (Fin 2)) overtaken).map
      (fun s ↦ decide (s.pc 1 = .writing ∧ s.pc 0 = .reading)) = some true := by decide
  obtain ⟨history, s, hrun, htest⟩ := System.exists_run_of_replay
    (fun s ↦ s = initial (Fin 2)) rfl hreplay
  have hreach : (system (Fin 2)).Reachable s := ⟨history, hrun⟩
  exact ⟨s, hreach, of_decide_eq_true htest, deadlock_free hreach⟩

end Spinlock

end ServerCore.Lock
