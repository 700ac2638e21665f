import Mathlib.Data.List.Nodup
import ServerCore.Foundation.Hands
import ServerCore.ThreadManager.ThreadPool

/-!
# Every accepted task is run once

The invariant has three parts. `Locked` says what a thread may rely on while it is in its scope: a
queue that it has seen filled is filled, a pool that it has seen running is not stopped, and a pool
that a worker has left is stopped and empty. `Answered` says that the tasks offered are accepted or
refused, and not both. `Handled` says where the accepted tasks are. The main theorem reads the claims
of the pool off these.
-/

namespace ServerCore.ThreadManager

open Foundation Lock

/-- Where an accepted task is. -/
inductive TaskPlace (threadAmount : ℕ)
  | queued
  | held (w : Fin threadAmount)
  | finished
  deriving DecidableEq, Repr

namespace ThreadPool

variable {threadAmount : ℕ} {E : Type} {s after : ThreadPool threadAmount E}

def At (s : ThreadPool threadAmount E) (task : ℕ) : TaskPlace threadAmount → Prop
  | .queued => task ∈ s.tasks
  | .held w => (s.worker w).task = some task
  | .finished => task ∈ s.finished

/-- What the pool promises: an accepted task is in one place, once, the tasks are taken in the order in
which they were accepted, a worker that is going to take a task finds one, each call of `Enqueue` that
is through has accepted its task or thrown, and when all workers have returned every accepted task has
been run once. -/
structure RunsOnce (s : ThreadPool threadAmount E) : Prop where
  place : ∀ task ∈ s.accepted, ∃! place, s.At task place
  only : ∀ task place, s.At task place → task ∈ s.accepted
  nodup : s.tasks.Nodup ∧ s.finished.Nodup
  ordered : s.accepted = s.taken ++ s.tasks
  ready : ∀ w, s.worker w = .taking → s.tasks ≠ []
  answered : ∀ task < s.created, (∀ e, (s.enqueuer e).task ≠ some task) →
    (task ∈ s.accepted ↔ task ∉ s.refused)
  drained : (∀ w, s.worker w = .returned) → ∀ task ∈ s.accepted, s.finished.count task = 1

/-! ## The steps, inverted -/

variable [DecidableEq E]

/-- All that a step can do. -/
inductive PoolStep (s : ThreadPool threadAmount E) : ThreadPool threadAmount E → Prop
  | callEnqueue {e : E} (hpc : s.enqueuer e = .outside) :
      PoolStep s ({ s with created := s.created + 1 }.gotoEnqueuer e (.locking s.created))
  | callDestructor (hpc : s.destructor = .outside) :
      PoolStep s { s with destructor := .locking }
  | lock {a : SpinlockStep (Party threadAmount E)} (hpc : s.spinlock.pc a.thread = a.pc)
      (huse : ¬ (s.lockUse a.thread).Entered) :
      PoolStep s { s with spinlock := s.spinlock.effect a }
  | unlock {a : SpinlockStep (Party threadAmount E)} (hpc : s.spinlock.pc a.thread = a.pc)
      (huse : s.lockUse a.thread = .destructing) :
      PoolStep s ({ s with spinlock := s.spinlock.effect a }.unlocked a.thread)
  | leave {w : Fin threadAmount} (hpc : s.worker w = .locking)
      (hlock : s.spinlock.pc (.worker w) = .writing) (hstop : s.stop = true) (hempty : s.tasks = []) :
      PoolStep s (s.gotoWorker w .leaving)
  | find {w : Fin threadAmount} (hpc : s.worker w = .locking)
      (hlock : s.spinlock.pc (.worker w) = .writing) (hfull : s.tasks ≠ []) :
      PoolStep s (s.gotoWorker w .taking)
  | miss {w : Fin threadAmount} (hpc : s.worker w = .locking)
      (hlock : s.spinlock.pc (.worker w) = .writing) : PoolStep s (s.gotoWorker w (.unlocking none))
  | take {w : Fin threadAmount} {task : ℕ} {rest : List ℕ} (hpc : s.worker w = .taking)
      (htasks : s.tasks = task :: rest) :
      PoolStep s ({ s with tasks := rest, taken := s.taken ++ [task] }.gotoWorker w
        (.unlocking (some task)))
  | run {w : Fin threadAmount} {task : ℕ} (hpc : s.worker w = .running task) :
      PoolStep s ({ s with finished := s.finished ++ [task] }.gotoWorker w .locking)
  | refuse {e : E} {task : ℕ} (hpc : (s.enqueuer e).task = some task)
      (hlock : s.spinlock.pc (.enqueuer e) = .writing ∨ s.enqueuer e = .emplacing task) :
      PoolStep s ({ s with refused := s.refused ++ [task] }.gotoEnqueuer e .unlocking)
  | offer {e : E} {task : ℕ} (hpc : s.enqueuer e = .locking task)
      (hlock : s.spinlock.pc (.enqueuer e) = .writing) (hstop : s.stop = false) :
      PoolStep s (s.gotoEnqueuer e (.emplacing task))
  | accept {e : E} {task : ℕ} (hpc : s.enqueuer e = .emplacing task) :
      PoolStep s ({ s with tasks := s.tasks ++ [task], accepted := s.accepted ++ [task] }.gotoEnqueuer
        e .unlocking)
  | stop (hpc : s.destructor = .locking) (hlock : s.spinlock.pc .destructor = .writing) :
      PoolStep s { s with stop := true, destructor := .unlocking }
  | join {w : Fin threadAmount} {rest : List (Fin threadAmount)}
      (hpc : s.destructor = .joining (w :: rest)) (hreturned : s.worker w = .returned) : PoolStep s { s with destructor := .joining rest }

theorem poolStep_workerStep {w : Fin threadAmount}
    (hstep : s.workerStep w = some after) : s.PoolStep after := by
  unfold workerStep at hstep
  split at hstep
  case h_1 hpc =>
    obtain ⟨hlock, hstep⟩ := Option.ite_none_right_eq_some.mp hstep
    rw [← Option.some.inj hstep]
    split
    case isTrue hleave => exact .leave hpc hlock hleave.1 hleave.2
    case isFalse =>
      split
      case isTrue hfull => exact .find hpc hlock hfull
      case isFalse => exact .miss hpc hlock
  case h_2 hpc =>
    split at hstep
    case h_1 => cases hstep
    case h_2 task rest htasks =>
      rw [← Option.some.inj hstep]
      exact .take hpc htasks
  case h_3 task hpc =>
    rw [← Option.some.inj hstep]
    exact .run hpc
  all_goals cases hstep

theorem poolStep_enqueuerStep {e : E} {allocated : Bool}
    (hstep : s.enqueuerStep e allocated = some after) : s.PoolStep after := by
  unfold enqueuerStep at hstep
  split at hstep
  case h_1 task hpc =>
    obtain ⟨hlock, hstep⟩ := Option.ite_none_right_eq_some.mp hstep
    rw [← Option.some.inj hstep]
    split
    case isTrue => exact .refuse (by rw [hpc]; rfl) (Or.inl hlock)
    case isFalse hstop => exact .offer hpc hlock (by simpa using hstop)
  case h_2 task hpc =>
    rw [← Option.some.inj hstep]
    split
    case isTrue => exact .accept hpc
    case isFalse => exact .refuse (by rw [hpc]; rfl) (Or.inr hpc)
  all_goals cases hstep

theorem poolStep_spinlockStep {a : SpinlockStep (Party threadAmount E)}
    (hstep : s.spinlockStep a = some after) : s.PoolStep after := by
  obtain ⟨hallows, hstep⟩ := Option.ite_none_right_eq_some.mp hstep
  obtain ⟨lock, hlock, hafter⟩ := Option.map_eq_some_iff.mp hstep
  obtain ⟨hpc, rfl⟩ := Spinlock.step_eq_some.mp hlock
  rw [← hafter]
  split
  case isTrue huse => exact .unlock hpc huse
  case isFalse huse =>
    refine .lock hpc ?_
    rintro (hin | hout)
    · rw [hin] at hallows
      cases a <;> exact hallows
    · exact huse hout

theorem poolStep_destructorStep (hstep : s.destructorStep = some after) : s.PoolStep after := by
  unfold destructorStep at hstep
  split at hstep
  case h_1 hpc =>
    obtain ⟨hlock, hafter⟩ := Option.ite_none_right_eq_some.mp hstep
    exact Option.some.inj hafter ▸ .stop hpc hlock
  case h_2 w rest hpc =>
    obtain ⟨hreturned, hafter⟩ := Option.ite_none_right_eq_some.mp hstep
    exact Option.some.inj hafter ▸ .join hpc hreturned
  all_goals cases hstep

theorem poolStep_of_step {action : ThreadPoolStep threadAmount E}
    (hstep : s.step action = some after) : s.PoolStep after := by
  cases action with
  | callEnqueue e =>
    obtain ⟨hpc, hafter⟩ := Option.ite_none_right_eq_some.mp hstep
    exact Option.some.inj hafter ▸ .callEnqueue hpc
  | callDestructor =>
    obtain ⟨hpc, hafter⟩ := Option.ite_none_right_eq_some.mp hstep
    exact Option.some.inj hafter ▸ .callDestructor hpc
  | spinlock a => exact poolStep_spinlockStep hstep
  | worker w => exact poolStep_workerStep hstep
  | enqueuer e allocated => exact poolStep_enqueuerStep hstep
  | destructor => exact poolStep_destructorStep hstep

/-! ## The lock -/

omit [DecidableEq E] in
theorem guards_initial :
    (initial threadAmount E).spinlock.Guards (initial threadAmount E).lockUse := by
  apply Spinlock.guards_initial
  rintro (w | e | _)
  all_goals simp [LockUse.Entered, lockUse, initial, WorkerPc.lockUse, EnqueuePc.lockUse,
    DestructorPc.lockUse]

omit [DecidableEq E] in
theorem gotoWorker_worker {w v : Fin threadAmount} {pc : WorkerPc} :
    (s.gotoWorker w pc).worker v = if v = w then pc else s.worker v := by
  simp [gotoWorker, Function.update_apply]

theorem gotoEnqueuer_enqueuer {e d : E} {pc : EnqueuePc} :
    (s.gotoEnqueuer e pc).enqueuer d = if d = e then pc else s.enqueuer d := by
  simp [gotoEnqueuer, Function.update_apply]

omit [DecidableEq E] in
theorem lockUse_worker {w : Fin threadAmount} :
    s.lockUse (.worker w) = (s.worker w).lockUse :=
  rfl

omit [DecidableEq E] in
theorem lockUse_enqueuer {e : E} : s.lockUse (.enqueuer e) = (s.enqueuer e).lockUse :=
  rfl

theorem lockUse_gotoWorker {w : Fin threadAmount} {pc : WorkerPc} {t : Party threadAmount E} :
    (s.gotoWorker w pc).lockUse t = if t = .worker w then pc.lockUse else s.lockUse t := by
  cases t with
  | worker v =>
    simp only [lockUse, gotoWorker_worker, Party.worker.injEq]
    split <;> rfl
  | enqueuer e => rfl
  | destructor => rfl

theorem lockUse_gotoEnqueuer {e : E} {pc : EnqueuePc} {t : Party threadAmount E} :
    (s.gotoEnqueuer e pc).lockUse t = if t = .enqueuer e then pc.lockUse else s.lockUse t := by
  cases t with
  | worker w => rfl
  | enqueuer d =>
    simp only [lockUse, gotoEnqueuer_enqueuer, Party.enqueuer.injEq]
    split <;> rfl
  | destructor => rfl

theorem lockUse_setDestructor {pc : DestructorPc threadAmount} {t : Party threadAmount E} :
    ({ s with destructor := pc } : ThreadPool threadAmount E).lockUse t =
      if t = .destructor then pc.lockUse else s.lockUse t := by
  cases t <;> rfl

theorem unlocked_spinlock {t : Party threadAmount E} : (s.unlocked t).spinlock = s.spinlock := by
  cases t <;> rfl

/-- The thread unlocks, and is not in a scope afterwards. -/
theorem lockUse_unlocked {t : Party threadAmount E} (huse : s.lockUse t = .destructing) :
    (∀ u, u ≠ t → (s.unlocked t).lockUse u = s.lockUse u) ∧
      ¬ ((s.unlocked t).lockUse t).Entered := by
  cases t with
  | worker w =>
    have hpc : (s.worker w).lockUse = .destructing := huse
    constructor
    · intro u hu
      rw [unlocked, lockUse_gotoWorker, if_neg hu]
    · rw [unlocked, lockUse_gotoWorker, if_pos rfl]
      rcases hw : s.worker w with _ | _ | (_ | task) | _ | _ | _
      all_goals
        rw [hw] at hpc
        simp [WorkerPc.lockUse, WorkerPc.unlocked, LockUse.Entered] at hpc ⊢
  | enqueuer e =>
    constructor
    · intro u hu
      rw [unlocked, lockUse_gotoEnqueuer, if_neg hu]
    · rw [unlocked, lockUse_gotoEnqueuer, if_pos rfl]
      decide
  | destructor =>
    constructor
    · intro u hu
      rw [unlocked, lockUse_setDestructor, if_neg hu]
    · rw [unlocked, lockUse_setDestructor, if_pos rfl]
      simp [DestructorPc.lockUse, LockUse.Entered]

/-- Every step keeps whoever is in a scope in possession of the lock. -/
theorem guards_step (hs : s.spinlock.Guards s.lockUse) (hstep : s.PoolStep after) :
    after.spinlock.Guards after.lockUse := by
  have hworker {w : Fin threadAmount} {pc : WorkerPc}
      (hlock : pc.lockUse.Entered → s.spinlock.pc (.worker w) = .writing) :
      s.spinlock.Guards (s.gotoWorker w pc).lockUse := by
    refine hs.of_moved (fun t ht ↦ lockUse_gotoWorker.trans (if_neg ht)) ?_
    rwa [lockUse_gotoWorker, if_pos rfl]
  have henqueuer {e : E} {pc : EnqueuePc}
      (hlock : pc.lockUse.Entered → s.spinlock.pc (.enqueuer e) = .writing) :
      s.spinlock.Guards (s.gotoEnqueuer e pc).lockUse := by
    refine hs.of_moved (fun t ht ↦ lockUse_gotoEnqueuer.trans (if_neg ht)) ?_
    rwa [lockUse_gotoEnqueuer, if_pos rfl]
  have hdestructor {pc : DestructorPc threadAmount}
      (hlock : pc.lockUse.Entered → s.spinlock.pc .destructor = .writing) :
      s.spinlock.Guards ({ s with destructor := pc } : ThreadPool threadAmount E).lockUse := by
    refine hs.of_moved (fun t ht ↦ lockUse_setDestructor.trans (if_neg ht)) ?_
    rwa [lockUse_setDestructor, if_pos rfl]
  cases hstep with
  | callEnqueue hpc =>
    exact henqueuer (fun h ↦ absurd h (by simp [EnqueuePc.lockUse, LockUse.Entered]))
  | callDestructor hpc =>
    exact hdestructor (fun h ↦ absurd h (by simp [DestructorPc.lockUse, LockUse.Entered]))
  | lock hpc huse => exact hs.step hpc (fun _ _ ↦ rfl) huse
  | @unlock a hpc huse =>
    obtain ⟨hother, hself⟩ := lockUse_unlocked (s := { s with spinlock := s.spinlock.effect a }) huse
    rw [unlocked_spinlock]
    exact hs.step hpc hother hself
  | leave hpc hlock | find hpc hlock | miss hpc hlock => exact hworker (fun _ ↦ hlock)
  | @take w task rest hpc htasks =>
    exact hworker (fun _ ↦ hs.entered (.worker w) (Or.inl (by rw [lockUse_worker, hpc]; rfl)))
  | run hpc => exact hworker (fun h ↦ absurd h (by decide))
  | @refuse e task hpc hlock =>
    refine henqueuer (fun _ ↦ ?_)
    rcases hlock with hlock | hlock
    · exact hlock
    · exact hs.entered (.enqueuer e) (Or.inl (by rw [lockUse_enqueuer, hlock]; rfl))
  | offer hpc hlock => exact henqueuer (fun _ ↦ hlock)
  | @accept e task hpc =>
    exact henqueuer (fun _ ↦ hs.entered (.enqueuer e)
      (Or.inl (by rw [lockUse_enqueuer, hpc]; rfl)))
  | stop hpc hlock => exact hdestructor (fun _ ↦ hlock)
  | join hpc =>
    exact hdestructor (fun h ↦ absurd h (by simp [DestructorPc.lockUse, LockUse.Entered]))

/-! ## What a thread may rely on -/

/-- What a thread has tested in its scope is still true there, and a worker leaves for good. -/
structure Tested (s : ThreadPool threadAmount E) : Prop where
  ready : ∀ w, s.worker w = .taking → s.tasks ≠ []
  running : ∀ e task, s.enqueuer e = .emplacing task → s.stop = false
  stopped : ∀ w, s.worker w = .leaving ∨ s.worker w = .returned → s.stop = true ∧ s.tasks = []

omit [DecidableEq E] in
theorem tested_initial : (initial threadAmount E).Tested where
  ready := by simp [initial]
  running := by simp [initial]
  stopped := by simp [initial]

omit [DecidableEq E] in
/-- A worker goes on, and the queue stays as it is. -/
theorem Tested.gotoWorker {w : Fin threadAmount} {pc : WorkerPc} (hs : s.Tested)
    (hready : pc = .taking → s.tasks ≠ [])
    (hstopped : pc = .leaving ∨ pc = .returned → s.stop = true ∧ s.tasks = []) :
    (s.gotoWorker w pc).Tested where
  ready := by
    intro v hv
    rw [gotoWorker_worker] at hv
    split at hv
    · exact hready hv
    · exact hs.ready v hv
  running := hs.running
  stopped := by
    intro v hv
    rw [gotoWorker_worker] at hv
    split at hv
    · exact hstopped hv
    · exact hs.stopped v hv

/-- A calling thread goes on, and the queue stays as it is. -/
theorem Tested.gotoEnqueuer {e : E} {pc : EnqueuePc} (hs : s.Tested)
    (hrunning : ∀ task, pc = .emplacing task → s.stop = false) :
    (s.gotoEnqueuer e pc).Tested where
  ready := hs.ready
  running := by
    intro d task hd
    rw [gotoEnqueuer_enqueuer] at hd
    split at hd
    · exact hrunning task hd
    · exact hs.running d task hd
  stopped := hs.stopped

theorem tested_unlocked {t : Party threadAmount E} (hs : s.Tested)
    (huse : s.lockUse t = .destructing) : (s.unlocked t).Tested := by
  cases t with
  | worker w =>
    have hpc : (s.worker w).lockUse = .destructing := huse
    have hstopped := hs.stopped w
    apply hs.gotoWorker
    all_goals
      intro h
      rcases hw : s.worker w with _ | _ | (_ | task) | _ | _ | _
      all_goals simp [hw, WorkerPc.lockUse, WorkerPc.unlocked] at hpc h hstopped
    exact hstopped
  | enqueuer e => exact hs.gotoEnqueuer (by simp)
  | destructor => exact ⟨hs.ready, hs.running, hs.stopped⟩

/-- The queue changes only by the hands of a thread in its scope. -/
theorem tested_step (hguards : s.spinlock.Guards s.lockUse) (hs : s.Tested)
    (hstep : s.PoolStep after) : after.Tested := by
  cases hstep with
  | callDestructor hpc | join hpc => exact ⟨hs.ready, hs.running, hs.stopped⟩
  | lock hpc huse => exact ⟨hs.ready, hs.running, hs.stopped⟩
  | callEnqueue hpc =>
    exact Tested.gotoEnqueuer (s := { s with created := s.created + 1 })
      ⟨hs.ready, hs.running, hs.stopped⟩ (by simp)
  | @unlock a hpc huse =>
    exact tested_unlocked (s := { s with spinlock := s.spinlock.effect a })
      ⟨hs.ready, hs.running, hs.stopped⟩ huse
  | leave hpc hlock hstop hempty => exact hs.gotoWorker (by simp) (fun _ ↦ ⟨hstop, hempty⟩)
  | find hpc hlock hfull => exact hs.gotoWorker (fun _ ↦ hfull) (by simp)
  | miss hpc hlock => exact hs.gotoWorker (by simp) (by simp)
  | @take w task rest hpc htasks =>
    have hlock := hguards.entered (.worker w) (Or.inl (by rw [lockUse_worker, hpc]; rfl))
    refine ⟨?_, hs.running, ?_⟩
    · intro v hv
      rw [gotoWorker_worker] at hv
      split at hv
      · cases hv
      · rename_i hne
        have heq := hguards.eq_of_entered hlock (u := .worker v)
          (Or.inl (by rw [lockUse_worker, show s.worker v = .taking from hv]; rfl))
        exact absurd (Party.worker.inj heq) hne
    · intro v hv
      rw [gotoWorker_worker] at hv
      split at hv
      · simp at hv
      · have hempty := (hs.stopped v hv).2
        rw [htasks] at hempty
        cases hempty
  | @run w task hpc =>
    exact Tested.gotoWorker (s := { s with finished := s.finished ++ [task] })
      ⟨hs.ready, hs.running, hs.stopped⟩ (by simp) (by simp)
  | @refuse e task hpc hlock =>
    exact Tested.gotoEnqueuer (s := { s with refused := s.refused ++ [task] })
      ⟨hs.ready, hs.running, hs.stopped⟩ (by simp)
  | offer hpc hlock hstop => exact hs.gotoEnqueuer (fun _ _ ↦ hstop)
  | @accept e task hpc =>
    have hrunning := hs.running e task hpc
    refine Tested.gotoEnqueuer
      (s := { s with tasks := s.tasks ++ [task], accepted := s.accepted ++ [task] })
      ⟨?_, hs.running, ?_⟩ (by simp)
    · simp
    · intro w hw
      rw [(hs.stopped w hw).1] at hrunning
      cases hrunning
  | stop hpc hlock =>
    refine ⟨hs.ready, ?_, fun w hw ↦ ⟨rfl, (hs.stopped w hw).2⟩⟩
    intro e task he
    have heq := hguards.eq_of_entered hlock (u := .enqueuer e)
      (Or.inl (by rw [lockUse_enqueuer, show s.enqueuer e = .emplacing task from he]; rfl))
    cases heq

/-! ## The tasks offered -/

/-- A task that was offered is accepted, or refused, or still with the thread that offers it. -/
structure Answered (s : ThreadPool threadAmount E) : Prop where
  numbered : ∀ task, task < s.created ↔
    task ∈ s.accepted ∨ task ∈ s.refused ∨ ∃ e, (s.enqueuer e).task = some task
  nodup : s.accepted.Nodup
  apart : ∀ task ∈ s.accepted, task ∉ s.refused
  offered : ∀ e task, (s.enqueuer e).task = some task → task ∉ s.accepted ∧ task ∉ s.refused
  alone : ∀ d e task, (s.enqueuer d).task = some task → (s.enqueuer e).task = some task → d = e

omit [DecidableEq E] in
theorem answered_initial : (initial threadAmount E).Answered where
  numbered := by simp [initial, EnqueuePc.task]
  nodup := List.nodup_nil
  apart := by simp [initial]
  offered := by simp [initial, EnqueuePc.task]
  alone := by simp [initial, EnqueuePc.task]

omit [DecidableEq E] in
theorem Answered.congr (hs : s.Answered) (hcreated : after.created = s.created)
    (haccepted : after.accepted = s.accepted) (hrefused : after.refused = s.refused)
    (htask : ∀ e, (after.enqueuer e).task = (s.enqueuer e).task) : after.Answered := by
  refine ⟨?_, ?_, ?_, ?_, ?_⟩
  all_goals simp only [hcreated, haccepted, hrefused, htask]
  · exact hs.numbered
  · exact hs.nodup
  · exact hs.apart
  · exact hs.offered
  · exact hs.alone

theorem task_gotoEnqueuer {e d : E} {pc : EnqueuePc} : ((s.gotoEnqueuer e pc).enqueuer d).task =
    if d = e then pc.task else (s.enqueuer d).task := by
  rw [gotoEnqueuer_enqueuer]
  split <;> rfl

theorem moves_gotoEnqueuer (e : E) (pc : EnqueuePc)
    (hown : ∀ task, pc.task = some task → (s.enqueuer e).task = some task ∨
      ¬ InHand (fun d ↦ (s.enqueuer d).task) task) :
    Moves (fun d ↦ (s.enqueuer d).task) (fun d ↦ ((s.gotoEnqueuer e pc).enqueuer d).task) e
      pc.task where
  self := task_gotoEnqueuer.trans (if_pos rfl)
  other _ hd := task_gotoEnqueuer.trans (if_neg hd)
  own := hown

theorem answered_callEnqueue {e : E} (hs : s.Answered) (hpc : s.enqueuer e = .outside) :
    Answered ({ s with created := s.created + 1 }.gotoEnqueuer e (.locking s.created)) := by
  have hnew : ¬ (s.created ∈ s.accepted ∨ s.created ∈ s.refused ∨
      InHand (fun d ↦ (s.enqueuer d).task) s.created) := by
    unfold InHand
    rw [← hs.numbered]
    exact lt_irrefl s.created
  have hmoves := moves_gotoEnqueuer (s := { s with created := s.created + 1 }) e (.locking s.created)
    (by
      rintro task ⟨⟩
      exact Or.inr (fun h ↦ hnew (Or.inr (Or.inr h))))
  have hinHand (task : ℕ) := hmoves.inHand_take hs.alone (by rw [hpc]; rfl) (y := task)
  refine ⟨?_, hs.nodup, hs.apart, ?_, hmoves.alone hs.alone⟩
  · intro task
    change task < s.created + 1 ↔ task ∈ s.accepted ∨ task ∈ s.refused ∨ InHand _ task
    have hold : task < s.created ↔ task ∈ s.accepted ∨ task ∈ s.refused ∨
        InHand (fun d ↦ (s.enqueuer d).task) task := hs.numbered task
    rw [hinHand, Nat.lt_succ_iff_lt_or_eq, hold]
    tauto
  · intro d task hd
    rcases (hinHand task).mp ⟨d, hd⟩ with rfl | ⟨c, hc⟩
    · exact ⟨fun h ↦ hnew (Or.inl h), fun h ↦ hnew (Or.inr (Or.inl h))⟩
    · exact hs.offered c task hc

/-- The call of `Enqueue` is through with its task: it is in one of the two lists now. -/
theorem answered_gotoUnlocking {e : E} {task : ℕ} (hs : s.Answered)
    (hpc : (s.enqueuer e).task = some task) (hcreated : after.created = s.created)
    (henqueuer : after.enqueuer = (s.gotoEnqueuer e .unlocking).enqueuer)
    (hanswer : (after.accepted = s.accepted ++ [task] ∧ after.refused = s.refused) ∨
      (after.accepted = s.accepted ∧ after.refused = s.refused ++ [task])) : after.Answered := by
  obtain ⟨hnotAccepted, hnotRefused⟩ := hs.offered e task hpc
  have hmoves : Moves (fun d ↦ (s.enqueuer d).task) (fun d ↦ (after.enqueuer d).task) e none := by
    rw [henqueuer]
    exact moves_gotoEnqueuer e .unlocking (fun _ h ↦ by cases h)
  have hinHand (other : ℕ) := hmoves.inHand_layDown hs.alone hpc (y := other)
  refine ⟨?_, ?_, ?_, ?_, hmoves.alone hs.alone⟩
  · intro other
    have hlists : other ∈ after.accepted ∨ other ∈ after.refused ↔
        other = task ∨ other ∈ s.accepted ∨ other ∈ s.refused := by
      rcases hanswer with ⟨haccepted, hrefused⟩ | ⟨haccepted, hrefused⟩
      · rw [haccepted, hrefused, List.mem_append, List.mem_singleton]
        tauto
      · rw [haccepted, hrefused, List.mem_append, List.mem_singleton]
        tauto
    change _ ↔ other ∈ after.accepted ∨ other ∈ after.refused ∨ InHand _ other
    rw [hcreated, hs.numbered, ← or_assoc, ← or_assoc, hlists, hinHand]
    by_cases heq : other = task
    · rw [heq]
      exact iff_of_true (Or.inr ⟨e, hpc⟩) (Or.inl (Or.inl rfl))
    · simp [heq, InHand]
  · rcases hanswer with ⟨haccepted, -⟩ | ⟨haccepted, -⟩
    · rw [haccepted]
      exact hs.nodup.append (List.nodup_singleton task) (by simpa using hnotAccepted)
    · rw [haccepted]
      exact hs.nodup
  · intro other hother
    have hold := hs.apart other
    rcases hanswer with ⟨haccepted, hrefused⟩ | ⟨haccepted, hrefused⟩
    · rw [haccepted, List.mem_append, List.mem_singleton] at hother
      rw [hrefused]
      rcases hother with hother | rfl
      · exact hold hother
      · exact hnotRefused
    · rw [haccepted] at hother
      rw [hrefused, List.mem_append, List.mem_singleton]
      rintro (hmem | rfl)
      · exact hold hother hmem
      · exact hnotAccepted hother
  · intro d other hd
    obtain ⟨hne, c, hc⟩ := (hinHand other).mp ⟨d, hd⟩
    obtain ⟨hnotIn, hnotOut⟩ := hs.offered c other hc
    rcases hanswer with ⟨haccepted, hrefused⟩ | ⟨haccepted, hrefused⟩
    · rw [haccepted, hrefused]
      exact ⟨by simp [hnotIn, hne], hnotOut⟩
    · rw [haccepted, hrefused]
      exact ⟨hnotIn, by simp [hnotOut, hne]⟩

theorem answered_step (hs : s.Answered) (hstep : s.PoolStep after) : after.Answered := by
  cases hstep with
  | callEnqueue hpc => exact answered_callEnqueue hs hpc
  | refuse hpc hlock => exact answered_gotoUnlocking hs hpc rfl rfl (Or.inr ⟨rfl, rfl⟩)
  | accept hpc => exact answered_gotoUnlocking hs (by rw [hpc]; rfl) rfl rfl (Or.inl ⟨rfl, rfl⟩)
  | @offer e task hpc hlock hstop =>
    refine hs.congr rfl rfl rfl fun d ↦ ?_
    rw [task_gotoEnqueuer]
    split
    · rename_i heq
      rw [heq, hpc]
      rfl
    · rfl
  | @unlock a hpc huse =>
    generalize a.thread = t at huse
    cases t with
    | worker w => exact hs.congr rfl rfl rfl fun _ ↦ rfl
    | destructor => exact hs.congr rfl rfl rfl fun _ ↦ rfl
    | enqueuer e =>
      refine hs.congr rfl rfl rfl fun d ↦ ?_
      rw [unlocked, task_gotoEnqueuer]
      split
      · rename_i heq
        rw [lockUse_enqueuer] at huse
        rw [heq]
        cases he : s.enqueuer e with
        | outside | unlocking => rfl
        | locking | emplacing => simp [he, EnqueuePc.lockUse] at huse
      · rfl
  | callDestructor | lock | leave | find | miss | take | run | stop | join =>
    exact hs.congr rfl rfl rfl fun _ ↦ rfl

/-! ## The tasks accepted -/

/-- The accepted tasks are taken in order, and those taken are finished or held by one worker. -/
structure Handled (s : ThreadPool threadAmount E) : Prop where
  ordered : s.accepted = s.taken ++ s.tasks
  taken : ∀ task, task ∈ s.taken ↔ task ∈ s.finished ∨ ∃ w, (s.worker w).task = some task
  nodup : s.finished.Nodup
  held : ∀ w task, (s.worker w).task = some task → task ∉ s.finished
  alone : ∀ v w task, (s.worker v).task = some task → (s.worker w).task = some task → v = w

omit [DecidableEq E] in
theorem handled_initial : (initial threadAmount E).Handled where
  ordered := rfl
  taken := by simp [initial, WorkerPc.task]
  nodup := List.nodup_nil
  held := by simp [initial, WorkerPc.task]
  alone := by simp [initial, WorkerPc.task]

omit [DecidableEq E] in
theorem Handled.congr (hs : s.Handled) (hordered : after.accepted = after.taken ++ after.tasks)
    (htaken : after.taken = s.taken) (hfinished : after.finished = s.finished)
    (htask : ∀ w, (after.worker w).task = (s.worker w).task) : after.Handled := by
  refine ⟨hordered, ?_, ?_, ?_, ?_⟩
  all_goals simp only [htaken, hfinished, htask]
  · exact hs.taken
  · exact hs.nodup
  · exact hs.held
  · exact hs.alone

omit [DecidableEq E] in
theorem task_gotoWorker {w v : Fin threadAmount} {pc : WorkerPc} :
    ((s.gotoWorker w pc).worker v).task = if v = w then pc.task else (s.worker v).task := by
  rw [gotoWorker_worker]
  split <;> rfl

omit [DecidableEq E] in
/-- A worker goes on with what it has in its hands. -/
theorem Handled.gotoWorker {w : Fin threadAmount} {pc : WorkerPc} (hs : s.Handled)
    (htask : pc.task = (s.worker w).task) : (s.gotoWorker w pc).Handled := by
  refine hs.congr hs.ordered rfl rfl fun v ↦ ?_
  rw [task_gotoWorker]
  split
  · rename_i heq
    rw [heq, htask]
  · rfl

omit [DecidableEq E] in
theorem moves_gotoWorker (w : Fin threadAmount) (pc : WorkerPc)
    (hown : ∀ task, pc.task = some task → (s.worker w).task = some task ∨
      ¬ InHand (fun v ↦ (s.worker v).task) task) :
    Moves (fun v ↦ (s.worker v).task) (fun v ↦ ((s.gotoWorker w pc).worker v).task) w pc.task where
  self := task_gotoWorker.trans (if_pos rfl)
  other _ hv := task_gotoWorker.trans (if_neg hv)
  own := hown

omit [DecidableEq E] in
theorem handled_take {w : Fin threadAmount} {task : ℕ} {rest : List ℕ} (hs : s.Handled)
    (hnodup : s.accepted.Nodup) (hpc : s.worker w = .taking) (htasks : s.tasks = task :: rest) :
    Handled ({ s with tasks := rest, taken := s.taken ++ [task] }.gotoWorker w
      (.unlocking (some task))) := by
  have hnew : task ∉ s.taken := by
    rw [hs.ordered, htasks] at hnodup
    have hdisjoint := (List.nodup_append.mp hnodup).2.2
    intro hmem
    exact hdisjoint task hmem task List.mem_cons_self rfl
  have hfree : ¬ (task ∈ s.finished ∨ InHand (fun v ↦ (s.worker v).task) task) := by
    unfold InHand
    rw [← hs.taken]
    exact hnew
  have hmoves := moves_gotoWorker (s := { s with tasks := rest, taken := s.taken ++ [task] })
    w (.unlocking (some task)) (by
      rintro other ⟨⟩
      exact Or.inr (fun h ↦ hfree (Or.inr h)))
  have hinHand (other : ℕ) := hmoves.inHand_take hs.alone (by rw [hpc]; rfl) (y := other)
  refine ⟨?_, ?_, hs.nodup, ?_, hmoves.alone hs.alone⟩
  · calc
      s.accepted = s.taken ++ s.tasks := hs.ordered
      _ = s.taken ++ task :: rest := by rw [htasks]
      _ = (s.taken ++ [task]) ++ rest := by rw [List.append_assoc, List.singleton_append]
  · intro other
    change other ∈ s.taken ++ [task] ↔ other ∈ s.finished ∨ InHand _ other
    have hold : other ∈ s.taken ↔ other ∈ s.finished ∨
        InHand (fun v ↦ (s.worker v).task) other := hs.taken other
    rw [hinHand, List.mem_append, List.mem_singleton, hold]
    tauto
  · intro v other hv
    rcases (hinHand other).mp ⟨v, hv⟩ with rfl | ⟨u, hu⟩
    · exact fun h ↦ hfree (Or.inl h)
    · exact hs.held u other hu

omit [DecidableEq E] in
theorem handled_run {w : Fin threadAmount} {task : ℕ} (hs : s.Handled)
    (hpc : s.worker w = .running task) :
    Handled ({ s with finished := s.finished ++ [task] }.gotoWorker w .locking) := by
  have hin : (s.worker w).task = some task := by
    rw [hpc]
    rfl
  have hmoves := moves_gotoWorker (s := { s with finished := s.finished ++ [task] }) w .locking
    (fun _ h ↦ by cases h)
  have hinHand (other : ℕ) := hmoves.inHand_layDown hs.alone hin (y := other)
  refine ⟨hs.ordered, ?_, ?_, ?_, hmoves.alone hs.alone⟩
  · intro other
    change other ∈ s.taken ↔ other ∈ s.finished ++ [task] ∨ InHand _ other
    rw [hinHand, hs.taken, List.mem_append, List.mem_singleton]
    by_cases heq : other = task
    · rw [heq]
      exact iff_of_true (Or.inr ⟨w, hin⟩) (Or.inl (Or.inr rfl))
    · simp [heq, InHand]
  · exact hs.nodup.append (List.nodup_singleton task) (by simpa using hs.held w task hin)
  · intro v other hv
    obtain ⟨hne, u, hu⟩ := (hinHand other).mp ⟨v, hv⟩
    change other ∉ s.finished ++ [task]
    simp [hs.held u other hu, hne]

theorem handled_step (hs : s.Handled) (hnodup : s.accepted.Nodup) (hstep : s.PoolStep after) :
    after.Handled := by
  cases hstep with
  | leave hpc | find hpc | miss hpc => exact hs.gotoWorker (by rw [hpc]; rfl)
  | take hpc htasks => exact handled_take hs hnodup hpc htasks
  | run hpc => exact handled_run hs hpc
  | @accept e task hpc =>
    refine hs.congr ?_ rfl rfl fun _ ↦ rfl
    calc
      s.accepted ++ [task] = (s.taken ++ s.tasks) ++ [task] := by rw [hs.ordered]
      _ = s.taken ++ (s.tasks ++ [task]) := List.append_assoc _ _ _
  | @unlock a hpc huse =>
    have hlocked : Handled { s with spinlock := s.spinlock.effect a } :=
      hs.congr hs.ordered rfl rfl fun _ ↦ rfl
    generalize a.thread = t at huse
    cases t with
    | worker w =>
      refine hlocked.gotoWorker ?_
      change (s.worker w).unlocked.task = (s.worker w).task
      rcases s.worker w with _ | _ | (_ | task) | _ | _ | _
      all_goals rfl
    | enqueuer e => exact hlocked.congr hs.ordered rfl rfl fun _ ↦ rfl
    | destructor => exact hlocked.congr hs.ordered rfl rfl fun _ ↦ rfl
  | callEnqueue | callDestructor | lock | refuse | offer | stop | join =>
    exact hs.congr hs.ordered rfl rfl fun _ ↦ rfl

/-! ## Runs -/

/-- The invariant of the pool. -/
structure Sound (s : ThreadPool threadAmount E) : Prop where
  guards : s.spinlock.Guards s.lockUse
  tested : s.Tested
  answered : s.Answered
  handled : s.Handled

theorem sound_step (hs : s.Sound) (hstep : s.PoolStep after) : after.Sound where
  guards := guards_step hs.guards hstep
  tested := tested_step hs.guards hs.tested hstep
  answered := answered_step hs.answered hstep
  handled := handled_step hs.handled hs.answered.nodup hstep

theorem sound_of_run {history : List (ThreadPool threadAmount E × ThreadPoolStep threadAmount E)}
    (hrun : (system threadAmount E).Run history s) : s.Sound := by
  refine System.Reachable.invariant Sound ?_ ?_ ⟨history, hrun⟩
  · rintro state rfl
    exact ⟨guards_initial, tested_initial, answered_initial, handled_initial⟩
  · intro state action next hs hstep
    exact sound_step hs (poolStep_of_step hstep)

omit [DecidableEq E] in
theorem Sound.mem_accepted (hs : s.Sound) {task : ℕ} :
    task ∈ s.accepted ↔ ∃ place, s.At task place := by
  rw [hs.handled.ordered, List.mem_append, hs.handled.taken]
  constructor
  · rintro ((hfinished | ⟨w, hw⟩) | hqueued)
    · exact ⟨.finished, hfinished⟩
    · exact ⟨.held w, hw⟩
    · exact ⟨.queued, hqueued⟩
  · rintro ⟨_ | w | _, hat⟩
    · exact Or.inr hat
    · exact Or.inl (Or.inr ⟨w, hat⟩)
    · exact Or.inl (Or.inl hat)

omit [DecidableEq E] in
theorem Sound.place_unique (hs : s.Sound) {task : ℕ} {first second : TaskPlace threadAmount}
    (hfirst : s.At task first) (hsecond : s.At task second) : first = second := by
  have hnodup := hs.answered.nodup
  rw [hs.handled.ordered] at hnodup
  -- What is queued has not been taken, and what is held or finished has.
  have hqueued (hmem : task ∈ s.tasks) : ¬ (task ∈ s.finished ∨ ∃ w, s.At task (.held w)) := by
    intro h
    exact (List.nodup_append.mp hnodup).2.2 task ((hs.handled.taken task).mpr h) task hmem rfl
  cases first with
  | queued =>
    cases second with
    | queued => rfl
    | held w => exact absurd (Or.inr ⟨w, hsecond⟩) (hqueued hfirst)
    | finished => exact absurd (Or.inl hsecond) (hqueued hfirst)
  | held v =>
    cases second with
    | queued => exact absurd (Or.inr ⟨v, hfirst⟩) (hqueued hsecond)
    | held w => rw [hs.handled.alone v w task hfirst hsecond]
    | finished => exact absurd hsecond (hs.handled.held v task hfirst)
  | finished =>
    cases second with
    | queued => exact absurd (Or.inl hfirst) (hqueued hsecond)
    | held w => exact absurd hfirst (hs.handled.held w task hsecond)
    | finished => rfl

omit [DecidableEq E] in
/-- What the invariant is for. -/
theorem Sound.runsOnce (hs : s.Sound) (hamount : 1 ≤ threadAmount) : s.RunsOnce := by
  have hnodup := hs.answered.nodup
  rw [hs.handled.ordered] at hnodup
  refine ⟨?_, ?_, ⟨hnodup.of_append_right, hs.handled.nodup⟩, hs.handled.ordered, hs.tested.ready, ?_,
    ?_⟩
  · intro task htask
    obtain ⟨place, hplace⟩ := hs.mem_accepted.mp htask
    exact ⟨place, hplace, fun other hother ↦ hs.place_unique hother hplace⟩
  · intro task place hplace
    exact hs.mem_accepted.mpr ⟨place, hplace⟩
  · intro task hlt hnobody
    refine ⟨hs.answered.apart task, ?_⟩
    intro hnotRefused
    rcases (hs.answered.numbered task).mp hlt with haccepted | hrefused | ⟨e, he⟩
    · exact haccepted
    · exact absurd hrefused hnotRefused
    · exact absurd he (hnobody e)
  · intro hreturned task htask
    -- A worker that has returned has seen the pool stopped and the queue empty.
    have hempty := (hs.tested.stopped ⟨0, hamount⟩ (Or.inr (hreturned _))).2
    obtain ⟨place, hplace⟩ := hs.mem_accepted.mp htask
    cases place with
    | queued => exact absurd hplace (by simp [At, hempty])
    | held w => exact absurd hplace (by simp [At, hreturned w, WorkerPc.task])
    | finished => exact List.count_eq_one_of_mem hs.handled.nodup hplace

/-- A stopped pool stays stopped and accepts nothing. -/
theorem stopped_step (hs : s.Sound) (hstop : s.stop = true) (hstep : s.PoolStep after) :
    after.stop = true ∧ after.accepted = s.accepted := by
  cases hstep with
  | @accept e task hpc =>
    rw [hs.tested.running e task hpc] at hstop
    cases hstop
  | @unlock a =>
    generalize a.thread = t
    cases t <;> exact ⟨hstop, rfl⟩
  | stop => exact ⟨rfl, rfl⟩
  | callEnqueue | callDestructor | lock | leave | find | miss | take | run | refuse | offer | join =>
    exact ⟨hstop, rfl⟩

theorem accepted_of_stopped
    {history : List (ThreadPool threadAmount E × ThreadPoolStep threadAmount E)}
    (hrun : (system threadAmount E).Run history s) : ∀ seen ∈ System.visited history s,
      seen.stop = true → s.stop = true ∧ s.accepted = seen.accepted := by
  induction hrun with
  | start _ =>
    intro seen hseen hstop
    rw [System.visited, List.map_nil, List.mem_singleton] at hseen
    rw [hseen] at hstop ⊢
    exact ⟨hstop, rfl⟩
  | next hbefore hnext ih =>
    intro seen hseen hstop
    rcases List.mem_cons.mp hseen with rfl | hold
    · exact ⟨hstop, rfl⟩
    · obtain ⟨hstopped, haccepted⟩ := ih seen hold hstop
      have hkept := stopped_step (sound_of_run hbefore) hstopped (poolStep_of_step hnext)
      exact ⟨hkept.1, hkept.2.trans haccepted⟩

/-- **The thread pool runs every accepted task once.** In every state that a pool of at least one worker
can reach the pool keeps its promises, and no task is accepted after `stop` was set. -/
theorem runsOnce_of_run (hamount : 1 ≤ threadAmount)
    {history : List (ThreadPool threadAmount E × ThreadPoolStep threadAmount E)}
    (hrun : (system threadAmount E).Run history s) :
    s.RunsOnce ∧ ∀ seen ∈ System.visited history s, seen.stop = true →
      s.accepted = seen.accepted :=
  ⟨(sound_of_run hrun).runsOnce hamount,
    fun seen hseen hstop ↦ (accepted_of_stopped hrun seen hseen hstop).2⟩

/-- The constructor of an `ExclusiveLockHolder` on a free lock. -/
def lockSteps (t : Party 1 Unit) : List (ThreadPoolStep 1 Unit) :=
  [.spinlock (.callLock t), .spinlock (.exchangeLock t), .spinlock (.loadReader t)]

/-- A task is accepted and run by the only worker, which then returns from the stopped pool. -/
def shutDown : List (ThreadPoolStep 1 Unit) :=
  [.callEnqueue ()] ++ lockSteps (.enqueuer ()) ++ [.enqueuer () true, .enqueuer () true,
    .spinlock (.exchangeUnlock (.enqueuer ()))] ++
  lockSteps (.worker 0) ++ [.worker 0, .worker 0, .spinlock (.exchangeUnlock (.worker 0)),
    .worker 0] ++
  [.callDestructor] ++ lockSteps .destructor ++ [.destructor,
    .spinlock (.exchangeUnlock .destructor)] ++
  lockSteps (.worker 0) ++ [.worker 0, .spinlock (.exchangeUnlock (.worker 0)), .destructor]

/-- The main theorem applied to this run. -/
theorem runsOnce_of_run_applies : ∃ history s, (system 1 Unit).Run history s ∧
    s.finished = [0] ∧ s.destructor = .joining [] ∧ s.RunsOnce ∧
      ∀ seen ∈ System.visited history s, seen.stop = true → s.accepted = seen.accepted := by
  have hreplay : (System.replay step (initial 1 Unit) shutDown).map
      (fun s ↦ decide (s.finished = [0] ∧ s.destructor = .joining [])) = some true := by decide +kernel
  obtain ⟨history, s, hrun, htest⟩ := System.exists_run_of_replay
    (fun s ↦ s = initial 1 Unit) rfl hreplay
  obtain ⟨hfinished, hjoined⟩ := of_decide_eq_true htest
  exact ⟨history, s, hrun, hfinished, hjoined, runsOnce_of_run (le_refl 1) hrun⟩

end ThreadPool

end ServerCore.ThreadManager
