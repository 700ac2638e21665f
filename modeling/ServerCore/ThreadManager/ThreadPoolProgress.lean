import ServerCore.Foundation.HandsCounting
import ServerCore.Foundation.Progress
import ServerCore.Lock.ExclusiveProgress
import ServerCore.ThreadManager.ThreadPoolRun

/-!
# Tasks that never return

`Server` hands its pool tasks that never return, one `IocpWork` for each of the workers it wants there,
and takes further tasks through `AddWork`. Here any tasks may be such: a worker that runs one of them
stays with it. Nothing else can hold the pool up. An accepted task can be started exactly if fewer tasks
that never return were accepted before it than there are workers, and the destructor can come to its
end exactly if none was accepted.
-/

namespace ServerCore.ThreadManager

open Foundation Lock

namespace ThreadPool

variable {threadAmount : ℕ} {E : Type} {s after : ThreadPool threadAmount E} {endless : ℕ → Bool}

/-- How many tasks that never return were accepted before the task. -/
def endlessBefore (endless : ℕ → Bool) (s : ThreadPool threadAmount E) (task : ℕ) : ℕ :=
  (s.accepted.take (s.accepted.idxOf task)).countP endless

/-- The worker has no task in its hands that never returns. -/
def Available (endless : ℕ → Bool) (s : ThreadPool threadAmount E) (w : Fin threadAmount) : Prop :=
  ∀ task, (s.worker w).task = some task → endless task = false

variable [DecidableEq E]

/-- The pool and its threads when a worker does not come back from these tasks. -/
def withEndless (threadAmount : ℕ) (E : Type) [DecidableEq E] (endless : ℕ → Bool) :
    System (ThreadPool threadAmount E) (ThreadPoolStep threadAmount E) where
  init s := s = initial threadAmount E
  step s action after := s.step action = some after ∧
    ∀ w task, action = .worker w → s.worker w = .running task → endless task = false

/-! ## What every run keeps -/

/-- The lists of tasks only grow at their ends, and a worker that has returned is gone. -/
structure Extends (s after : ThreadPool threadAmount E) : Prop where
  accepted : s.accepted <+: after.accepted
  taken : s.taken <+: after.taken
  returned : ∀ w, s.worker w = .returned → after.worker w = .returned

omit [DecidableEq E] in
theorem Extends.refl (s : ThreadPool threadAmount E) : s.Extends s :=
  ⟨List.prefix_refl _, List.prefix_refl _, fun _ h ↦ h⟩

omit [DecidableEq E] in
theorem Extends.trans {middle : ThreadPool threadAmount E} (hfirst : s.Extends middle)
    (hsecond : middle.Extends after) : s.Extends after :=
  ⟨hfirst.accepted.trans hsecond.accepted, hfirst.taken.trans hsecond.taken,
    fun w h ↦ hsecond.returned w (hfirst.returned w h)⟩

omit [DecidableEq E] in
theorem returned_gotoWorker {w : Fin threadAmount} {pc : WorkerPc} (hpc : s.worker w ≠ .returned)
    (v : Fin threadAmount) (hv : s.worker v = .returned) :
    (s.gotoWorker w pc).worker v = .returned := by
  rw [gotoWorker_worker, if_neg, hv]
  rintro rfl
  exact hpc hv

theorem extends_of_step (hstep : s.PoolStep after) : s.Extends after := by
  have hrefl := Extends.refl s
  cases hstep with
  | callEnqueue | callDestructor | lock | refuse | offer | stop | join =>
    exact ⟨hrefl.accepted, hrefl.taken, hrefl.returned⟩
  | accept => exact ⟨List.prefix_append _ _, hrefl.taken, hrefl.returned⟩
  | leave hpc | find hpc | miss hpc | run hpc =>
    refine ⟨hrefl.accepted, hrefl.taken, returned_gotoWorker ?_⟩
    rw [hpc]
    simp
  | take hpc =>
    refine ⟨hrefl.accepted, List.prefix_append _ _, returned_gotoWorker ?_⟩
    simp [hpc]
  | @unlock a hpc huse =>
    generalize a.thread = t at huse
    cases t with
    | worker w =>
      refine ⟨hrefl.accepted, hrefl.taken, returned_gotoWorker ?_⟩
      intro hreturned
      have hunused : (s.worker w).lockUse = .destructing := huse
      rw [show s.worker w = .returned from hreturned] at hunused
      cases hunused
    | enqueuer e => exact ⟨hrefl.accepted, hrefl.taken, hrefl.returned⟩
    | destructor => exact ⟨hrefl.accepted, hrefl.taken, hrefl.returned⟩

omit [DecidableEq E] in
theorem orderly_initial :
    (initial threadAmount E).spinlock.Orderly (initial threadAmount E).lockUse := by
  apply Spinlock.orderly_initial
  rintro (w | e | _)
  all_goals simp [LockUse.Entered, lockUse, initial, WorkerPc.lockUse, EnqueuePc.lockUse,
    DestructorPc.lockUse]

/-- A thread goes on to where it may stand with the lock. -/
theorem orderly_gotoWorker (hs : s.spinlock.Orderly s.lockUse) {w : Fin threadAmount} {pc : WorkerPc}
    (hfits : pc.lockUse.Fits (s.spinlock.pc (.worker w))) :
    s.spinlock.Orderly (s.gotoWorker w pc).lockUse := by
  refine hs.of_moved (fun t ht ↦ lockUse_gotoWorker.trans (if_neg ht)) ?_
  rwa [lockUse_gotoWorker, if_pos rfl]

theorem orderly_gotoEnqueuer (hs : s.spinlock.Orderly s.lockUse) {e : E} {pc : EnqueuePc}
    (hfits : pc.lockUse.Fits (s.spinlock.pc (.enqueuer e))) :
    s.spinlock.Orderly (s.gotoEnqueuer e pc).lockUse := by
  refine hs.of_moved (fun t ht ↦ lockUse_gotoEnqueuer.trans (if_neg ht)) ?_
  rwa [lockUse_gotoEnqueuer, if_pos rfl]

theorem orderly_setDestructor (hs : s.spinlock.Orderly s.lockUse) {pc : DestructorPc threadAmount}
    (hfits : pc.lockUse.Fits (s.spinlock.pc .destructor)) :
    s.spinlock.Orderly ({ s with destructor := pc } : ThreadPool threadAmount E).lockUse := by
  refine hs.of_moved (fun t ht ↦ lockUse_setDestructor.trans (if_neg ht)) ?_
  rwa [lockUse_setDestructor, if_pos rfl]

theorem orderly_workerStep (hs : s.spinlock.Orderly s.lockUse) {w : Fin threadAmount}
    (hstep : s.workerStep w = some after) : after.spinlock.Orderly after.lockUse := by
  have hfits : (s.worker w).lockUse.Fits (s.spinlock.pc (.worker w)) := hs.fits (.worker w)
  unfold workerStep at hstep
  split at hstep
  case h_1 hpc =>
    obtain ⟨hlock, hstep⟩ := Option.ite_none_right_eq_some.mp hstep
    rw [← Option.some.inj hstep]
    apply orderly_gotoWorker hs
    split
    · exact hlock
    · split
      · exact hlock
      · exact hlock
  case h_2 hpc =>
    rw [hpc] at hfits
    split at hstep
    case h_1 => cases hstep
    case h_2 task rest htasks =>
      rw [← Option.some.inj hstep]
      exact orderly_gotoWorker (s := { s with tasks := rest, taken := s.taken ++ [task] }) hs hfits
  case h_3 task hpc =>
    rw [hpc] at hfits
    rw [← Option.some.inj hstep]
    exact orderly_gotoWorker (s := { s with finished := s.finished ++ [task] }) hs (Or.inl hfits)
  all_goals cases hstep

theorem orderly_enqueuerStep (hs : s.spinlock.Orderly s.lockUse) {e : E} {allocated : Bool}
    (hstep : s.enqueuerStep e allocated = some after) : after.spinlock.Orderly after.lockUse := by
  have hfits : (s.enqueuer e).lockUse.Fits (s.spinlock.pc (.enqueuer e)) := hs.fits (.enqueuer e)
  unfold enqueuerStep at hstep
  split at hstep
  case h_1 task hpc =>
    obtain ⟨hlock, hstep⟩ := Option.ite_none_right_eq_some.mp hstep
    rw [← Option.some.inj hstep]
    split
    · exact orderly_gotoEnqueuer (s := { s with refused := s.refused ++ [task] }) hs hlock
    · exact orderly_gotoEnqueuer hs hlock
  case h_2 task hpc =>
    rw [hpc] at hfits
    rw [← Option.some.inj hstep]
    split
    · exact orderly_gotoEnqueuer
        (s := { s with tasks := s.tasks ++ [task], accepted := s.accepted ++ [task] }) hs hfits
    · exact orderly_gotoEnqueuer (s := { s with refused := s.refused ++ [task] }) hs hfits
  all_goals cases hstep

theorem orderly_destructorStep (hs : s.spinlock.Orderly s.lockUse)
    (hstep : s.destructorStep = some after) : after.spinlock.Orderly after.lockUse := by
  have hfits : s.destructor.lockUse.Fits (s.spinlock.pc .destructor) := hs.fits .destructor
  unfold destructorStep at hstep
  split at hstep
  case h_1 hpc =>
    obtain ⟨hlock, hafter⟩ := Option.ite_none_right_eq_some.mp hstep
    rw [← Option.some.inj hafter]
    exact orderly_setDestructor (s := { s with stop := true }) hs hlock
  case h_2 w rest hpc =>
    obtain ⟨-, hafter⟩ := Option.ite_none_right_eq_some.mp hstep
    rw [hpc] at hfits
    rw [← Option.some.inj hafter]
    exact orderly_setDestructor hs hfits
  all_goals cases hstep

/-- A step of the lock belongs to a constructor or to a destructor. -/
theorem spinlockStep_cases {a : SpinlockStep (Party threadAmount E)}
    (hstep : s.spinlockStep a = some after) : s.spinlock.pc a.thread = a.pc ∧
      ((s.lockUse a.thread = .constructing ∧ LockUse.constructing.Allows a ∧
          after = { s with spinlock := s.spinlock.effect a }) ∨
        (s.lockUse a.thread = .destructing ∧ LockUse.destructing.Allows a ∧
          after = { s with spinlock := s.spinlock.effect a }.unlocked a.thread)) := by
  obtain ⟨hallows, hstep⟩ := Option.ite_none_right_eq_some.mp hstep
  obtain ⟨lock, hlock, hafter⟩ := Option.map_eq_some_iff.mp hstep
  obtain ⟨hpc, rfl⟩ := Spinlock.step_eq_some.mp hlock
  refine ⟨hpc, ?_⟩
  rw [← hafter]
  cases huse : s.lockUse a.thread with
  | unused | inScope =>
    rw [huse] at hallows
    cases a <;> exact absurd hallows id
  | constructing =>
    rw [huse] at hallows
    exact Or.inl ⟨rfl, hallows, rfl⟩
  | destructing =>
    rw [huse] at hallows
    exact Or.inr ⟨rfl, hallows, rfl⟩

theorem orderly_spinlockStep (hs : s.spinlock.Orderly s.lockUse)
    {a : SpinlockStep (Party threadAmount E)} (hstep : s.spinlockStep a = some after) :
    after.spinlock.Orderly after.lockUse := by
  obtain ⟨hpc, ⟨huse, hallows, rfl⟩ | ⟨huse, hallows, rfl⟩⟩ := spinlockStep_cases hstep
  · exact hs.step_constructing hpc huse hallows
  · obtain ⟨hother, hself⟩ := lockUse_unlocked (s := { s with spinlock := s.spinlock.effect a }) huse
    rw [unlocked_spinlock]
    exact hs.step_destructing hpc hallows hother hself

theorem orderly_step (hs : s.spinlock.Orderly s.lockUse) {action : ThreadPoolStep threadAmount E}
    (hstep : s.step action = some after) : after.spinlock.Orderly after.lockUse := by
  cases action with
  | callEnqueue e =>
    obtain ⟨hpc, hafter⟩ := Option.ite_none_right_eq_some.mp hstep
    have hfits : (s.enqueuer e).lockUse.Fits (s.spinlock.pc (.enqueuer e)) := hs.fits (.enqueuer e)
    rw [hpc] at hfits
    rw [← Option.some.inj hafter]
    exact orderly_gotoEnqueuer (s := { s with created := s.created + 1 }) hs (Or.inl hfits)
  | callDestructor =>
    obtain ⟨hpc, hafter⟩ := Option.ite_none_right_eq_some.mp hstep
    have hfits : s.destructor.lockUse.Fits (s.spinlock.pc .destructor) := hs.fits .destructor
    rw [hpc] at hfits
    rw [← Option.some.inj hafter]
    exact orderly_setDestructor hs (Or.inl hfits)
  | spinlock a => exact orderly_spinlockStep hs hstep
  | worker w => exact orderly_workerStep hs hstep
  | enqueuer e allocated => exact orderly_enqueuerStep hs hstep
  | destructor => exact orderly_destructorStep hs hstep

omit [DecidableEq E] in
/-- The tasks before an accepted task stay the same. -/
theorem endlessBefore_of_longer {task : ℕ} (htask : task ∈ s.accepted)
    (hlonger : s.accepted <+: after.accepted) :
    after.endlessBefore endless task = s.endlessBefore endless task := by
  obtain ⟨later, hlater⟩ := hlonger
  have hindex := List.idxOf_lt_length_of_mem htask
  unfold endlessBefore
  rw [← hlater, List.idxOf_append_of_mem htask, List.take_append_of_le_length hindex.le]

omit [DecidableEq E] in
/-- Before the task that is taken next, all those taken were accepted. -/
theorem endlessBefore_of_split {task : ℕ} {before rest : List ℕ}
    (hsplit : s.accepted = before ++ task :: rest) (hnew : task ∉ before) :
    s.endlessBefore endless task = before.countP endless := by
  unfold endlessBefore
  rw [hsplit, List.idxOf_append_of_notMem hnew, List.idxOf_cons_self, Nat.add_zero,
    List.take_left]

/-- A task is finished only by the worker that runs it, and one that never returns never. -/
theorem finished_step {action : ThreadPoolStep threadAmount E}
    (hstep : (withEndless threadAmount E endless).step s action after) :
    ∀ task ∈ after.finished, task ∈ s.finished ∨ endless task = false := by
  obtain ⟨hstep, hreturns⟩ := hstep
  cases action with
  | callEnqueue e =>
    obtain ⟨-, hafter⟩ := Option.ite_none_right_eq_some.mp hstep
    rw [← Option.some.inj hafter]
    exact fun _ h ↦ Or.inl h
  | callDestructor =>
    obtain ⟨-, hafter⟩ := Option.ite_none_right_eq_some.mp hstep
    rw [← Option.some.inj hafter]
    exact fun _ h ↦ Or.inl h
  | spinlock a =>
    obtain ⟨-, ⟨-, -, rfl⟩ | ⟨-, -, rfl⟩⟩ := spinlockStep_cases hstep
    · exact fun _ h ↦ Or.inl h
    · generalize a.thread = t
      cases t <;> exact fun _ h ↦ Or.inl h
  | worker w =>
    change s.workerStep w = some after at hstep
    unfold workerStep at hstep
    split at hstep
    case h_1 =>
      obtain ⟨-, hafter⟩ := Option.ite_none_right_eq_some.mp hstep
      rw [← Option.some.inj hafter]
      exact fun _ h ↦ Or.inl h
    case h_2 =>
      split at hstep
      case h_1 => cases hstep
      case h_2 =>
        rw [← Option.some.inj hstep]
        exact fun _ h ↦ Or.inl h
    case h_3 task hpc =>
      rw [← Option.some.inj hstep]
      intro other hother
      rcases List.mem_append.mp hother with hold | hlast
      · exact Or.inl hold
      · rw [List.mem_singleton.mp hlast]
        exact Or.inr (hreturns w task rfl hpc)
    all_goals cases hstep
  | enqueuer e allocated =>
    change s.enqueuerStep e allocated = some after at hstep
    unfold enqueuerStep at hstep
    split at hstep
    case h_1 =>
      obtain ⟨-, hafter⟩ := Option.ite_none_right_eq_some.mp hstep
      rw [← Option.some.inj hafter]
      split <;> exact fun _ h ↦ Or.inl h
    case h_2 =>
      rw [← Option.some.inj hstep]
      split <;> exact fun _ h ↦ Or.inl h
    all_goals cases hstep
  | destructor =>
    change s.destructorStep = some after at hstep
    unfold destructorStep at hstep
    split at hstep
    case h_1 | h_2 =>
      obtain ⟨-, hafter⟩ := Option.ite_none_right_eq_some.mp hstep
      rw [← Option.some.inj hafter]
      exact fun _ h ↦ Or.inl h
    all_goals cases hstep

/-- What progress rests on. -/
structure Ready (endless : ℕ → Bool) (s : ThreadPool threadAmount E) : Prop where
  sound : s.Sound
  orderly : s.spinlock.Orderly s.lockUse
  returns : ∀ task ∈ s.finished, endless task = false
  started : ∀ task ∈ s.taken, s.endlessBefore endless task < threadAmount
  joined : ∀ workers, s.destructor = .joining workers → ∀ w, w ∉ workers → s.worker w = .returned
  stopping : s.stop = true → s.destructor = .unlocking ∨ ∃ workers, s.destructor = .joining workers

namespace Ready

omit [DecidableEq E] in
theorem mem_accepted (hs : s.Ready endless) {task : ℕ} (htask : task ∈ s.taken) :
    task ∈ s.accepted := by
  rw [hs.sound.handled.ordered]
  exact List.mem_append_left _ htask

omit [DecidableEq E] in
theorem nodup_taken (hs : s.Ready endless) : s.taken.Nodup := by
  have hnodup := hs.sound.answered.nodup
  rw [hs.sound.handled.ordered] at hnodup
  exact (List.nodup_append.mp hnodup).1

omit [DecidableEq E] in
/-- A task that never returns is in the hands of a worker once it is taken. -/
theorem inHand_of_endless (hs : s.Ready endless) {task : ℕ} (htask : task ∈ s.taken)
    (hendless : endless task = true) : InHand (fun w ↦ (s.worker w).task) task := by
  rcases (hs.sound.handled.taken task).mp htask with hfinished | hheld
  · rw [hs.returns task hfinished] at hendless
    cases hendless
  · exact hheld

omit [DecidableEq E] in
/-- A worker is available only if fewer tasks that never return were taken than there are workers. -/
theorem countP_taken_lt (hs : s.Ready endless) {w : Fin threadAmount}
    (havailable : s.Available endless w) : s.taken.countP endless < threadAmount := by
  have hheld : ∀ task ∈ s.taken.filter endless, InHand (fun v ↦ (s.worker v).task) task := by
    intro task htask
    rw [List.mem_filter] at htask
    exact hs.inHand_of_endless htask.1 htask.2
  have hother : ∀ task ∈ s.taken.filter endless, (s.worker w).task ≠ some task := by
    intro task htask hholds
    rw [List.mem_filter, havailable task hholds] at htask
    cases htask.2
  have hless := length_lt_card_of_inHand (hs.nodup_taken.filter endless) hheld hother
  rw [List.countP_eq_length_filter]
  rwa [Fintype.card_fin] at hless

omit [DecidableEq E] in
/-- And then one is. -/
theorem exists_available (hs : s.Ready endless)
    (hfew : s.taken.countP endless < threadAmount) : ∃ w, s.Available endless w := by
  by_contra hnone
  have hall : ∀ w, ∃ task ∈ s.taken.filter endless, (s.worker w).task = some task := by
    intro w
    by_contra hno
    apply hnone
    refine ⟨w, fun task hheld ↦ ?_⟩
    by_contra hendless
    rw [Bool.not_eq_false] at hendless
    have htaken := (hs.sound.handled.taken task).mpr (Or.inr ⟨w, hheld⟩)
    exact hno ⟨task, List.mem_filter.mpr ⟨htaken, hendless⟩, hheld⟩
  have hmany := card_le_length_of_hands hs.sound.handled.alone hall
  rw [Fintype.card_fin, ← List.countP_eq_length_filter] at hmany
  omega

omit [DecidableEq E] in
/-- Taking the next task. -/
theorem started_take (hs : s.Ready endless) {w : Fin threadAmount} {task : ℕ} {rest : List ℕ}
    (hpc : s.worker w = .taking) (htasks : s.tasks = task :: rest) :
    s.endlessBefore endless task < threadAmount := by
  have hsplit : s.accepted = s.taken ++ task :: rest := by
    rw [hs.sound.handled.ordered, htasks]
  have hnew : task ∉ s.taken := by
    intro htaken
    have hnodup := hs.sound.answered.nodup
    rw [hsplit] at hnodup
    exact (List.nodup_append.mp hnodup).2.2 task htaken task List.mem_cons_self rfl
  rw [endlessBefore_of_split hsplit hnew]
  apply hs.countP_taken_lt (w := w)
  intro other hheld
  rw [hpc] at hheld
  cases hheld

theorem started_step (hs : s.Ready endless) (hstep : s.PoolStep after) :
    ∀ task ∈ after.taken, after.endlessBefore endless task < threadAmount := by
  have hextends := extends_of_step hstep
  have hold (task : ℕ) (htask : task ∈ s.taken) :
      after.endlessBefore endless task < threadAmount := by
    rw [endlessBefore_of_longer (hs.mem_accepted htask) hextends.accepted]
    exact hs.started task htask
  cases hstep with
  | @take w task rest hpc htasks =>
    intro other hother
    rcases List.mem_append.mp hother with hbefore | hlast
    · exact hold other hbefore
    · rw [List.mem_singleton.mp hlast]
      exact hs.started_take hpc htasks
  | @unlock a =>
    revert hold
    generalize a.thread = t
    cases t <;> exact id
  | callEnqueue | callDestructor | lock | leave | find | miss | run | refuse | offer | accept | stop
  | join => exact hold

/-- The destructor has joined those that it is through with. -/
theorem joined_step (hs : s.Ready endless) (hstep : s.PoolStep after) : ∀ workers,
    after.destructor = .joining workers → ∀ w, w ∉ workers → after.worker w = .returned := by
  have hreturned := (extends_of_step hstep).returned
  have hold (workers : List (Fin threadAmount)) (hpc : s.destructor = .joining workers)
      (w : Fin threadAmount) (hw : w ∉ workers) : after.worker w = .returned :=
    hreturned w (hs.joined workers hpc w hw)
  cases hstep with
  | @unlock a hpc huse =>
    revert hold
    generalize a.thread = t at huse
    cases t with
    | worker w => exact id
    | enqueuer e => exact id
    | destructor =>
      rintro - workers ⟨⟩ w hw
      exact absurd (List.mem_finRange w) hw
  | @join v rest hpc hv =>
    rintro workers ⟨⟩ w hw
    by_cases hwv : w = v
    · rw [hwv]
      exact hv
    · exact hold _ hpc w (by simp [hwv, hw])
  | callDestructor | stop =>
    intro workers hjoining
    cases hjoining
  | callEnqueue | lock | leave | find | miss | take | run | refuse | offer | accept => exact hold

theorem stopping_step (hs : s.Ready endless) (hstep : s.PoolStep after) : after.stop = true →
    after.destructor = .unlocking ∨ ∃ workers, after.destructor = .joining workers := by
  have hold := hs.stopping
  cases hstep with
  | @unlock a hpc huse =>
    revert hold
    generalize a.thread = t at huse
    cases t with
    | worker w => exact id
    | enqueuer e => exact id
    | destructor => exact fun _ _ ↦ Or.inr ⟨_, rfl⟩
  | callDestructor hpc =>
    intro hstop
    rcases hold hstop with hunlocking | ⟨workers, hjoining⟩
    · rw [hpc] at hunlocking
      cases hunlocking
    · rw [hpc] at hjoining
      cases hjoining
  | stop => exact fun _ ↦ Or.inl rfl
  | join => exact fun _ ↦ Or.inr ⟨_, rfl⟩
  | callEnqueue | lock | leave | find | miss | take | run | refuse | offer | accept => exact hold

end Ready

omit [DecidableEq E] in
theorem ready_initial : (initial threadAmount E).Ready endless where
  sound := ⟨guards_initial, tested_initial, answered_initial, handled_initial⟩
  orderly := orderly_initial
  returns := by simp [initial]
  started := by simp [initial]
  joined := by simp [initial]
  stopping := by simp [initial]

theorem ready_step {action : ThreadPoolStep threadAmount E} (hs : s.Ready endless)
    (hstep : (withEndless threadAmount E endless).step s action after) : after.Ready endless := by
  have hpool := poolStep_of_step hstep.1
  exact {
    sound := sound_step hs.sound hpool
    orderly := orderly_step hs.orderly hstep.1
    returns := by
      intro task htask
      exact (finished_step hstep task htask).elim (hs.returns task) id
    started := hs.started_step hpool
    joined := hs.joined_step hpool
    stopping := hs.stopping_step hpool }

theorem ready_of_reachable (hreach : (withEndless threadAmount E endless).Reachable s) :
    s.Ready endless := by
  apply hreach.invariant (Ready endless)
  · rintro state rfl
    exact ready_initial
  · intro state action next hs hstep
    exact ready_step hs hstep

/-- What any further steps keep. -/
theorem Ready.of_leads (hs : s.Ready endless)
    (hleads : (withEndless threadAmount E endless).Leads s after) :
    after.Ready endless ∧ s.Extends after := by
  apply hleads.invariant fun after ↦ after.Ready endless ∧ s.Extends after
  · rintro state action next ⟨hstate, hextends⟩ hstep
    exact ⟨ready_step hstate hstep,
      hextends.trans (extends_of_step (poolStep_of_step hstep.1))⟩
  · exact ⟨hs, Extends.refl s⟩

/-! ## What a thread can do -/

/-- A step that is not the end of a task. -/
theorem leads_of_step {action : ThreadPoolStep threadAmount E} (hstep : s.step action = some after)
    (hreturns : ∀ w task, action = .worker w → s.worker w ≠ .running task) :
    (withEndless threadAmount E endless).Leads s after :=
  .of_step ⟨hstep, fun w task haction hpc ↦ absurd hpc (hreturns w task haction)⟩

/-- The steps of a constructor of `ExclusiveLockHolder`. -/
theorem leads_of_replay {t : Party threadAmount E} {steps : List (SpinlockStep (Party threadAmount E))}
    {lock : Spinlock (Party threadAmount E)} (huse : s.lockUse t = .constructing)
    (hsteps : ∀ a ∈ steps, a.thread = t ∧ LockUse.constructing.Allows a)
    (hreplay : System.replay Spinlock.step s.spinlock steps = some lock) :
    (withEndless threadAmount E endless).Leads s { s with spinlock := lock } := by
  induction steps generalizing s with
  | nil =>
    rw [System.replay, Option.some.injEq] at hreplay
    rw [← hreplay]
    exact .refl s
  | cons a rest ih =>
    obtain ⟨middle, hmiddle, hrest⟩ := Option.bind_eq_some_iff.mp hreplay
    obtain ⟨⟨rfl, hallows⟩, hlater⟩ := List.forall_mem_cons.mp hsteps
    have hstep : s.step (.spinlock a) = some { s with spinlock := middle } := by
      change s.spinlockStep a = _
      unfold spinlockStep
      rw [huse, if_pos hallows, hmiddle]
      rfl
    have hnext := @ih { s with spinlock := middle } huse hlater hrest
    exact (leads_of_step hstep (by simp)).trans hnext

/-- A thread in a constructor gets in if it holds the lock or nobody does. -/
theorem Ready.leads_enter (hs : s.Ready endless) {t : Party threadAmount E}
    (huse : s.lockUse t = .constructing) (hmay : s.spinlock.lock = 0 ∨ s.spinlock.Holds t) :
    ∃ lock : Spinlock (Party threadAmount E), lock.pc t = .writing ∧
      (withEndless threadAmount E endless).Leads s { s with spinlock := lock } := by
  obtain ⟨lock, ⟨steps, hsteps, hreplay⟩, hwriting⟩ := hs.orderly.entrance huse hmay
  exact ⟨lock, hwriting, leads_of_replay huse hsteps hreplay⟩

/-- A thread that unlocks leaves the lock free. -/
theorem leads_unlock {t : Party threadAmount E} (huse : s.lockUse t = .destructing)
    (hwriting : s.spinlock.pc t = .writing) :
    ∃ lock : Spinlock (Party threadAmount E), lock.lock = 0 ∧
      (withEndless threadAmount E endless).Leads s ({ s with spinlock := lock }.unlocked t) := by
  refine ⟨s.spinlock.effect (.exchangeUnlock t), rfl, ?_⟩
  have hstep : s.step (.spinlock (.exchangeUnlock t)) =
      some ({ s with spinlock := s.spinlock.effect (.exchangeUnlock t) }.unlocked t) := by
    have hallows : LockUse.destructing.Allows (SpinlockStep.exchangeUnlock t) := trivial
    change s.spinlockStep (.exchangeUnlock t) = _
    unfold spinlockStep
    rw [show s.lockUse (SpinlockStep.exchangeUnlock t).thread = _ from huse, if_pos hallows,
      Spinlock.step_eq_some.mpr ⟨hwriting, rfl⟩]
    rfl
  exact leads_of_step hstep (by simp)

/-- A worker that is not running a task takes its next step. -/
theorem leads_worker (w : Fin threadAmount) (hstep : s.workerStep w = some after)
    (hidle : ∀ task, s.worker w ≠ .running task) :
    (withEndless threadAmount E endless).Leads s after := by
  have hstep : s.step (.worker w) = some after := hstep
  apply leads_of_step hstep
  rintro v task ⟨⟩
  exact hidle task

/-- What a worker finds under the lock. -/
theorem leads_find {w : Fin threadAmount} (hpc : s.worker w = .locking)
    (hlock : s.spinlock.pc (.worker w) = .writing) (hfull : s.tasks ≠ []) :
    (withEndless threadAmount E endless).Leads s (s.gotoWorker w .taking) :=
  leads_worker w (by simp [workerStep, hpc, hlock, hfull]) (by simp [hpc])

theorem leads_leave {w : Fin threadAmount} (hpc : s.worker w = .locking)
    (hlock : s.spinlock.pc (.worker w) = .writing) (hstop : s.stop = true) (hempty : s.tasks = []) :
    (withEndless threadAmount E endless).Leads s (s.gotoWorker w .leaving) :=
  leads_worker w (by simp [workerStep, hpc, hlock, hstop, hempty]) (by simp [hpc])

theorem leads_miss {w : Fin threadAmount} (hpc : s.worker w = .locking)
    (hlock : s.spinlock.pc (.worker w) = .writing) (hstop : ¬ s.stop = true) (hempty : s.tasks = []) :
    (withEndless threadAmount E endless).Leads s (s.gotoWorker w (.unlocking none)) :=
  leads_worker w (by simp [workerStep, hpc, hlock, hstop, hempty]) (by simp [hpc])

theorem leads_take {w : Fin threadAmount} {task : ℕ} {rest : List ℕ} (hpc : s.worker w = .taking)
    (htasks : s.tasks = task :: rest) : (withEndless threadAmount E endless).Leads s
      ({ s with tasks := rest, taken := s.taken ++ [task] }.gotoWorker w (.unlocking (some task))) :=
  leads_worker w (by simp [workerStep, hpc, htasks]) (by simp [hpc])

/-- The end of a task that returns. -/
theorem leads_run {w : Fin threadAmount} {task : ℕ} (hpc : s.worker w = .running task)
    (hreturns : endless task = false) : (withEndless threadAmount E endless).Leads s
      ({ s with finished := s.finished ++ [task] }.gotoWorker w .locking) := by
  have hstep : s.step (.worker w) = some
      ({ s with finished := s.finished ++ [task] }.gotoWorker w .locking) := by
    change s.workerStep w = _
    unfold workerStep
    rw [hpc]
  refine .of_step ⟨hstep, ?_⟩
  rintro v other ⟨⟩ hother
  rw [hpc, WorkerPc.running.injEq] at hother
  rwa [← hother]

/-- A thread with the lock comes to the end of its scope. -/
theorem Ready.leads_scope (hs : s.Ready endless) {t : Party threadAmount E}
    (hwriting : s.spinlock.pc t = .writing) :
    ∃ after, (withEndless threadAmount E endless).Leads s after ∧
      after.lockUse t = .destructing := by
  have hfits := hs.orderly.fits t
  rw [hwriting] at hfits
  cases t with
  | worker w =>
    -- What is left of the scope when the worker is about to take a task.
    have htake (state : ThreadPool threadAmount E) (hpc : state.worker w = .taking)
        (hfull : state.tasks ≠ []) : ∃ after, (withEndless threadAmount E endless).Leads state after ∧
          after.lockUse (.worker w) = .destructing := by
      obtain ⟨task, rest, htasks⟩ := List.exists_cons_of_ne_nil hfull
      exact ⟨_, leads_take hpc htasks, by simp [lockUse_gotoWorker, WorkerPc.lockUse]⟩
    change (s.worker w).lockUse.Fits _ at hfits
    cases hpc : s.worker w with
    | locking =>
      by_cases hempty : s.tasks = []
      · by_cases hstop : s.stop = true
        · exact ⟨_, leads_leave hpc hwriting hstop hempty,
            by simp [lockUse_gotoWorker, WorkerPc.lockUse]⟩
        · exact ⟨_, leads_miss hpc hwriting hstop hempty,
            by simp [lockUse_gotoWorker, WorkerPc.lockUse]⟩
      · obtain ⟨after, hafter, hdone⟩ := htake (s.gotoWorker w .taking)
          (by simp [gotoWorker_worker]) hempty
        exact ⟨after, (leads_find hpc hwriting hempty).trans hafter, hdone⟩
    | taking => exact htake s hpc (hs.sound.tested.ready w hpc)
    | unlocking task | leaving => exact ⟨s, .refl s, by simp [lockUse, hpc, WorkerPc.lockUse]⟩
    | running task | returned =>
      rw [hpc] at hfits
      cases hfits
  | enqueuer e =>
    have haccept (state : ThreadPool threadAmount E) (task : ℕ)
        (hpc : state.enqueuer e = .emplacing task) :
        ∃ after, (withEndless threadAmount E endless).Leads state after ∧
          after.lockUse (.enqueuer e) = .destructing := by
      have hstep : state.step (.enqueuer e true) = some ({ state with
          tasks := state.tasks ++ [task], accepted := state.accepted ++ [task] }.gotoEnqueuer e
            .unlocking) := by
        simp [step, enqueuerStep, hpc]
      exact ⟨_, leads_of_step hstep (by simp), by simp [lockUse_gotoEnqueuer, EnqueuePc.lockUse]⟩
    change (s.enqueuer e).lockUse.Fits _ at hfits
    cases hpc : s.enqueuer e with
    | outside =>
      rw [hpc] at hfits
      cases hfits
    | locking task =>
      by_cases hstop : s.stop = true
      · have hstep : s.step (.enqueuer e true) = some
            ({ s with refused := s.refused ++ [task] }.gotoEnqueuer e .unlocking) := by
          simp [step, enqueuerStep, hpc, hwriting, hstop]
        exact ⟨_, leads_of_step hstep (by simp), by simp [lockUse_gotoEnqueuer, EnqueuePc.lockUse]⟩
      · have hstep : s.step (.enqueuer e true) = some (s.gotoEnqueuer e (.emplacing task)) := by
          simp [step, enqueuerStep, hpc, hwriting, hstop]
        obtain ⟨after, hafter, hdone⟩ := haccept (s.gotoEnqueuer e (.emplacing task)) task
          (by simp [gotoEnqueuer_enqueuer])
        exact ⟨after, (leads_of_step hstep (by simp)).trans hafter, hdone⟩
    | emplacing task => exact haccept s task hpc
    | unlocking => exact ⟨s, .refl s, by simp [lockUse, hpc, EnqueuePc.lockUse]⟩
  | destructor =>
    change s.destructor.lockUse.Fits _ at hfits
    cases hpc : s.destructor with
    | outside | joining workers =>
      rw [hpc] at hfits
      cases hfits
    | locking =>
      have hstep : s.step .destructor = some { s with stop := true, destructor := .unlocking } := by
        simp [step, destructorStep, hpc, hwriting]
      exact ⟨_, leads_of_step hstep (by simp), rfl⟩
    | unlocking => exact ⟨s, .refl s, by simp [lockUse, hpc, DestructorPc.lockUse]⟩

/-- Whoever holds the lock gives it back. -/
theorem Ready.release (hs : s.Ready endless) :
    ∃ after, (withEndless threadAmount E endless).Leads s after ∧ after.spinlock.lock = 0 := by
  by_cases hfree : s.spinlock.lock = 0
  · exact ⟨s, .refl s, hfree⟩
  obtain ⟨t, hholds⟩ := hs.orderly.held hfree
  have hentered : ∃ inside, (withEndless threadAmount E endless).Leads s inside ∧
      inside.spinlock.pc t = .writing := by
    cases huse : s.lockUse t with
    | constructing =>
      obtain ⟨lock, hwriting, hleads⟩ := hs.leads_enter huse (Or.inr hholds)
      exact ⟨_, hleads, hwriting⟩
    | inScope => exact ⟨s, .refl s, hs.orderly.writing_of_entered (Or.inl huse)⟩
    | destructing => exact ⟨s, .refl s, hs.orderly.writing_of_entered (Or.inr huse)⟩
    | unused =>
      have houtside := hs.orderly.fits t
      rw [huse] at houtside
      simp [Spinlock.Holds, show s.spinlock.pc t = .outside from houtside] at hholds
  obtain ⟨inside, hinside, hwriting⟩ := hentered
  obtain ⟨through, hthrough, huse⟩ := (hs.of_leads hinside).1.leads_scope hwriting
  have hready := (hs.of_leads (hinside.trans hthrough)).1
  obtain ⟨lock, hzero, hlast⟩ :=
    leads_unlock huse (hready.orderly.writing_of_entered (Or.inr huse))
  exact ⟨_, (hinside.trans hthrough).trans hlast, by rwa [unlocked_spinlock]⟩

/-! ## Which tasks are started -/

namespace Ready

omit [DecidableEq E] in
/-- While the lock is free nobody is in a scope. -/
theorem not_entered (hs : s.Ready endless) (hfree : s.spinlock.lock = 0) (t : Party threadAmount E) :
    ¬ (s.lockUse t).Entered := by
  intro hentered
  have hset := hs.orderly.sole.locked t (Or.inr (hs.orderly.writing_of_entered hentered))
  rw [hfree] at hset
  cases hset

omit [DecidableEq E] in
/-- So a worker waits there for the lock, runs a task or has returned. -/
theorem worker_of_free (hs : s.Ready endless) (hfree : s.spinlock.lock = 0) (w : Fin threadAmount) :
    s.worker w = .locking ∨ (∃ task, s.worker w = .running task) ∨ s.worker w = .returned := by
  have houtside : ¬ (s.worker w).lockUse.Entered := hs.not_entered hfree (.worker w)
  cases hpc : s.worker w with
  | locking => exact Or.inl rfl
  | running task => exact Or.inr (Or.inl ⟨task, rfl⟩)
  | returned => exact Or.inr (Or.inr rfl)
  | taking | unlocking task | leaving =>
    rw [hpc] at houtside
    simp [WorkerPc.lockUse, LockUse.Entered] at houtside

/-- When the lock is free an available worker can be about to lock, unless it has returned. -/
theorem leads_locking (hs : s.Ready endless) (hfree : s.spinlock.lock = 0) {w : Fin threadAmount}
    (havailable : s.Available endless w) (hpresent : s.worker w ≠ .returned) :
    ∃ after, (withEndless threadAmount E endless).Leads s after ∧ after.worker w = .locking ∧
      after.spinlock = s.spinlock ∧ after.tasks = s.tasks ∧ after.taken = s.taken := by
  rcases hs.worker_of_free hfree w with hlocking | ⟨task, hrunning⟩ | hreturned
  · exact ⟨s, .refl s, hlocking, rfl, rfl, rfl⟩
  · have hreturns : endless task = false := havailable task (by rw [hrunning]; rfl)
    exact ⟨_, leads_run hrunning hreturns, by simp [gotoWorker_worker], rfl, rfl, rfl⟩
  · exact absurd hreturned hpresent

/-- It gets in. -/
theorem leads_inside (hs : s.Ready endless) (hfree : s.spinlock.lock = 0) {w : Fin threadAmount}
    (havailable : s.Available endless w) (hpresent : s.worker w ≠ .returned) :
    ∃ after, (withEndless threadAmount E endless).Leads s after ∧ after.worker w = .locking ∧
      after.spinlock.pc (.worker w) = .writing ∧ after.tasks = s.tasks ∧ after.taken = s.taken := by
  obtain ⟨waiting, hwaiting, hpc, hlock, htasks, htaken⟩ :=
    hs.leads_locking hfree havailable hpresent
  have huse : waiting.lockUse (.worker w) = .constructing := by
    rw [lockUse_worker, hpc]
    rfl
  obtain ⟨lock, hwriting, hinside⟩ :=
    (hs.of_leads hwaiting).1.leads_enter huse (Or.inl (by rw [hlock, hfree]))
  exact ⟨_, hwaiting.trans hinside, hpc, hwriting, htasks, htaken⟩

/-- It takes the next task. -/
theorem take_next (hs : s.Ready endless) (hfree : s.spinlock.lock = 0) {w : Fin threadAmount}
    (havailable : s.Available endless w) (hfull : s.tasks ≠ []) :
    ∃ after, (withEndless threadAmount E endless).Leads s after ∧
      s.taken.length < after.taken.length := by
  have hpresent : s.worker w ≠ .returned := by
    intro hreturned
    exact hfull (hs.sound.tested.stopped w (Or.inr hreturned)).2
  obtain ⟨inside, hinside, hpc, hwriting, htasks, htaken⟩ :=
    hs.leads_inside hfree havailable hpresent
  obtain ⟨task, rest, hnext⟩ := List.exists_cons_of_ne_nil hfull
  have hfind : (withEndless threadAmount E endless).Leads inside (inside.gotoWorker w .taking) :=
    leads_find hpc hwriting (by rwa [htasks])
  have htake := hfind.trans (leads_take (w := w) (by simp [gotoWorker_worker]) (htasks.trans hnext))
  refine ⟨_, hinside.trans htake, ?_⟩
  change s.taken.length < (inside.taken ++ [task]).length
  rw [htaken, List.length_append]
  exact Nat.lt_succ_self _

omit [DecidableEq E] in
/-- What was taken was accepted before a task that was not. -/
theorem countP_taken_le (hs : s.Ready endless) {task : ℕ} (hnew : task ∉ s.taken) :
    s.taken.countP endless ≤ s.endlessBefore endless task := by
  unfold endlessBefore
  rw [hs.sound.handled.ordered, List.idxOf_append_of_notMem hnew, List.take_length_add_append,
    List.countP_append]
  exact Nat.le_add_right _ _

/-- An accepted task is started if there are workers enough for the tasks before it. -/
theorem canStart (hs : s.Ready endless) {task : ℕ} (htask : task ∈ s.accepted)
    (hfew : s.endlessBefore endless task < threadAmount) :
    (withEndless threadAmount E endless).CanReach (fun after ↦ task ∈ after.taken) s := by
  apply System.CanReach.of_measure
    (fun state ↦ state.Ready endless ∧ task ∈ state.accepted ∧
      state.endlessBefore endless task < threadAmount)
    (fun state ↦ state.accepted.idxOf task + 1 - state.taken.length) ?_ ⟨hs, htask, hfew⟩
  rintro state ⟨hstate, haccepted, hbefore⟩ -
  obtain ⟨unlocked, hunlocked, hfree⟩ := hstate.release
  by_cases htaken : task ∈ unlocked.taken
  · exact ⟨unlocked, hunlocked, Or.inl htaken⟩
  -- The first task in the queue is taken by a worker that is available.
  obtain ⟨hready, hextends⟩ := hstate.of_leads hunlocked
  have hqueued : task ∈ unlocked.tasks := by
    have hmem := hextends.accepted.subset haccepted
    rw [hready.sound.handled.ordered] at hmem
    exact (List.mem_append.mp hmem).resolve_left htaken
  have hcount : unlocked.taken.countP endless < threadAmount := by
    apply lt_of_le_of_lt (hready.countP_taken_le htaken)
    rwa [endlessBefore_of_longer haccepted hextends.accepted]
  obtain ⟨w, havailable⟩ := hready.exists_available hcount
  obtain ⟨after, hafter, hlonger⟩ :=
    hready.take_next hfree havailable (List.ne_nil_of_mem hqueued)
  have hall := hunlocked.trans hafter
  obtain ⟨hlast, hgrown⟩ := hstate.of_leads hall
  refine ⟨after, hall, Or.inr ⟨⟨hlast, hgrown.accepted.subset haccepted, ?_⟩, ?_⟩⟩
  · rwa [endlessBefore_of_longer haccepted hgrown.accepted]
  · obtain ⟨later, hlater⟩ := hgrown.accepted
    have hplace : unlocked.taken.length ≤ state.accepted.idxOf task := by
      obtain ⟨more, hmore⟩ := hextends.accepted
      have hindex : unlocked.accepted.idxOf task = state.accepted.idxOf task := by
        rw [← hmore, List.idxOf_append_of_mem haccepted]
      rw [← hindex, hready.sound.handled.ordered, List.idxOf_append_of_notMem htaken]
      exact Nat.le_add_right _ _
    have hshort := hextends.taken.length_le
    rw [← hlater, List.idxOf_append_of_mem haccepted]
    omega

/-- A task that was taken and returns is run to its end. -/
theorem canFinish (hs : s.Ready endless) {task : ℕ} (htaken : task ∈ s.taken)
    (hreturns : endless task = false) :
    (withEndless threadAmount E endless).CanReach (fun after ↦ task ∈ after.finished) s := by
  have hend (state : ThreadPool threadAmount E) (w : Fin threadAmount)
      (hrunning : state.worker w = .running task) :
      (withEndless threadAmount E endless).CanReach (fun after ↦ task ∈ after.finished) state :=
    ⟨_, leads_run hrunning hreturns, List.mem_append_right _ (List.mem_singleton_self task)⟩
  rcases (hs.sound.handled.taken task).mp htaken with hfinished | ⟨w, hheld⟩
  · exact System.CanReach.of_goal hfinished
  · cases hpc : s.worker w with
    | unlocking held =>
      rw [hpc] at hheld
      have huse : s.lockUse (.worker w) = .destructing := by
        rw [lockUse_worker, hpc]
        rfl
      obtain ⟨lock, -, hleads⟩ := leads_unlock huse (hs.orderly.writing_of_entered (Or.inr huse))
      apply System.CanReach.of_leads hleads
      apply hend _ w
      rw [unlocked, gotoWorker_worker, if_pos rfl, hpc, show held = some task from hheld]
      rfl
    | running other =>
      rw [hpc] at hheld
      exact hend s w (by rw [hpc, Option.some.inj hheld])
    | locking | taking | leaving | returned =>
      rw [hpc] at hheld
      cases hheld

end Ready

/-- **Which tasks a pool can start.** From every state that it can reach an accepted task can still be
started, or has been, exactly if fewer tasks that never return were accepted before it than there are
workers, and it can still be run to its end exactly if it also returns itself. -/
theorem canFinish_iff (hreach : (withEndless threadAmount E endless).Reachable s) {task : ℕ}
    (htask : task ∈ s.accepted) :
    ((withEndless threadAmount E endless).CanReach (fun after ↦ task ∈ after.taken) s ↔
      s.endlessBefore endless task < threadAmount) ∧
    ((withEndless threadAmount E endless).CanReach (fun after ↦ task ∈ after.finished) s ↔
      s.endlessBefore endless task < threadAmount ∧ endless task = false) := by
  have hs := ready_of_reachable hreach
  have hstarted {after : ThreadPool threadAmount E}
      (hleads : (withEndless threadAmount E endless).Leads s after) (htaken : task ∈ after.taken) :
      s.endlessBefore endless task < threadAmount := by
    obtain ⟨hready, hextends⟩ := hs.of_leads hleads
    rw [← endlessBefore_of_longer htask hextends.accepted]
    exact hready.started task htaken
  refine ⟨⟨?_, hs.canStart htask⟩, ?_, ?_⟩
  · rintro ⟨after, hleads, htaken⟩
    exact hstarted hleads htaken
  · rintro ⟨after, hleads, hfinished⟩
    obtain ⟨hready, -⟩ := hs.of_leads hleads
    exact ⟨hstarted hleads ((hready.sound.handled.taken task).mpr (Or.inl hfinished)),
      hready.returns task hfinished⟩
  · rintro ⟨hfew, hreturns⟩
    obtain ⟨middle, hleads, htaken⟩ := hs.canStart htask hfew
    exact System.CanReach.of_leads hleads ((hs.of_leads hleads).1.canFinish htaken hreturns)

/-- A run in which no worker has taken a step outside the lock yet is one whatever the tasks do. -/
theorem exists_reachable {steps : List (ThreadPoolStep threadAmount E)}
    {test : ThreadPool threadAmount E → Bool} (hsteps : ∀ a ∈ steps, ∀ w, a ≠ .worker w)
    (hreplay : (System.replay step (initial threadAmount E) steps).map test = some true) :
    ∃ s, (∀ endless, (withEndless threadAmount E endless).Reachable s) ∧ test s = true := by
  obtain ⟨s, hlast, htest⟩ := Option.map_eq_some_iff.mp hreplay
  refine ⟨s, fun endless ↦ ?_, htest⟩
  have hleads : (withEndless threadAmount E endless).Leads (initial threadAmount E) s := by
    apply System.Leads.of_replay ?_ hlast
    intro a ha state next hstep
    exact ⟨hstep, fun w task haction ↦ absurd haction (hsteps a ha w)⟩
  have hstart : (withEndless threadAmount E endless).Run [] (initial threadAmount E) := .start rfl
  obtain ⟨history, hrun⟩ := hstart.leads hleads
  exact ⟨_, hrun⟩

/-- A task is accepted. -/
def enqueueSteps : List (ThreadPoolStep 1 Unit) :=
  [.callEnqueue ()] ++ lockSteps (.enqueuer ()) ++ [.enqueuer () true, .enqueuer () true,
    .spinlock (.exchangeUnlock (.enqueuer ()))]

/-- The theorem applied to a worker that never comes back from its first task. -/
theorem canFinish_iff_starved : ∃ s : ThreadPool 1 Unit, s.accepted = [0, 1] ∧
    (withEndless 1 Unit (· = 0)).CanReach (fun after ↦ 0 ∈ after.taken) s ∧
    ¬ (withEndless 1 Unit (· = 0)).CanReach (fun after ↦ 0 ∈ after.finished) s ∧
    ¬ (withEndless 1 Unit (· = 0)).CanReach (fun after ↦ 1 ∈ after.taken) s := by
  have hreplay : (System.replay step (initial 1 Unit) (enqueueSteps ++ enqueueSteps)).map
      (fun s ↦ decide (s.accepted = [0, 1])) = some true := by decide +kernel
  obtain ⟨s, hreach, htest⟩ := exists_reachable (by decide) hreplay
  have haccepted : s.accepted = [0, 1] := of_decide_eq_true htest
  have hfirst := canFinish_iff (hreach (· = 0)) (show 0 ∈ s.accepted by simp [haccepted])
  have hsecond := canFinish_iff (hreach (· = 0)) (show 1 ∈ s.accepted by simp [haccepted])
  refine ⟨s, haccepted, hfirst.1.mpr ?_, fun h ↦ ?_, fun h ↦ ?_⟩
  · simp [endlessBefore, haccepted]
  · simpa using (hfirst.2.mp h).2
  · simpa [endlessBefore, haccepted, List.idxOf_cons] using hsecond.1.mp h

/-! ## The end of the destructor -/

/-- What is left before all workers have returned. -/
def remaining (s : ThreadPool threadAmount E) : ℕ :=
  s.tasks.length + (Finset.univ.filter fun w ↦ s.worker w ≠ .returned).card

namespace Ready

/-- A stopped pool stays stopped and accepts nothing. -/
theorem stopped_leads (hs : s.Ready endless) (hstop : s.stop = true)
    (hleads : (withEndless threadAmount E endless).Leads s after) :
    after.stop = true ∧ after.accepted = s.accepted := by
  have hkept := hleads.invariant
    (fun state ↦ state.Ready endless ∧ state.stop = true ∧ state.accepted = s.accepted) ?_
    ⟨hs, hstop, rfl⟩
  · exact hkept.2
  · rintro state action next ⟨hstate, hstopped, haccepted⟩ hstep
    obtain ⟨hstill, hsame⟩ := stopped_step hstate.sound hstopped (poolStep_of_step hstep.1)
    exact ⟨ready_step hstate hstep, hstill, hsame.trans haccepted⟩

omit [DecidableEq E] in
/-- A stopped pool gets on when a task is taken or a worker returns. -/
theorem remaining_lt (hs : s.Ready endless) (hafter : after.Ready endless) (hextends : s.Extends after)
    (haccepted : after.accepted = s.accepted)
    (hprogress : s.taken.length < after.taken.length ∨
      ∃ w, s.worker w ≠ .returned ∧ after.worker w = .returned) :
    after.remaining < s.remaining := by
  have htasks : after.taken.length + after.tasks.length = s.taken.length + s.tasks.length := by
    rw [← List.length_append, ← List.length_append, ← hafter.sound.handled.ordered,
      ← hs.sound.handled.ordered, haccepted]
  have hlonger := hextends.taken.length_le
  have hfewer : (Finset.univ.filter fun w ↦ after.worker w ≠ .returned) ⊆
      Finset.univ.filter fun w ↦ s.worker w ≠ .returned := by
    intro w hw
    rw [Finset.mem_filter] at hw ⊢
    exact ⟨hw.1, fun hreturned ↦ hw.2 (hextends.returned w hreturned)⟩
  unfold remaining
  rcases hprogress with htaken | ⟨w, hpresent, hreturned⟩
  · have hcard := Finset.card_le_card hfewer
    omega
  · have hcard : (Finset.univ.filter fun w ↦ after.worker w ≠ .returned).card <
        (Finset.univ.filter fun w ↦ s.worker w ≠ .returned).card := by
      apply Finset.card_lt_card
      refine Finset.ssubset_iff_subset_ne.mpr ⟨hfewer, fun hsame ↦ ?_⟩
      have hmem : w ∈ Finset.univ.filter fun w ↦ s.worker w ≠ .returned := by simp [hpresent]
      rw [← hsame] at hmem
      simp [hreturned] at hmem
    omega

omit [DecidableEq E] in
/-- If all tasks return every worker is available. -/
theorem available (hs : s.Ready endless) (hreturn : ∀ task ∈ s.accepted, endless task = false)
    (w : Fin threadAmount) : s.Available endless w := by
  intro task hheld
  apply hreturn
  exact hs.mem_accepted ((hs.sound.handled.taken task).mpr (Or.inr ⟨w, hheld⟩))

/-- An available worker returns from a stopped pool without tasks. -/
theorem leads_returned (hs : s.Ready endless) (hstop : s.stop = true) (hempty : s.tasks = [])
    (hfree : s.spinlock.lock = 0) {w : Fin threadAmount} (havailable : s.Available endless w)
    (hpresent : s.worker w ≠ .returned) :
    ∃ after, (withEndless threadAmount E endless).Leads s after ∧ after.worker w = .returned := by
  obtain ⟨inside, hinside, hpc, hwriting, htasks, -⟩ :=
    hs.leads_inside hfree havailable hpresent
  have hstopped := (hs.stopped_leads hstop hinside).1
  have hleave : (withEndless threadAmount E endless).Leads inside (inside.gotoWorker w .leaving) :=
    leads_leave hpc hwriting hstopped (htasks.trans hempty)
  have huse : (inside.gotoWorker w .leaving).lockUse (.worker w) = .destructing := by
    rw [lockUse_gotoWorker, if_pos rfl]
    rfl
  obtain ⟨lock, -, hunlock⟩ := leads_unlock huse hwriting
  refine ⟨_, (hinside.trans hleave).trans hunlock, ?_⟩
  simp [unlocked, gotoWorker_worker, WorkerPc.unlocked]

/-- If all tasks return so do the workers of a stopped pool. -/
theorem canReturn (hs : s.Ready endless) (hstop : s.stop = true)
    (hreturn : ∀ task ∈ s.accepted, endless task = false) :
    (withEndless threadAmount E endless).CanReach (fun after ↦ ∀ w, after.worker w = .returned) s := by
  apply System.CanReach.of_measure
    (fun state ↦ state.Ready endless ∧ state.stop = true ∧
      ∀ task ∈ state.accepted, endless task = false)
    remaining ?_ ⟨hs, hstop, hreturn⟩
  rintro state ⟨hstate, hstopped, hall⟩ hsome
  obtain ⟨w, hpresent⟩ := not_forall.mp hsome
  obtain ⟨unlocked, hunlocked, hfree⟩ := hstate.release
  obtain ⟨hready, hextends⟩ := hstate.of_leads hunlocked
  obtain ⟨hstill, haccepted⟩ := hstate.stopped_leads hstopped hunlocked
  have havailable := hready.available (haccepted ▸ hall) w
  -- The worker has returned by now, or it returns, or it takes a task.
  have hprogress : ∃ after, (withEndless threadAmount E endless).Leads unlocked after ∧
      (state.taken.length < after.taken.length ∨ after.worker w = .returned) := by
    by_cases hreturned : unlocked.worker w = .returned
    · exact ⟨unlocked, .refl unlocked, Or.inr hreturned⟩
    · by_cases hempty : unlocked.tasks = []
      · obtain ⟨after, hafter, hdone⟩ :=
          hready.leads_returned hstill hempty hfree havailable hreturned
        exact ⟨after, hafter, Or.inr hdone⟩
      · obtain ⟨after, hafter, hlonger⟩ := hready.take_next hfree havailable hempty
        exact ⟨after, hafter, Or.inl (lt_of_le_of_lt hextends.taken.length_le hlonger)⟩
  obtain ⟨after, hafter, hdone⟩ := hprogress
  have hleads := hunlocked.trans hafter
  obtain ⟨hlast, hgrown⟩ := hstate.of_leads hleads
  obtain ⟨hend, hsame⟩ := hstate.stopped_leads hstopped hleads
  refine ⟨after, hleads, Or.inr ⟨⟨hlast, hend, by rwa [hsame]⟩, ?_⟩⟩
  exact hstate.remaining_lt hlast hgrown hsame (hdone.imp id fun hreturned ↦ ⟨w, hpresent, hreturned⟩)

end Ready

/-- Workers that have returned are joined. -/
theorem leads_joined (workers : List (Fin threadAmount)) (hpc : s.destructor = .joining workers)
    (hreturned : ∀ w, s.worker w = .returned) :
    ∃ after, (withEndless threadAmount E endless).Leads s after ∧ after.destructor = .joining [] := by
  induction workers generalizing s with
  | nil => exact ⟨s, .refl s, hpc⟩
  | cons w rest ih =>
    have hstep : s.step .destructor = some { s with destructor := .joining rest } := by
      simp [step, destructorStep, hpc, hreturned w]
    obtain ⟨after, hafter, hdone⟩ := @ih { s with destructor := .joining rest } rfl hreturned
    exact ⟨after, (leads_of_step hstep (by simp)).trans hafter, hdone⟩

/-- **When the destructor comes to its end.** Once `stop` is set `~ThreadPool` can still join all the
workers, from every state that the pool can reach, exactly if there are none or no task was accepted
that never returns. -/
theorem canJoin_iff (hreach : (withEndless threadAmount E endless).Reachable s)
    (hstop : s.stop = true) :
    (withEndless threadAmount E endless).CanReach (fun after ↦ after.destructor = .joining []) s ↔
      threadAmount = 0 ∨ ∀ task ∈ s.accepted, endless task = false := by
  have hs := ready_of_reachable hreach
  constructor
  · rintro ⟨after, hleads, hjoined⟩
    obtain ⟨hready, hextends⟩ := hs.of_leads hleads
    rcases Nat.eq_zero_or_pos threadAmount with hnone | hsome
    · exact Or.inl hnone
    · right
      intro task htask
      -- All workers have returned, so the task was run to its end.
      have hdrained := (hready.sound.runsOnce hsome).drained
        (fun w ↦ hready.joined [] hjoined w (List.not_mem_nil)) task (hextends.accepted.subset htask)
      apply hready.returns task
      rw [← List.count_pos_iff, hdrained]
      exact Nat.one_pos
  · intro hreturn
    have hworkers : (withEndless threadAmount E endless).CanReach
        (fun after ↦ ∀ w, after.worker w = .returned) s := by
      rcases hreturn with rfl | hreturn
      · exact System.CanReach.of_goal (fun w ↦ w.elim0)
      · exact hs.canReturn hstop hreturn
    obtain ⟨middle, hmiddle, hreturned⟩ := hworkers
    obtain ⟨hready, -⟩ := hs.of_leads hmiddle
    apply System.CanReach.of_leads hmiddle
    rcases hready.stopping (hs.stopped_leads hstop hmiddle).1 with hunlocking | ⟨workers, hjoining⟩
    · have huse : middle.lockUse .destructor = .destructing := by
        change middle.destructor.lockUse = _
        rw [hunlocking]
        rfl
      obtain ⟨lock, -, hunlock⟩ :=
        leads_unlock huse (hready.orderly.writing_of_entered (Or.inr huse))
      obtain ⟨after, hafter, hdone⟩ := leads_joined (List.finRange threadAmount)
        (s := { middle with spinlock := lock }.unlocked .destructor) rfl hreturned
      exact ⟨after, hunlock.trans hafter, hdone⟩
    · exact leads_joined workers hjoining hreturned

/-- A task is accepted and the pool is stopped. -/
def stopSteps : List (ThreadPoolStep 1 Unit) :=
  enqueueSteps ++ [.callDestructor] ++ lockSteps .destructor ++ [.destructor]

/-- The theorem applied to a pool with one task, which may return or not. -/
theorem canJoin_iff_single : ∃ s : ThreadPool 1 Unit, s.accepted = [0] ∧
    (withEndless 1 Unit fun _ ↦ false).CanReach (fun after ↦ after.destructor = .joining []) s ∧
    ¬ (withEndless 1 Unit fun _ ↦ true).CanReach (fun after ↦ after.destructor = .joining []) s := by
  have hreplay : (System.replay step (initial 1 Unit) stopSteps).map
      (fun s ↦ decide (s.accepted = [0] ∧ s.stop = true)) = some true := by decide +kernel
  obtain ⟨s, hreach, htest⟩ := exists_reachable (by decide) hreplay
  obtain ⟨haccepted, hstop⟩ := of_decide_eq_true htest
  refine ⟨s, haccepted, (canJoin_iff (hreach _) hstop).mpr (Or.inr (by simp)), fun h ↦ ?_⟩
  simpa [haccepted] using (canJoin_iff (hreach _) hstop).mp h

end ThreadPool

end ServerCore.ThreadManager
