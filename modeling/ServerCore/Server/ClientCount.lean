import ServerCore.Foundation.Counting
import ServerCore.Server.ClientManager

/-!
# The count of clients

`current_` counts the clients. `RemoveClient` decrements it under `lock_`, and `NewClient` increments it
without the lock, so either of the two stores may overwrite the other. The main theorem says that the
count is right whenever no operation is in progress, and `NewClient` then returns null exactly when
`limit_` clients exist, in every run in which each store finds the number that was read before it.
-/

namespace ServerCore.Server

open Foundation Lock

namespace ClientManager

variable {ι : Type} [DecidableEq ι] [Fintype ι] {s after : ClientManager ι}

/-- No operation is in progress. -/
def Idle (s : ClientManager ι) : Prop :=
  s.newClient = .outside ∧ ∀ w, s.worker w = .outside

/-- When no operation is in progress, `current_` is the number of clients created and not destroyed,
and `NewClient` returns null if and only if `limit_` clients live. -/
def CountRight (s : ClientManager ι) : Prop :=
  s.Idle → (s.current : ℤ) = s.created - s.destroyed ∧
    (s.testLimit = .outside ↔ s.living.length = clientLimit)

/-- A store to `current_` finds the number that the thread has read. -/
def Unraced (s : ClientManager ι) : ManagerAction ι → Prop
  | .newClient _ => ∀ current ∈ s.newClient.read, s.current = current
  | .worker w => ∀ current ∈ (s.worker w).read, s.current = current
  | _ => True

instance (s : ClientManager ι) (action : ManagerAction ι) : Decidable (s.Unraced action) := by
  unfold Unraced
  split <;> infer_instance

/-! ## The balance -/

/-- The client that `NewClient` has constructed and not counted yet. -/
def uncounted (s : ClientManager ι) : ℕ :=
  s.newClient.client.toList.length

/-- The workers that have destroyed a client and not decremented `current_` yet. -/
def overcounted (s : ClientManager ι) : ℕ :=
  count ManagerPc.Uncounted s.worker

/-- `current_` is off by the operations in progress only. -/
def Balanced (s : ClientManager ι) : Prop :=
  s.current + s.uncounted = s.living.length + s.overcounted

/-- What runs keep in which no store is raced. -/
structure Counted (s : ClientManager ι) : Prop where
  tracked : s.Tracked
  balanced : s.Balanced
  limited : s.current ≤ clientLimit
  tested : s.newClient ≠ .outside → s.current < clientLimit
  readNew : ∀ a current, s.newClient = .storing a current → current < clientLimit
  readOld : ∀ w a current, s.worker w = .storing a current → 1 ≤ current ∧ current ≤ clientLimit

omit [DecidableEq ι] [Fintype ι] in
theorem increment_read {current : ℕ} (h : current < clientLimit) :
    (current + 1) % 2 ^ 32 = current + 1 :=
  Nat.mod_eq_of_lt (by unfold clientLimit at h; omega)

omit [DecidableEq ι] [Fintype ι] in
theorem sub32_read {current : ℕ} (hpos : 1 ≤ current) (hle : current ≤ clientLimit) :
    sub32 current 1 = current - 1 :=
  sub32_of_le hpos (lt_of_le_of_lt hle (by decide))

/-- A worker counts towards the balance as before. -/
theorem overcounted_of_goto {w : ι} {pc : ManagerPc}
    (hworker : after.worker = Function.update s.worker w pc)
    (h : pc.Uncounted ↔ (s.worker w).Uncounted) : after.overcounted = s.overcounted := by
  have hcount := count_update ManagerPc.Uncounted s.worker w pc
  rw [← hworker] at hcount
  simp only [h] at hcount
  exact Nat.add_right_cancel hcount

omit [DecidableEq ι] [Fintype ι] in
/-- The clients that are not counted live. -/
theorem Tracked.uncounted_le (hs : s.Tracked) : s.uncounted ≤ s.living.length := by
  unfold uncounted
  cases hclient : s.newClient.client with
  | none => exact Nat.zero_le _
  | some a => exact List.length_pos_of_mem (hs.returning a hclient)

theorem overcounted_pos {w : ι} (h : (s.worker w).Uncounted) : 1 ≤ s.overcounted := by
  have hcount := count_update ManagerPc.Uncounted s.worker w .outside
  rw [if_pos h, if_neg (by exact id)] at hcount
  exact Nat.le_of_add_left_le (Nat.le_of_eq hcount)

/-- A worker goes on that counts as before. -/
theorem Counted.of_goto (hs : s.Counted) {w : ι} {pc : ManagerPc} (htracked : after.Tracked)
    (hcurrent : after.current = s.current) (hliving : after.living = s.living)
    (hnew : after.newClient = s.newClient)
    (hworker : after.worker = Function.update s.worker w pc)
    (huncounted : pc.Uncounted ↔ (s.worker w).Uncounted)
    (hstoring : ∀ a current, pc = .storing a current → 1 ≤ current ∧ current ≤ clientLimit) :
    after.Counted := by
  refine ⟨htracked, ?_, ?_, ?_, ?_, ?_⟩
  · rw [Balanced, hcurrent, hliving, overcounted_of_goto hworker huncounted, uncounted, hnew]
    exact hs.balanced
  · rw [hcurrent]
    exact hs.limited
  · rw [hnew, hcurrent]
    exact hs.tested
  · rw [hnew]
    exact hs.readNew
  · intro v a current hv
    by_cases hvw : v = w
    · rw [hworker, hvw, Function.update_self] at hv
      exact hstoring a current hv
    · rw [hworker, Function.update_of_ne hvw] at hv
      exact hs.readOld v a current hv

/-- A step of `NewClient` whose store finds what was read. -/
theorem counted_newClient {address : ℕ} (hs : s.Counted) (hunraced : s.Unraced (.newClient address))
    (hstep : s.ManagerStep (.newClient address) after) : after.Counted := by
  have htracked := tracked_step hs.tracked hstep
  have hbalanced := hs.balanced
  unfold Balanced uncounted at hbalanced
  cases hstep with
  | test hpc =>
    rw [hpc] at hbalanced
    unfold testLimit at htracked ⊢
    split
    case isTrue hlimit =>
      rw [if_pos hlimit] at htracked
      exact ⟨htracked, hbalanced, hs.limited, fun _ ↦ hlimit, nofun, hs.readOld⟩
    case isFalse hlimit =>
      rw [if_neg hlimit] at htracked
      exact ⟨htracked, hbalanced, hs.limited, fun h ↦ absurd rfl h, nofun,
        hs.readOld⟩
  | construct hpc hfree =>
    refine ⟨htracked, ?_, hs.limited, fun _ ↦ ?_, nofun, hs.readOld⟩
    · rw [hpc] at hbalanced
      change s.current + 1 = s.living.length + 1 + s.overcounted
      change s.current + 0 = _ + s.overcounted at hbalanced
      omega
    · exact hs.tested (by rw [hpc]; exact nofun)
  | readNew hpc =>
    have hlimit := hs.tested (by rw [hpc]; exact nofun)
    rw [hpc] at hbalanced
    refine ⟨htracked, hbalanced, hs.limited, fun _ ↦ hlimit, ?_, hs.readOld⟩
    rintro _ _ ⟨⟩
    exact hlimit
  | @storeNew _ a current hpc =>
    have hread : s.current = current := hunraced current (by rw [hpc]; rfl)
    have hlimit : s.current < clientLimit := hs.tested (by rw [hpc]; exact nofun)
    have hwrap : (current + 1) % 2 ^ 32 = s.current + 1 := by
      rw [← hread]
      exact increment_read hlimit
    refine ⟨htracked, ?_, ?_, fun h ↦ absurd rfl h, nofun, hs.readOld⟩
    · rw [hpc] at hbalanced
      change (current + 1) % 2 ^ 32 + 0 = s.living.length + s.overcounted
      rw [hwrap]
      exact hbalanced
    · change (current + 1) % 2 ^ 32 ≤ clientLimit
      rw [hwrap]
      exact hlimit

/-- `DeleteClient` destroys a client, and `current_` is one too high. -/
theorem counted_destroy {w : ι} {a : ℕ} (hs : s.Counted) (hpc : s.worker w = .destroying a)
    (hafter : after = { s with
      living := s.living.erase a
      destroyed := s.destroyed + 1 }.goto w (.reading a))
    (hguards : after.lock.Guards after.lockUse) : after.Counted := by
  obtain ⟨hmem, htracked⟩ := tracked_destroy hs.tracked hpc hguards hafter
  have hcount : after.overcounted = s.overcounted + 1 := by
    have hupdate := count_update ManagerPc.Uncounted s.worker w (.reading a)
    rw [hpc, if_neg (show ¬ (ManagerPc.destroying a).Uncounted from id),
      if_pos (show (ManagerPc.reading a).Uncounted from trivial)] at hupdate
    rw [hafter, overcounted, goto_worker]
    exact hupdate
  have hlength : after.living.length + 1 = s.living.length := by
    rw [hafter]
    exact List.length_erase_add_one hmem
  refine ⟨htracked, ?_, ?_, ?_, ?_, ?_⟩
  · calc
      after.current + after.uncounted = s.current + s.uncounted := by
        rw [hafter]
        rfl
      _ = s.living.length + s.overcounted := hs.balanced
      _ = after.living.length + 1 + s.overcounted := by rw [hlength]
      _ = after.living.length + after.overcounted := by
        rw [hcount]
        ring
  · rw [hafter]
    exact hs.limited
  · rw [hafter]
    exact hs.tested
  · rw [hafter]
    exact hs.readNew
  · intro v b current hv
    rw [hafter, goto_worker] at hv
    by_cases hvw : v = w
    · rw [hvw, Function.update_self] at hv
      cases hv
    · rw [Function.update_of_ne hvw] at hv
      exact hs.readOld v b current hv

/-- `DeleteClient` stores to `current_`, and a client is no longer counted. -/
theorem overcounted_storeOld {w : ι} {a current : ℕ} (hpc : s.worker w = .storing a current)
    (stored : ℕ) :
    ({ s with current := stored }.goto w (.erasing a)).overcounted + 1 = s.overcounted := by
  have hupdate := count_update ManagerPc.Uncounted s.worker w (.erasing a)
  rw [hpc, if_pos (show (ManagerPc.storing a current).Uncounted from trivial),
    if_neg (show ¬ (ManagerPc.erasing a).Uncounted from id)] at hupdate
  rw [overcounted, goto_worker]
  exact hupdate

/-- The store of `DeleteClient` finds what was read. -/
theorem counted_storeOld {w : ι} {a current : ℕ} (hs : s.Counted)
    (hpc : s.worker w = .storing a current) (hread : s.current = current)
    (hafter : after = { s with current := sub32 current 1 }.goto w (.erasing a))
    (htracked : after.Tracked) : after.Counted := by
  obtain ⟨hpos, hle⟩ := hs.readOld w a current hpc
  have hcurrent : after.current + 1 = s.current := by
    have hstored := sub32_read hpos hle
    rw [hafter, goto_current, hstored, hread]
    exact Nat.sub_add_cancel hpos
  have hcount : after.overcounted + 1 = s.overcounted := by
    rw [hafter]
    exact overcounted_storeOld hpc _
  have hnew : after.newClient = s.newClient := by rw [hafter, goto_newClient]
  refine ⟨htracked, ?_, ?_, ?_, ?_, ?_⟩
  · have hliving : after.living = s.living := by rw [hafter, goto_living]
    have hbalanced := hs.balanced
    unfold Balanced uncounted at hbalanced ⊢
    rw [hnew, hliving]
    omega
  · have hlimited := hs.limited
    omega
  · rw [hnew]
    intro h
    have htested := hs.tested h
    omega
  · rw [hnew]
    exact hs.readNew
  · intro v b read hv
    rw [hafter, goto_worker] at hv
    by_cases hvw : v = w
    · rw [hvw, Function.update_self] at hv
      cases hv
    · rw [Function.update_of_ne hvw] at hv
      exact hs.readOld v b read hv

theorem counted_step {action : ManagerAction ι} (hs : s.Counted) (hunraced : s.Unraced action)
    (hstep : s.ManagerStep action after) : after.Counted := by
  have htracked := tracked_step hs.tracked hstep
  have hout {w : ι} {pc : ManagerPc} (hpc : s.worker w = pc) (h : ¬ pc.Uncounted)
      {next : ManagerPc} (hnext : ¬ next.Uncounted) : next.Uncounted ↔ (s.worker w).Uncounted := by
    rw [hpc]
    exact iff_of_false hnext h
  cases hstep with
  | test hpc => exact counted_newClient hs hunraced (.test hpc)
  | construct hpc hfree => exact counted_newClient hs hunraced (.construct hpc hfree)
  | readNew hpc => exact counted_newClient hs hunraced (.readNew hpc)
  | storeNew hpc => exact counted_newClient hs hunraced (.storeNew hpc)
  | callAdd hpc | callRemove hpc | push hpc | find hpc | miss hpc | erase hpc =>
    exact hs.of_goto htracked rfl rfl rfl goto_worker (hout hpc id id) fun _ _ h ↦ by cases h
  | unlock hpc huse =>
    exact hs.of_goto htracked rfl rfl rfl goto_worker (hout huse id id) fun _ _ h ↦ by cases h
  | lock hpc huse => exact ⟨htracked, hs.balanced, hs.limited, hs.tested, hs.readNew, hs.readOld⟩
  | destroy hpc => exact counted_destroy hs hpc rfl htracked.guards
  | @readOld w a hpc =>
    refine hs.of_goto htracked rfl rfl rfl goto_worker ?_ ?_
    · rw [hpc]
      exact Iff.rfl
    · rintro _ _ ⟨⟩
      refine ⟨?_, hs.limited⟩
      have hpos : 1 ≤ s.overcounted := overcounted_pos (w := w) (by rw [hpc]; trivial)
      have hle := hs.tracked.uncounted_le
      have hbalanced := hs.balanced
      unfold Balanced at hbalanced
      omega
  | storeOld hpc => exact counted_storeOld hs hpc (hunraced _ (by rw [hpc]; rfl)) rfl htracked

/-- A store that does not find what was read leaves `current_` off for good. -/
theorem not_balanced_of_raced {action : ManagerAction ι} (hs : s.Counted)
    (hraced : ¬ s.Unraced action) (hstep : s.ManagerStep action after) : ¬ after.Balanced := by
  have hbalanced := hs.balanced
  unfold Balanced uncounted at hbalanced
  intro hafter
  cases hstep with
  | @storeNew _ a current hpc =>
    apply hraced
    intro read hread
    rw [hpc] at hread
    rw [← Option.some.inj hread]
    have hlimit := hs.readNew a current hpc
    have hwrap := increment_read hlimit
    rw [hpc] at hbalanced
    change s.current + 1 = s.living.length + s.overcounted at hbalanced
    change (current + 1) % 2 ^ 32 + 0 = s.living.length + s.overcounted at hafter
    omega
  | @storeOld w a current hpc =>
    apply hraced
    intro read hread
    rw [hpc] at hread
    rw [← Option.some.inj hread]
    obtain ⟨hpos, hle⟩ := hs.readOld w a current hpc
    have hstored := sub32_read hpos hle
    have hcount := overcounted_storeOld hpc (sub32 current 1)
    simp only [Balanced, uncounted, goto_current, goto_newClient, goto_living, hstored] at hafter
    rw [hstored] at hcount
    omega
  | test hpc => exact hraced fun _ h ↦ by rw [hpc] at h; cases h
  | construct hpc => exact hraced fun _ h ↦ by rw [hpc] at h; cases h
  | readNew hpc => exact hraced fun _ h ↦ by rw [hpc] at h; cases h
  | push hpc | find hpc | miss hpc | destroy hpc | readOld hpc | erase hpc =>
    exact hraced fun _ h ↦ by rw [hpc] at h; cases h
  | callAdd | callRemove | lock | unlock => exact hraced trivial

/-! ## Runs -/

omit [DecidableEq ι] in
theorem counted_initial : (initial ι).Counted where
  tracked := tracked_initial
  balanced := by
    change 0 + 0 = 0 + (initial ι).overcounted
    rw [overcounted, count_eq_zero (fun _ ↦ id)]
  limited := Nat.zero_le _
  tested h := absurd rfl h
  readNew := nofun
  readOld := nofun

/-- `current_` is off by the operations in progress only, if and only if no store is raced. -/
theorem balanced_visited_iff_unraced {history : List (ClientManager ι × ManagerAction ι)}
    (hrun : (system ι).Run history s) :
    (∀ seen ∈ System.visited history s, seen.Balanced) ↔ System.Obeys Unraced history := by
  apply hrun.forall_visited_iff_obeys_of_sound Counted
  · exact fun state hstate ↦ hstate.balanced
  · rintro state rfl
    exact counted_initial
  · intro state action next hstate hunraced hstep
    exact counted_step hstate hunraced (managerStep_of_step hstep)
  · intro state action next hstate hraced hstep
    exact not_balanced_of_raced hstate hraced (managerStep_of_step hstep)

omit [DecidableEq ι] in
theorem Counted.countRight (hs : s.Counted) : s.CountRight := by
  rintro ⟨hnew, hworker⟩
  have hcurrent : s.current = s.living.length := by
    have hnone : s.uncounted = 0 := by
      rw [uncounted, hnew]
      rfl
    have hzero : s.overcounted = 0 := count_eq_zero fun w ↦ by
      rw [hworker w]
      exact id
    calc
      s.current = s.current + s.uncounted := by rw [hnone, Nat.add_zero]
      _ = s.living.length + s.overcounted := hs.balanced
      _ = s.living.length := by rw [hzero, Nat.add_zero]
  constructor
  · rw [hs.tracked.created, hcurrent]
    push_cast
    ring
  · have hlimited := hs.limited
    unfold testLimit
    rw [← hcurrent]
    split
    case isTrue h => exact iff_of_false nofun (Nat.ne_of_lt h)
    case isFalse h => exact iff_of_true rfl (by omega)

/-- **The count.** In every run in which each store to `current_` finds what was read before it, the
count is right in every state in which no operation is in progress. -/
theorem countRight_of_unraced {history : List (ClientManager ι × ManagerAction ι)}
    (hrun : (system ι).Run history s) (hunraced : System.Obeys Unraced history) :
    ∀ seen ∈ System.visited history s, seen.CountRight := by
  have hcounted := hrun.invariant_visited Counted
    (by rintro state rfl; exact counted_initial)
    (fun state action next hstate hcondition hstep ↦
      counted_step hstate hcondition (managerStep_of_step hstep)) hunraced
  exact fun seen hseen ↦ (hcounted seen hseen).countRight

/-- A client is created and removed, and the next one created between the read and the store of the
decrement. -/
def racedRemove : List (ManagerAction (Fin 1)) :=
  [.newClient 1, .newClient 1, .newClient 1, .newClient 1,
    .callAddClient 0 1, .lock (.callLock 0), .lock (.exchangeLock 0), .lock (.loadReader 0),
    .worker 0, .lock (.exchangeUnlock 0),
    .callRemoveClient 0 1, .lock (.callLock 0), .lock (.exchangeLock 0), .lock (.loadReader 0),
    .worker 0, .worker 0, .worker 0,
    .newClient 2, .newClient 2, .newClient 2, .newClient 2,
    .worker 0, .worker 0, .lock (.exchangeUnlock 0)]

/-- The increment is lost, and with one client alive `current_` is zero. -/
theorem countRight_fails :
    ¬ ∀ history s, (system (Fin 1)).Run history s → s.CountRight := by
  intro hclaim
  have hreplay : (System.replay step (initial (Fin 1)) racedRemove).map (fun s ↦ decide
      (s.newClient = .outside ∧ s.worker 0 = .outside ∧ s.current = 0 ∧ s.created = 2 ∧
        s.destroyed = 1)) = some true := by decide +kernel
  obtain ⟨history, s, hrun, htest⟩ := System.exists_run_of_replay
    (fun s ↦ s = initial (Fin 1)) rfl hreplay
  simp only [decide_eq_true_eq] at htest
  obtain ⟨hnew, hworker, hcurrent, hcreated, hdestroyed⟩ := htest
  have hright := (hclaim history s hrun ⟨hnew, fun w ↦ by rw [Subsingleton.elim w 0, hworker]⟩).1
  rw [hcurrent, hcreated, hdestroyed] at hright
  exact absurd hright (by decide)

/-- The same calls, with the second client created after the first is removed. -/
def orderlyRemove : List (ManagerAction (Fin 1)) :=
  [.newClient 1, .newClient 1, .newClient 1, .newClient 1,
    .callAddClient 0 1, .lock (.callLock 0), .lock (.exchangeLock 0), .lock (.loadReader 0),
    .worker 0, .lock (.exchangeUnlock 0),
    .callRemoveClient 0 1, .lock (.callLock 0), .lock (.exchangeLock 0), .lock (.loadReader 0),
    .worker 0, .newClient 2, .newClient 2, .worker 0, .worker 0, .worker 0,
    .newClient 2, .newClient 2, .worker 0, .lock (.exchangeUnlock 0)]

/-- The theorem applied to that run, at the end of which one client lives. -/
theorem countRight_of_unraced_applies :
    ∃ history s, (system (Fin 1)).Run history s ∧ System.Obeys Unraced history ∧
      s.created = 2 ∧ ∀ seen ∈ System.visited history s, seen.CountRight := by
  have hreplay : (System.replay
      (fun s action ↦ if Unraced s action then step s action else none) (initial (Fin 1))
      orderlyRemove).map (fun s ↦ decide (s.created = 2)) = some true := by decide +kernel
  obtain ⟨history, s, htested, hcreated⟩ := System.exists_run_of_replay
    (fun s ↦ s = initial (Fin 1)) rfl hreplay
  obtain ⟨hrun, hunraced⟩ := htested.of_tested
  exact ⟨history, s, hrun, hunraced, of_decide_eq_true hcreated,
    countRight_of_unraced hrun hunraced⟩

end ClientManager

end ServerCore.Server
