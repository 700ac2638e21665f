import Mathlib.Data.Fintype.Basic
import ServerCore.UdpServer.SessionPlaces

/-!
# Concurrent acknowledgements

A worker that serves an ACK looks the pending session up, releases the lock, and takes it again to
erase the entry through the iterator that it has found. In between another worker may have found the
same entry. The main theorem says that the entry of a session is erased once, through a live iterator,
and `ahandler_` started once for it, if and only if no worker erases an entry that another worker has
found and not erased yet.
-/

namespace ServerCore.UdpServer

open Foundation

/-- A worker at this point has found a pending session and has not started `ahandler_` yet. -/
def Pc.Acking (pc : Pc) : Prop :=
  pc = .erasePending ∨ pc = .insertSession ∨ pc = .startAccept

instance (pc : Pc) : Decidable pc.Acking :=
  inferInstanceAs (Decidable (_ ∨ _ ∨ _))

theorem Branch.not_acking_pc (b : Branch) : ¬ b.pc.Acking := by
  cases b <;> decide

namespace SessionManager

variable {ι : Type} {s after : SessionManager ι} {x : ℕ} {w : ι}

/-- The worker is about to erase the entry of the session. -/
def Erasing (s : SessionManager ι) (w : ι) (x : ℕ) : Prop :=
  (s.worker w).pc = .erasePending ∧ (s.worker w).pendingSession = x

/-- The worker has erased the entry of the session and has not started `ahandler_` for it. -/
def Carries (s : SessionManager ι) (w : ι) (x : ℕ) : Prop :=
  ((s.worker w).pc = .insertSession ∨ (s.worker w).pc = .startAccept) ∧
    (s.worker w).pendingSession = x

/-- The iterators about to be used for an erase have not been erased. -/
def IteratorsLive (s : SessionManager ι) : Prop :=
  ∀ w x, s.Erasing w x → x ∈ s.pendingSessions.values

/-- The step takes a worker that has found this session on from this point. -/
def ActsAt (pc : Pc) (x : ℕ) (s : SessionManager ι) : Action ι → Prop
  | .iocpTask w => (s.worker w).pc = pc ∧ (s.worker w).pendingSession = x
  | _ => False

/-- The step is the lookup of an ACK, and finds this session. -/
def Finds (x : ℕ) (s : SessionManager ι) : Action ι → Prop
  | .iocpTask w => (s.worker w).pc = .findPending ∧
    s.pendingSessions.find (s.remoteEndpoint (s.worker w).readIoData) = some x
  | _ => False

instance (pc : Pc) (x : ℕ) (action : Action ι) : Decidable (ActsAt pc x s action) := by
  unfold ActsAt
  split <;> infer_instance

/-- How often a worker that had found the session went on from this point. -/
def stepsAt (pc : Pc) (x : ℕ) (history : List (SessionManager ι × Action ι)) : ℕ :=
  history.countP fun entry ↦ ActsAt pc x entry.1 entry.2

/-- The ACKs of each session that was found erase its entry once, through a live iterator, and start
`ahandler_` once. -/
structure HandledOnce (history : List (SessionManager ι × Action ι)) (s : SessionManager ι) :
    Prop where
  live : ∀ seen ∈ System.visited history s, seen.IteratorsLive
  erased : ∀ x, stepsAt .erasePending x history ≤ 1
  started : ∀ x, stepsAt .startAccept x history ≤ 1
  settled : ∀ x, (∃ entry ∈ history, Finds x entry.1 entry.2) →
    (∀ w, ¬ s.Erasing w x ∧ ¬ s.Carries w x) →
    stepsAt .erasePending x history = 1 ∧ stepsAt .startAccept x history = 1

/-- An entry is erased when no other worker is about to erase it. -/
def EraseAlone (s : SessionManager ι) : Action ι → Prop
  | .iocpTask w => (s.worker w).pc = .erasePending →
    ∀ v, v ≠ w → ¬ s.Erasing v (s.worker w).pendingSession
  | _ => True

theorem stepsAt_cons {pc : Pc} {action : Action ι}
    {history : List (SessionManager ι × Action ι)} :
    stepsAt pc x ((s, action) :: history) =
      stepsAt pc x history + if ActsAt pc x s action then 1 else 0 := by
  simp [stepsAt, List.countP_cons]

theorem not_finds_of_pc (hpc : (s.worker w).pc ≠ .findPending) : ¬ Finds x s (.iocpTask w) :=
  fun h ↦ hpc h.1

theorem not_actsAt_of_pc {pc : Pc} (hpc : (s.worker w).pc ≠ pc) : ¬ ActsAt pc x s (.iocpTask w) :=
  fun h ↦ hpc h.1

/-! ## The steps, as far as they concern ACKs -/

variable [DecidableEq ι]

/-- What a step does to the entries of `pending_sessions_` and to the workers that have found one. -/
inductive AckStep (s : SessionManager ι) : Action ι → SessionManager ι → Prop
  | quiet {action : Action ι} {after : SessionManager ι}
      (hacts : ∀ pc x, pc.Acking → ¬ ActsAt pc x s action) (hfinds : ∀ x, ¬ Finds x s action)
      (herasing : ∀ v x, after.Erasing v x ↔ s.Erasing v x)
      (hcarries : ∀ v x, after.Carries v x ↔ s.Carries v x)
      (hvalues : ∀ x ∈ s.pendingSessions.values, x ∈ after.pendingSessions.values) :
      AckStep s action after
  | find {w : ι} {x : ℕ} (hpc : (s.worker w).pc = .findPending)
      (hfind : s.pendingSessions.find (s.remoteEndpoint (s.worker w).readIoData) = some x) :
      AckStep s (.iocpTask w)
        (s.setWorker w { s.worker w with pendingSession := x, pc := .erasePending })
  | erase {w : ι} (hpc : (s.worker w).pc = .erasePending)
      (hmem : (s.worker w).pendingSession ∈ s.pendingSessions.values) :
      AckStep s (.iocpTask w) (({ s with
        pendingSessions := s.pendingSessions.erase (s.worker w).pendingSession }.setPlace
          (s.worker w).pendingSession (.accepting w)).goto w .insertSession)
  | insert {w : ι} {after : SessionManager ι} (hpc : (s.worker w).pc = .insertSession)
      (hworker : after.worker = (s.goto w .startAccept).worker)
      (hpending : after.pendingSessions = s.pendingSessions) : AckStep s (.iocpTask w) after
  | start {w : ι} (hpc : (s.worker w).pc = .startAccept) :
      AckStep s (.iocpTask w) (s.startAccept w)

/-- A step that changes no worker. -/
theorem AckStep.of_workers {action : Action ι} (haction : ∀ w, action ≠ .iocpTask w)
    (hworker : after.worker = s.worker) (hpending : after.pendingSessions = s.pendingSessions) :
    s.AckStep action after := by
  refine .quiet ?_ ?_ ?_ ?_ ?_
  · intro pc x _ hacts
    cases action with
    | iocpTask w => exact haction w rfl
    | _ => exact hacts
  · intro x hfinds
    cases action with
    | iocpTask w => exact haction w rfl
    | _ => exact hfinds
  · intro v x
    rw [Erasing, Erasing, hworker]
  · intro v x
    rw [Carries, Carries, hworker]
  · intro x hx
    rw [hpending]
    exact hx

theorem erasing_of_moved {locals : Worker} {v : ι}
    (hworker : after.worker = Function.update s.worker w locals)
    (hbefore : ¬ (s.worker w).pc.Acking) (hafter : ¬ locals.pc.Acking) :
    (after.Erasing v x ↔ s.Erasing v x) ∧ (after.Carries v x ↔ s.Carries v x) := by
  unfold Pc.Acking at hbefore hafter
  unfold Erasing Carries
  rw [hworker]
  by_cases hv : v = w
  · subst hv
    rw [Function.update_self]
    tauto
  · rw [Function.update_of_ne hv]
    exact ⟨Iff.rfl, Iff.rfl⟩

/-- A worker that has found no pending session goes on, and finds none. -/
theorem AckStep.of_worker {action : Action ι} {locals : Worker}
    (haction : ∀ v, action = .iocpTask v → v = w) (hfinds : ∀ x, ¬ Finds x s action)
    (hworker : after.worker = Function.update s.worker w locals)
    (hbefore : ¬ (s.worker w).pc.Acking) (hafter : ¬ locals.pc.Acking)
    (hvalues : ∀ x ∈ s.pendingSessions.values, x ∈ after.pendingSessions.values) :
    s.AckStep action after := by
  refine .quiet ?_ hfinds (fun v x ↦ (erasing_of_moved hworker hbefore hafter).1)
    (fun v x ↦ (erasing_of_moved hworker hbefore hafter).2) hvalues
  intro pc x hpc hacts
  cases action with
  | iocpTask v =>
    rw [haction v rfl] at hacts
    exact hbefore (hacts.1 ▸ hpc)
  | _ => exact hacts

theorem ackStep_iocpTask (hstep : s.iocpTask w = some after) : s.AckStep (.iocpTask w) after := by
  have hself (v : ι) (h : Action.iocpTask w = .iocpTask v) : v = w := (Action.iocpTask.inj h).symm
  cases iocpStep_of_iocpTask hstep with
  | findPending hpc hfind => exact .find hpc hfind
  | erasePending hpc hmem => exact .erase hpc hmem
  | refuseSession hpc hlocked hfind => exact .insert hpc rfl rfl
  | insertSession hpc hlocked hfind => exact .insert hpc rfl rfl
  | startAccept hpc => exact .start hpc
  | missPending hpc hfind =>
    refine .of_worker hself ?_ rfl (by rw [hpc]; decide) (by simp [Pc.Acking])
      (fun _ hx ↦ hx)
    intro x hfinds
    have hfound := hfinds.2
    rw [hfind] at hfound
    cases hfound
  | insertPending hpc hfind =>
    refine .of_worker hself (fun x ↦ not_finds_of_pc (by rw [hpc]; decide)) rfl
      (by rw [hpc]; decide) (by simp [Pc.Acking]) ?_
    intro x hx
    exact SessionMap.mem_values_insert_of_mem hx
  | missSession hpc hfind =>
    rcases hpc with hpc | hpc
    all_goals
      exact .of_worker hself (fun x ↦ not_finds_of_pc (by rw [hpc]; decide)) rfl
        (by rw [hpc]; decide) (by simp [Pc.Acking]) (fun _ hx ↦ hx)
  | construct hpc | refusePending hpc | reply hpc | findHeartbeat hpc | incrementHeartbeat hpc
  | findSession hpc | deliver hpc | discard hpc | startPacket hpc | free hpc =>
    exact .of_worker hself (fun x ↦ not_finds_of_pc (by rw [hpc]; decide)) rfl
      (by rw [hpc]; decide) (by simp [Pc.Acking]) (fun _ hx ↦ hx)

theorem ackStep_of_step {action : Action ι} (hstep : s.step action = some after) :
    s.AckStep action after := by
  cases action with
  | iocpTask w => exact ackStep_iocpTask hstep
  | recv w chunk =>
    obtain ⟨⟨hpc, -⟩, rfl⟩ := recv_eq_some.mp hstep
    refine .of_worker (w := w) (fun _ h ↦ by cases h) (fun _ h ↦ h) rfl ?_ (by simp [Pc.Acking])
      (fun _ hx ↦ hx)
    rcases hpc with hpc | hpc
    all_goals
      rw [hpc]
      decide
  | complete chunk succ endpoint datagram =>
    obtain ⟨-, rfl⟩ := complete_eq_some.mp hstep
    exact .of_workers (fun _ h ↦ by cases h) rfl rfl
  | dequeue w c =>
    obtain ⟨hpc, -, ⟨-, rfl⟩ | ⟨-, rfl⟩⟩ := dequeue_cases hstep
    · exact .of_workers (fun _ h ↦ by cases h) rfl rfl
    · exact .of_worker (w := w) (fun _ h ↦ by cases h) (fun _ h ↦ h) rfl (by rw [hpc]; decide)
        (Branch.not_acking_pc _) (fun _ hx ↦ hx)
  | loadPending | callAccept | loadSession | loadReadIoData | readHeader | readBody
  | callPacket =>
    obtain ⟨_, _, _, _, rfl⟩ := handler_frame hstep trivial
    exact .of_workers (fun _ h ↦ by cases h) rfl rfl
  | tick =>
    obtain ⟨_, _, _, _, rfl⟩ := tick_frame hstep
    exact .of_workers (fun _ h ↦ by cases h) rfl rfl

/-! ## Live iterators -/

/-- From live iterators a step leads to live iterators exactly if it erases no entry that another worker
is about to erase. -/
theorem iteratorsLive_step_iff {action : Action ι} (hlive : s.IteratorsLive)
    (hstep : s.step action = some after) : after.IteratorsLive ↔ s.EraseAlone action := by
  cases ackStep_of_step hstep with
  | quiet hacts hfinds herasing hcarries hvalues =>
    refine iff_of_true ?_ ?_
    · intro v x hv
      exact hvalues x (hlive v x ((herasing v x).mp hv))
    · cases action with
      | iocpTask w =>
        intro hpc
        exact absurd ⟨hpc, rfl⟩ (hacts .erasePending (s.worker w).pendingSession (by decide))
      | _ => trivial
  | @find w x hpc hfind =>
    refine iff_of_true ?_ (fun h ↦ by rw [hpc] at h; cases h)
    rintro v y ⟨hvpc, rfl⟩
    by_cases hv : v = w
    · subst hv
      simpa [setWorker] using SessionMap.mem_values_of_find hfind
    · simp only [setWorker, Function.update_of_ne hv] at hvpc ⊢
      exact hlive v _ ⟨hvpc, rfl⟩
  | @erase w hpc hmem =>
    constructor
    · intro hafter _ v hv herasing
      have hsame : (goto (setPlace { s with
          pendingSessions := s.pendingSessions.erase (s.worker w).pendingSession }
          (s.worker w).pendingSession (.accepting w)) w .insertSession).worker v = s.worker v := by
        simp [goto, setWorker, setPlace, hv]
      have hstill := hafter v (s.worker w).pendingSession (by
        rw [Erasing, hsame]
        exact herasing)
      exact (SessionMap.mem_values_erase.mp hstill).1 rfl
    · rintro halone v y ⟨hvpc, rfl⟩
      obtain ⟨hv, hsame⟩ := worker_goto (by decide) hvpc
      rw [hsame] at hvpc ⊢
      refine SessionMap.mem_values_erase.mpr ⟨?_, hlive v _ ⟨hvpc, rfl⟩⟩
      intro heq
      exact halone hpc v hv ⟨hvpc, heq⟩
  | @insert w _ hpc hworker hpending =>
    refine iff_of_true ?_ (fun h ↦ by rw [hpc] at h; cases h)
    rintro v y ⟨hvpc, rfl⟩
    rw [hworker] at hvpc ⊢
    obtain ⟨-, hsame⟩ := worker_goto (by decide) hvpc
    rw [hsame] at hvpc ⊢
    rw [hpending]
    exact hlive v _ ⟨hvpc, rfl⟩
  | @start w hpc =>
    refine iff_of_true ?_ (fun h ↦ by rw [hpc] at h; cases h)
    rintro v y ⟨hvpc, rfl⟩
    obtain ⟨-, hsame⟩ := worker_goto (by decide) hvpc
    rw [startAccept, hsame] at hvpc ⊢
    exact hlive v _ ⟨hvpc, rfl⟩

/-! ## Erased sessions stay out of the map -/

/-- The session was constructed, and has left `pending_sessions_` for good. -/
def Gone (s : SessionManager ι) (x : ℕ) : Prop :=
  x < s.numSessions ∧ s.place x ≠ .pending ∧ ∀ w, s.place x ≠ .constructed w

omit [DecidableEq ι] in
theorem Gone.of_place (hx : s.Gone x) (hplace : after.place = s.place)
    (hnum : after.numSessions = s.numSessions) : after.Gone x := by
  unfold Gone
  rw [hplace, hnum]
  exact hx

omit [DecidableEq ι] in
/-- A session is moved to a place other than that of a new one. -/
theorem Gone.of_moved {y : ℕ} {p : Place ι} (hx : s.Gone x)
    (hplace : after.place = Function.update s.place y p) (hnum : after.numSessions = s.numSessions)
    (hp : p ≠ .pending ∧ ∀ w, p ≠ .constructed w) : after.Gone x := by
  unfold Gone
  rw [hplace, hnum]
  by_cases hxy : x = y
  · rw [hxy, Function.update_self]
    exact ⟨hxy ▸ hx.1, hp⟩
  · rw [Function.update_of_ne hxy]
    exact hx

theorem gone_iocpTask (hs : s.Listed) (hx : s.Gone x) (hstep : s.iocpTask w = some after) :
    after.Gone x := by
  cases iocpStep_of_iocpTask hstep with
  | construct hpc =>
    obtain ⟨hlt, hplace⟩ := hx
    refine ⟨Nat.lt_succ_of_lt hlt, ?_⟩
    rw [place_construct, Function.update_of_ne (Nat.ne_of_lt hlt)]
    exact hplace
  | insertPending hpc hfind =>
    have hne : x ≠ (s.worker w).newSession := by
      rintro rfl
      exact hx.2.2 w (hs.constructed w hpc)
    refine ⟨hx.1, ?_⟩
    have hplace : place (goto (setPlace { s with
        pendingSessions := s.pendingSessions.insert
          (s.session (s.worker w).newSession).endpoint (s.worker w).newSession }
        (s.worker w).newSession .pending) w .reply) x = s.place x := by
      refine (congrFun (place_setPlace _ _) x).trans ?_
      exact Function.update_of_ne hne _ _
    rw [hplace]
    exact hx.2
  | erasePending hpc hmem => exact hx.of_moved (place_setPlace _ _) rfl (by simp)
  | refuseSession hpc hlocked hfind => exact hx.of_moved (place_setPlace _ _) rfl (by simp)
  | insertSession hpc hlocked hfind => exact hx.of_moved (place_setPlace _ _) rfl (by simp)
  | incrementHeartbeat | deliver | discard => exact hx.of_place (place_addAlive _ _) rfl
  | refusePending | reply | missPending | findPending | startAccept | missSession
  | findHeartbeat | findSession | startPacket | free => exact hx.of_place rfl rfl

theorem gone_step {action : Action ι} (hs : s.Listed) (hx : s.Gone x)
    (hstep : s.step action = some after) : after.Gone x := by
  cases action with
  | recv w chunk =>
    obtain ⟨-, rfl⟩ := recv_eq_some.mp hstep
    exact hx.of_place rfl rfl
  | complete chunk succ endpoint datagram =>
    obtain ⟨-, rfl⟩ := complete_eq_some.mp hstep
    exact hx.of_place rfl rfl
  | dequeue w c =>
    obtain ⟨-, -, ⟨-, rfl⟩ | ⟨-, rfl⟩⟩ := dequeue_cases hstep
    · exact hx.of_place rfl rfl
    · exact hx.of_place rfl rfl
  | iocpTask w => exact gone_iocpTask hs hx hstep
  | loadPending | callAccept | loadSession | loadReadIoData | readHeader | readBody
  | callPacket =>
    obtain ⟨_, _, _, _, rfl⟩ := handler_frame hstep trivial
    exact hx.of_place rfl rfl
  | tick =>
    cases tickStep_of_runTick hstep with
    | disconnect | delete => exact hx.of_moved (place_setPlace _ _) rfl (by simp)
    | decrement | expire | keep => exact hx.of_place (place_addAlive _ _) rfl
    | wake | swept | retain | drained | notify => exact hx.of_place rfl rfl

/-! ## The ACKs of a session -/

/-- How far the ACKs of a session have got. -/
structure Acknowledged (history : List (SessionManager ι × Action ι)) (s : SessionManager ι)
    (x : ℕ) : Prop where
  gone : stepsAt .erasePending x history ≠ 0 → s.Gone x
  erased : stepsAt .erasePending x history ≤ 1
  carried : ∀ w, s.Carries w x →
    stepsAt .erasePending x history = 1 ∧ stepsAt .startAccept x history = 0
  alone : ∀ v w, s.Carries v x → s.Carries w x → v = w
  started : stepsAt .startAccept x history ≤ stepsAt .erasePending x history
  settled : stepsAt .erasePending x history ≠ 0 →
    stepsAt .startAccept x history = 1 ∨ ∃ w, s.Carries w x
  found : (∃ entry ∈ history, Finds x entry.1 entry.2) →
    stepsAt .erasePending x history ≠ 0 ∨ ∃ w, s.Erasing w x

omit [DecidableEq ι] in
theorem acknowledged_initial (x : ℕ) : Acknowledged [] (initial ι) x where
  gone h := absurd rfl h
  erased := Nat.zero_le 1
  carried w h := by simp [Carries, initial] at h
  alone v w h := by simp [Carries, initial] at h
  started := le_rfl
  settled h := absurd rfl h
  found h := by simp at h

section Step

variable {history : List (SessionManager ι × Action ι)}

omit [DecidableEq ι] in
/-- A step that neither erases the entry of the session nor starts its handler. -/
theorem Acknowledged.of_quiet {action : Action ι} (hs : Acknowledged history s x)
    (hgone : s.Gone x → after.Gone x) (herase : ¬ ActsAt .erasePending x s action)
    (hstart : ¬ ActsAt .startAccept x s action) (hcarries : ∀ v, after.Carries v x ↔ s.Carries v x)
    (herasing : ∀ v, s.Erasing v x → after.Erasing v x)
    (hfinds : Finds x s action → ∃ w, after.Erasing w x) :
    Acknowledged ((s, action) :: history) after x := by
  have herased : stepsAt .erasePending x ((s, action) :: history) =
      stepsAt .erasePending x history := by
    rw [stepsAt_cons, if_neg herase, Nat.add_zero]
  have hstarted : stepsAt .startAccept x ((s, action) :: history) =
      stepsAt .startAccept x history := by
    rw [stepsAt_cons, if_neg hstart, Nat.add_zero]
  refine ⟨?_, ?_, ?_, ?_, ?_, ?_, ?_⟩
  all_goals simp only [herased, hstarted, hcarries]
  · exact fun h ↦ hgone (hs.gone h)
  · exact hs.erased
  · exact hs.carried
  · exact hs.alone
  · exact hs.started
  · exact hs.settled
  · rintro ⟨entry, hentry, hfound⟩
    rcases List.mem_cons.mp hentry with rfl | hold
    · exact Or.inr (hfinds hfound)
    · rcases hs.found ⟨entry, hold, hfound⟩ with hdone | ⟨w, hw⟩
      · exact Or.inl hdone
      · exact Or.inr ⟨w, herasing w hw⟩

theorem Erasing.of_goto {v : ι} {next : Pc} (hv : s.Erasing v x)
    (hworker : after.worker = (s.goto w next).worker) (hvw : v ≠ w) : after.Erasing v x := by
  unfold Erasing at hv ⊢
  rw [hworker]
  simpa [goto, setWorker, hvw] using hv

omit [DecidableEq ι] in
theorem ne_of_erasing {v : ι} (hv : s.Erasing v x) (hpc : (s.worker w).pc ≠ .erasePending) :
    v ≠ w := by
  rintro rfl
  exact hpc hv.1

/-- Of the other sessions a worker carries after its step what it carried before. -/
theorem carries_goto {v : ι} {next : Pc} (hworker : after.worker = (s.goto w next).worker)
    (hsame : (next = .insertSession ∨ next = .startAccept) ∧ (s.worker w).pendingSession = x ↔
      s.Carries w x) : after.Carries v x ↔ s.Carries v x := by
  rw [Carries, hworker]
  by_cases hv : v = w
  · rw [hv, ← hsame]
    simp [goto, setWorker]
  · simp [goto, setWorker, hv, Carries]

/-- The worker erases the entry, which nobody has erased before, and carries the session on. -/
theorem acknowledged_erase (hs : Acknowledged history s (s.worker w).pendingSession)
    (hlisted : s.Listed) (hpc : (s.worker w).pc = .erasePending)
    (hmem : (s.worker w).pendingSession ∈ s.pendingSessions.values)
    (hworker : after.worker = (s.goto w .insertSession).worker)
    (hplace : after.place = Function.update s.place (s.worker w).pendingSession (.accepting w))
    (hnum : after.numSessions = s.numSessions) :
    Acknowledged ((s, .iocpTask w) :: history) after (s.worker w).pendingSession := by
  generalize hx : (s.worker w).pendingSession = x at *
  have hpending := hlisted.pending x hmem
  have hnone : stepsAt .erasePending x history = 0 := by
    by_contra hne
    exact (hs.gone hne).2.1 hpending
  have hlt : x < s.numSessions := by
    by_contra hge
    have hfresh := hlisted.fresh x (by omega)
    rw [hpending] at hfresh
    cases hfresh
  have hfree (v : ι) : ¬ s.Carries v x := by
    intro hv
    rw [(hs.carried v hv).1] at hnone
    cases hnone
  have herased : stepsAt .erasePending x ((s, .iocpTask w) :: history) = 1 := by
    rw [stepsAt_cons, if_pos ⟨hpc, hx⟩, hnone]
  have hstarted : stepsAt .startAccept x ((s, .iocpTask w) :: history) = 0 := by
    rw [stepsAt_cons, if_neg (not_actsAt_of_pc (by rw [hpc]; decide)), Nat.add_zero]
    exact Nat.le_zero.mp (hnone ▸ hs.started)
  -- `w` carries the session now, and no other worker does.
  have hcarries (v : ι) : after.Carries v x ↔ v = w := by
    rw [Carries, hworker]
    by_cases hv : v = w
    · simp [goto, setWorker, hv, hx]
    · simpa [goto, setWorker, hv, Carries] using hfree v
  refine ⟨?_, ?_, ?_, ?_, ?_, ?_, ?_⟩
  all_goals simp only [herased, hstarted, hcarries]
  · intro _
    refine ⟨hnum ▸ hlt, ?_⟩
    rw [hplace, Function.update_self]
    simp
  · exact le_rfl
  · exact fun _ _ ↦ ⟨trivial, trivial⟩
  · exact fun u v hu hv ↦ hu.trans hv.symm
  · exact Nat.zero_le 1
  · exact fun _ ↦ Or.inr ⟨w, rfl⟩
  · exact fun _ ↦ Or.inl one_ne_zero

/-- The worker starts `ahandler_` for the session that it carries. -/
theorem acknowledged_start (hs : Acknowledged history s (s.worker w).pendingSession)
    (hgone : s.Gone (s.worker w).pendingSession → after.Gone (s.worker w).pendingSession)
    (hpc : (s.worker w).pc = .startAccept)
    (hworker : after.worker = (s.goto w .free).worker) :
    Acknowledged ((s, .iocpTask w) :: history) after (s.worker w).pendingSession := by
  generalize hx : (s.worker w).pendingSession = x at *
  have hcarried : s.Carries w x := ⟨Or.inr hpc, hx⟩
  obtain ⟨hone, hnone⟩ := hs.carried w hcarried
  have herased : stepsAt .erasePending x ((s, .iocpTask w) :: history) = 1 := by
    rw [stepsAt_cons, if_neg (not_actsAt_of_pc (by rw [hpc]; decide)), Nat.add_zero, hone]
  have hstarted : stepsAt .startAccept x ((s, .iocpTask w) :: history) = 1 := by
    rw [stepsAt_cons, if_pos ⟨hpc, hx⟩, hnone]
  -- `w` was the only one to carry the session.
  have hcarries (v : ι) : ¬ after.Carries v x := by
    rw [Carries, hworker]
    by_cases hv : v = w
    · simp [goto, setWorker, hv]
    · have hnot : ¬ s.Carries v x := fun hv' ↦ hv (hs.alone v w hv' hcarried)
      simpa [goto, setWorker, hv, Carries] using hnot
  refine ⟨?_, ?_, ?_, ?_, ?_, ?_, ?_⟩
  all_goals simp only [herased, hstarted, hcarries]
  · exact fun _ ↦ hgone (hs.gone (by rw [hone]; exact one_ne_zero))
  · exact le_rfl
  · exact fun _ h ↦ h.elim
  · exact fun _ _ h ↦ h.elim
  · exact le_rfl
  · exact fun _ ↦ Or.inl trivial
  · exact fun _ ↦ Or.inl one_ne_zero

/-- A step concerns the ACKs of one session at most. -/
theorem acknowledged_step {action : Action ι} (hlisted : s.Listed) (hs : Acknowledged history s x)
    (hstep : s.step action = some after) : Acknowledged ((s, action) :: history) after x := by
  have hgone (hx : s.Gone x) : after.Gone x := gone_step hlisted hx hstep
  cases ackStep_of_step hstep with
  | quiet hacts hfinds herasing hcarries hvalues =>
    exact hs.of_quiet hgone (hacts _ x (by decide)) (hacts _ x (by decide)) (fun v ↦ hcarries v x)
      (fun v ↦ (herasing v x).mpr) (fun h ↦ absurd h (hfinds x))
  | @find w y hpc hfind =>
    refine hs.of_quiet hgone (not_actsAt_of_pc (by rw [hpc]; decide))
      (not_actsAt_of_pc (by rw [hpc]; decide)) ?_ ?_ ?_
    · intro v
      unfold Carries
      by_cases hv : v = w
      · simp [setWorker, hv, hpc]
      · simp [setWorker, hv]
    · intro v hv
      have hvw := ne_of_erasing hv (by rw [hpc]; decide)
      simpa only [Erasing, setWorker, Function.update_of_ne hvw] using hv
    · intro hx
      have heq : y = x := Option.some.inj (hfind.symm.trans hx.2)
      exact ⟨w, by simp [Erasing, setWorker, heq]⟩
  | @erase w hpc hmem =>
    by_cases hx : (s.worker w).pendingSession = x
    · subst hx
      exact acknowledged_erase hs hlisted hpc hmem rfl (place_setPlace _ _) rfl
    · refine hs.of_quiet hgone (fun h ↦ hx h.2) (not_actsAt_of_pc (by rw [hpc]; decide)) ?_ ?_
        (fun h ↦ absurd h (not_finds_of_pc (by rw [hpc]; decide)))
      · exact fun v ↦ carries_goto rfl ⟨fun h ↦ absurd h.2 hx, fun h ↦ absurd h.2 hx⟩
      · intro v hv
        refine hv.of_goto rfl ?_
        rintro rfl
        exact hx hv.2
  | @insert w _ hpc hworker hpending =>
    refine hs.of_quiet hgone (not_actsAt_of_pc (by rw [hpc]; decide))
      (not_actsAt_of_pc (by rw [hpc]; decide)) ?_ ?_
      (fun h ↦ absurd h (not_finds_of_pc (by rw [hpc]; decide)))
    · exact fun v ↦ carries_goto hworker (by simp [Carries, hpc])
    · exact fun v hv ↦ hv.of_goto hworker (ne_of_erasing hv (by rw [hpc]; decide))
  | @start w hpc =>
    have hworker : (s.startAccept w).worker = (s.goto w .free).worker := rfl
    by_cases hx : (s.worker w).pendingSession = x
    · subst hx
      exact acknowledged_start hs hgone hpc hworker
    · refine hs.of_quiet hgone (not_actsAt_of_pc (by rw [hpc]; decide)) (fun h ↦ hx h.2) ?_ ?_
        (fun h ↦ absurd h (not_finds_of_pc (by rw [hpc]; decide)))
      · exact fun v ↦ carries_goto hworker ⟨fun h ↦ absurd h.2 hx, fun h ↦ absurd h.2 hx⟩
      · exact fun v hv ↦ hv.of_goto hworker (ne_of_erasing hv (by rw [hpc]; decide))

end Step

theorem acknowledged_of_run {history : List (SessionManager ι × Action ι)}
    (hrun : (system ι).Run history s) : s.Listed ∧ ∀ x, Acknowledged history s x := by
  induction hrun with
  | start hinit =>
    subst hinit
    exact ⟨listed_initial, acknowledged_initial⟩
  | next _ hstep ih =>
    obtain ⟨hlisted, hs⟩ := ih
    exact ⟨listed_step hlisted hstep, fun x ↦ acknowledged_step hlisted (hs x) hstep⟩

/-- **Concurrent ACKs.** In a run of any number of workers the entry of each session that an ACK has
found is erased once, through a live iterator, and `ahandler_` started once for it, if and only if no
worker erases an entry that another worker has found and is still to erase. -/
theorem handledOnce_iff_eraseAlone {history : List (SessionManager ι × Action ι)}
    (hrun : (system ι).Run history s) :
    HandledOnce history s ↔ System.Obeys EraseAlone history := by
  have hlive : (∀ seen ∈ System.visited history s, seen.IteratorsLive) ↔
      System.Obeys EraseAlone history := by
    refine hrun.forall_visited_iff_obeys (fun _ ↦ True) ?_ (fun _ _ _ _ _ _ ↦ trivial) ?_
    · rintro state rfl
      exact ⟨trivial, fun w x hw ↦ by simp [Erasing, initial] at hw⟩
    · intro state action after _ hstate hstep
      exact iteratorsLive_step_iff hstate hstep
  have hs := (acknowledged_of_run hrun).2
  constructor
  · intro hhandled
    exact hlive.mp hhandled.live
  · intro hobeys
    refine ⟨hlive.mpr hobeys, fun x ↦ (hs x).erased,
      fun x ↦ (hs x).started.trans (hs x).erased, ?_⟩
    intro x hfound hsettled
    have herased : stepsAt .erasePending x history ≠ 0 := by
      rcases (hs x).found hfound with hdone | ⟨w, hw⟩
      · exact hdone
      · exact absurd hw (hsettled w).1
    have hone := (hs x).erased
    rcases (hs x).settled herased with hdone | ⟨w, hw⟩
    · exact ⟨by omega, hdone⟩
    · exact absurd hw (hsettled w).2

/-- A client sends SYN, and its ACK arrives twice, at two workers. -/
def acknowledgedTwice (endpoint : Endpoint) : List (Action (Fin 2)) :=
  let syn : List UInt8 := [2, 0, 255, 255, 0, 0]
  let ack : List UInt8 := [2, 0, 253, 255, 0, 0]
  [.recv 0 0, .recv 1 1, .complete 0 true endpoint syn, .dequeue 0 ⟨0, true, syn⟩] ++
    List.replicate 4 (.iocpTask 0) ++
    [.recv 0 0, .complete 0 true endpoint ack, .complete 1 true endpoint ack,
      .dequeue 0 ⟨0, true, ack⟩, .dequeue 1 ⟨1, true, ack⟩]

/-- Both find the session, and the first one erases its entry. -/
theorem handledOnce_fails :
    ¬ ∀ history s, (system (Fin 2)).Run history s → HandledOnce history s := by
  intro hclaim
  have hreplay : (System.replay step (initial (Fin 2))
      (acknowledgedTwice ⟨1, 1⟩ ++ [.iocpTask 0, .iocpTask 1, .iocpTask 0])).map
      (fun s ↦ decide ((s.worker 1).pc = .erasePending ∧
        (s.worker 1).pendingSession ∉ s.pendingSessions.values)) = some true := by decide +kernel
  obtain ⟨history, s, hrun, htest⟩ := System.exists_run_of_replay
    (fun s ↦ s = initial (Fin 2)) rfl hreplay
  obtain ⟨hpc, hgone⟩ := of_decide_eq_true htest
  have hlive := (hclaim history s hrun).live s List.mem_cons_self
  exact hgone (hlive 1 _ ⟨hpc, rfl⟩)

/-- The characterisation applied to a run in which the second ACK comes after the erase. -/
theorem handledOnce_iff_eraseAlone_applies :
    ∃ history s, (system (Fin 2)).Run history s ∧ s.acceptThreads.length = 1 ∧
      (HandledOnce history s ↔ System.Obeys EraseAlone history) := by
  have hreplay : (System.replay step (initial (Fin 2))
      (acknowledgedTwice ⟨1, 1⟩ ++ List.replicate 4 (.iocpTask 0) ++ [.iocpTask 1])).map
      (fun s ↦ decide (s.acceptThreads.length = 1)) = some true := by decide +kernel
  obtain ⟨history, s, hrun, htest⟩ := System.exists_run_of_replay
    (fun s ↦ s = initial (Fin 2)) rfl hreplay
  exact ⟨history, s, hrun, of_decide_eq_true htest, handledOnce_iff_eraseAlone hrun⟩

end SessionManager

end ServerCore.UdpServer
