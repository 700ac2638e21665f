import Mathlib.Data.List.Nodup
import Mathlib.Tactic.Common
import ServerCore.UdpServer.ReceiveBuffers

/-!
# Where the sessions are

A session is constructed by a worker, filed in `pending_sessions_`, taken out by the worker that
processes its ACK, filed in `sessions_`, moved to the vector `disconnected` by a tick and deleted by
the tick in which its counter reaches -3. The invariant `Listed` says that the ghost field `place` is
right about this, so that a session is in one of these hands at a time and is deleted once.
-/

namespace ServerCore.UdpServer

open Foundation

theorem Branch.pc_ne_insert (b : Branch) : b.pc ≠ .insertPending ∧ b.pc ≠ .insertSession := by
  cases b <;> decide

/-- The vector `disconnected`. -/
def Tick.disconnected : Tick → List ℕ
  | .sleeping disconnected | .sweeping _ disconnected | .testing _ _ disconnected => disconnected
  | .draining kept remaining => kept ++ remaining
  | .notifying kept x remaining | .deleting kept x remaining => kept ++ x :: remaining

namespace SessionManager

variable {ι : Type} {s after : SessionManager ι}

def place (s : SessionManager ι) (session : ℕ) : Place ι :=
  (s.session session).place

@[simp]
theorem place_setPlace (x : ℕ) (p : Place ι) :
    (s.setPlace x p).place = Function.update s.place x p := by
  funext y
  by_cases h : y = x
  · simp [place, setPlace, h]
  · simp [place, setPlace, h]

@[simp]
theorem place_addAlive (x : ℕ) (change : BitVec 16) : (s.addAlive x change).place = s.place := by
  funext y
  by_cases h : y = x
  · simp [place, addAlive, h]
  · simp [place, addAlive, h]

theorem ne_of_place {x y : ℕ} {q r : Place ι} (hx : s.place x = q) (hy : s.place y = r)
    (h : r ≠ q) : y ≠ x := by
  intro heq
  rw [heq, hx] at hy
  exact h hy.symm

/-- A session at another place than the one that moves stays where it is. -/
theorem place_update_of_place {x y : ℕ} {p q r : Place ι} (hx : s.place x = q) (hy : s.place y = r)
    (h : r ≠ q) : Function.update s.place x p y = r := by
  rw [Function.update_of_ne (ne_of_place hx hy h), hy]

/-- The ghost field `place` says where each session is. -/
structure Listed (s : SessionManager ι) : Prop where
  fresh : ∀ x, s.numSessions ≤ x → s.place x = .unlisted
  constructed : ∀ w, (s.worker w).pc = .insertPending →
    s.place (s.worker w).newSession = .constructed w
  pending : ∀ x ∈ s.pendingSessions.values, s.place x = .pending
  accepting : ∀ w, (s.worker w).pc = .insertSession →
    s.place (s.worker w).pendingSession = .accepting w
  established : ∀ x ∈ s.sessions.values, s.place x = .established
  disconnected : ∀ x ∈ s.tick.disconnected, s.place x = .disconnected
  nodup : s.tick.disconnected.Nodup

theorem listed_initial : (initial ι).Listed where
  fresh _ _ := rfl
  constructed := by simp [initial]
  pending := by simp [initial, SessionMap.values]
  accepting := by simp [initial]
  established := by simp [initial, SessionMap.values]
  disconnected := by simp [initial, Tick.disconnected]
  nodup := List.nodup_nil

/-- A step that moves no session between the maps and brings no worker to an insertion. -/
theorem Listed.of_places (hs : s.Listed) (hplace : after.place = s.place)
    (hnum : after.numSessions = s.numSessions)
    (hconstructed : ∀ w, (after.worker w).pc = .insertPending → (s.worker w).pc = .insertPending ∧
      (after.worker w).newSession = (s.worker w).newSession)
    (hpending : after.pendingSessions = s.pendingSessions)
    (haccepting : ∀ w, (after.worker w).pc = .insertSession → (s.worker w).pc = .insertSession ∧
      (after.worker w).pendingSession = (s.worker w).pendingSession)
    (hsessions : after.sessions = s.sessions)
    (htick : after.tick.disconnected = s.tick.disconnected) : after.Listed where
  fresh := by
    rw [hplace, hnum]
    exact hs.fresh
  constructed := by
    intro w hw
    rw [hplace, (hconstructed w hw).2]
    exact hs.constructed w (hconstructed w hw).1
  pending := by
    rw [hplace, hpending]
    exact hs.pending
  accepting := by
    intro w hw
    rw [hplace, (haccepting w hw).2]
    exact hs.accepting w (haccepting w hw).1
  established := by
    rw [hplace, hsessions]
    exact hs.established
  disconnected := by
    rw [hplace, htick]
    exact hs.disconnected
  nodup := by
    rw [htick]
    exact hs.nodup

/-! ## The workers -/

variable [DecidableEq ι]

/-- What a worker says after another one moved. -/
theorem worker_of_pc {w v : ι} {locals : Worker} {pc : Pc}
    (hworker : after.worker = Function.update s.worker w locals) (hpc : locals.pc ≠ pc)
    (hv : (after.worker v).pc = pc) : v ≠ w ∧ after.worker v = s.worker v := by
  have hne : v ≠ w := by
    intro heq
    rw [hworker, heq, Function.update_self] at hv
    exact hpc hv
  rw [hworker, Function.update_of_ne hne]
  exact ⟨hne, rfl⟩

/-- A worker goes on without moving a session. -/
theorem Listed.of_worker {w : ι} {locals : Worker} (hs : s.Listed)
    (hworker : after.worker = Function.update s.worker w locals)
    (hpc : locals.pc ≠ .insertPending ∧ locals.pc ≠ .insertSession)
    (hplace : after.place = s.place) (hnum : after.numSessions = s.numSessions)
    (hpending : after.pendingSessions = s.pendingSessions)
    (hsessions : after.sessions = s.sessions) (htick : after.tick = s.tick) : after.Listed := by
  apply hs.of_places hplace hnum _ hpending _ hsessions (by rw [htick])
  · intro v hv
    obtain ⟨-, hsame⟩ := worker_of_pc hworker hpc.1 hv
    rw [hsame] at hv ⊢
    exact ⟨hv, rfl⟩
  · intro v hv
    obtain ⟨-, hsame⟩ := worker_of_pc hworker hpc.2 hv
    rw [hsame] at hv ⊢
    exact ⟨hv, rfl⟩

theorem place_construct (w : ι) :
    (s.construct w).place = Function.update s.place s.numSessions (.constructed w) := by
  funext y
  by_cases h : y = s.numSessions
  · simp [place, construct, setWorker, h]
  · simp [place, construct, setWorker, h]

theorem listed_construct {w : ι} (hs : s.Listed) : (s.construct w).Listed := by
  have hplace := place_construct (s := s) w
  have hnew := hs.fresh s.numSessions le_rfl
  have hother (v : ι) (hv : v ≠ w) : (s.construct w).worker v = s.worker v := by
    simp [construct, setWorker, hv]
  refine ⟨?_, ?_, ?_, ?_, ?_, ?_, hs.nodup⟩
  all_goals rw [hplace]
  · intro x hx
    have hx : s.numSessions + 1 ≤ x := hx
    rw [Function.update_of_ne (by omega)]
    exact hs.fresh x (by omega)
  · intro v hv
    by_cases hvw : v = w
    · simp [hvw, construct, setWorker]
    · rw [hother v hvw] at hv ⊢
      exact place_update_of_place hnew (hs.constructed v hv) (by simp)
  · intro x hx
    exact place_update_of_place hnew (hs.pending x hx) (by simp)
  · intro v hv
    have hvw : v ≠ w := by
      intro heq
      simp [heq, construct, setWorker] at hv
    rw [hother v hvw] at hv ⊢
    exact place_update_of_place hnew (hs.accepting v hv) (by simp)
  · intro x hx
    exact place_update_of_place hnew (hs.established x hx) (by simp)
  · intro x hx
    exact place_update_of_place hnew (hs.disconnected x hx) (by simp)

omit [DecidableEq ι] in
/-- A session moves from one place to another. -/
theorem Listed.of_moved {x : ℕ} {p q : Place ι} (hs : s.Listed) (hx : s.place x = q)
    (hlisted : q ≠ .unlisted) (hplace : after.place = Function.update s.place x p)
    (hnum : after.numSessions = s.numSessions)
    (hconstructed : ∀ w, (after.worker w).pc = .insertPending → (s.worker w).pc = .insertPending ∧
      (after.worker w).newSession = (s.worker w).newSession ∧ q ≠ .constructed w)
    (hpending : ∀ y ∈ after.pendingSessions.values,
      (y = x ∧ p = .pending) ∨ (y ≠ x ∧ y ∈ s.pendingSessions.values))
    (haccepting : ∀ w, (after.worker w).pc = .insertSession →
      ((after.worker w).pendingSession = x ∧ p = .accepting w) ∨
      ((s.worker w).pc = .insertSession ∧
        (after.worker w).pendingSession = (s.worker w).pendingSession ∧ q ≠ .accepting w))
    (hsessions : ∀ y ∈ after.sessions.values,
      (y = x ∧ p = .established) ∨ (y ≠ x ∧ y ∈ s.sessions.values))
    (htick : ∀ y ∈ after.tick.disconnected,
      (y = x ∧ p = .disconnected) ∨ (y ≠ x ∧ y ∈ s.tick.disconnected))
    (hnodup : after.tick.disconnected.Nodup) : after.Listed := by
  refine ⟨?_, ?_, ?_, ?_, ?_, ?_, hnodup⟩
  all_goals rw [hplace]
  · intro y hy
    rw [hnum] at hy
    exact place_update_of_place hx (hs.fresh y hy) hlisted.symm
  · intro w hw
    obtain ⟨hpc, hsame, hne⟩ := hconstructed w hw
    rw [hsame]
    exact place_update_of_place hx (hs.constructed w hpc) hne.symm
  · intro y hy
    obtain ⟨rfl, rfl⟩ | ⟨hne, hmem⟩ := hpending y hy
    · exact Function.update_self _ _ _
    · rw [Function.update_of_ne hne]
      exact hs.pending y hmem
  · intro w hw
    obtain ⟨heq, rfl⟩ | ⟨hpc, hsame, hne⟩ := haccepting w hw
    · rw [heq, Function.update_self]
    · rw [hsame]
      exact place_update_of_place hx (hs.accepting w hpc) hne.symm
  · intro y hy
    obtain ⟨rfl, rfl⟩ | ⟨hne, hmem⟩ := hsessions y hy
    · exact Function.update_self _ _ _
    · rw [Function.update_of_ne hne]
      exact hs.established y hmem
  · intro y hy
    obtain ⟨rfl, rfl⟩ | ⟨hne, hmem⟩ := htick y hy
    · exact Function.update_self _ _ _
    · rw [Function.update_of_ne hne]
      exact hs.disconnected y hmem

/-- A worker that goes on from a point to one that is no insertion. -/
theorem worker_goto {w v : ι} {pc next : Pc} (hne : next ≠ pc)
    (hv : ((s.goto w next).worker v).pc = pc) : v ≠ w ∧ (s.goto w next).worker v = s.worker v :=
  worker_of_pc rfl hne hv

/-- The worker of a new session files it. -/
theorem listed_insertPending {w : ι} (hs : s.Listed) (hpc : (s.worker w).pc = .insertPending) :
    Listed (({ s with
      pendingSessions := s.pendingSessions.insert
        (s.session (s.worker w).newSession).endpoint (s.worker w).newSession }.setPlace
          (s.worker w).newSession .pending).goto w .reply) := by
  have hx := hs.constructed w hpc
  refine hs.of_moved hx (by simp) (place_setPlace _ _) rfl ?_ ?_ ?_ ?_ ?_ hs.nodup
  · intro v hv
    obtain ⟨hne, hsame⟩ := worker_goto (by decide) hv
    rw [hsame] at hv ⊢
    exact ⟨hv, rfl, fun h ↦ hne (Place.constructed.inj h).symm⟩
  · intro y hy
    rcases SessionMap.mem_values_insert hy with heq | hmem
    · exact Or.inl ⟨heq, rfl⟩
    · exact Or.inr ⟨ne_of_place hx (hs.pending y hmem) (by simp), hmem⟩
  · intro v hv
    obtain ⟨-, hsame⟩ := worker_goto (by decide) hv
    rw [hsame] at hv ⊢
    exact Or.inr ⟨hv, rfl, by simp⟩
  · intro y hy
    exact Or.inr ⟨ne_of_place hx (hs.established y hy) (by simp), hy⟩
  · intro y hy
    exact Or.inr ⟨ne_of_place hx (hs.disconnected y hy) (by simp), hy⟩

theorem listed_erasePending {w : ι} (hs : s.Listed)
    (hmem : (s.worker w).pendingSession ∈ s.pendingSessions.values) :
    Listed (({ s with
      pendingSessions := s.pendingSessions.erase (s.worker w).pendingSession }.setPlace
        (s.worker w).pendingSession (.accepting w)).goto w .insertSession) := by
  have hx := hs.pending _ hmem
  refine hs.of_moved hx (by simp) (place_setPlace _ _) rfl ?_ ?_ ?_ ?_ ?_ hs.nodup
  · intro v hv
    obtain ⟨-, hsame⟩ := worker_goto (by decide) hv
    rw [hsame] at hv ⊢
    exact ⟨hv, rfl, by simp⟩
  · intro y hy
    exact Or.inr (SessionMap.mem_values_erase.mp hy)
  · intro v hv
    by_cases hvw : v = w
    · rw [hvw]
      exact Or.inl ⟨by simp [goto, setWorker, setPlace], rfl⟩
    · have hsame : (goto (setPlace { s with
          pendingSessions := s.pendingSessions.erase (s.worker w).pendingSession }
          (s.worker w).pendingSession (.accepting w)) w .insertSession).worker v = s.worker v := by
        simp [goto, setWorker, setPlace, hvw]
      rw [hsame] at hv ⊢
      exact Or.inr ⟨hv, rfl, by simp⟩
  · intro y hy
    exact Or.inr ⟨ne_of_place hx (hs.established y hy) (by simp), hy⟩
  · intro y hy
    exact Or.inr ⟨ne_of_place hx (hs.disconnected y hy) (by simp), hy⟩

/-- The worker of an accepted session files it, or leaves it to nobody. -/
theorem listed_insertSession {w : ι} {p : Place ι} (hs : s.Listed)
    (hpc : (s.worker w).pc = .insertSession)
    (hworker : after.worker = (s.goto w .startAccept).worker)
    (hplace : after.place = Function.update s.place (s.worker w).pendingSession p)
    (hnum : after.numSessions = s.numSessions)
    (hpending : after.pendingSessions = s.pendingSessions)
    (hsessions : ∀ y ∈ after.sessions.values,
      (y = (s.worker w).pendingSession ∧ p = .established) ∨ y ∈ s.sessions.values)
    (htick : after.tick = s.tick) : after.Listed := by
  have hx := hs.accepting w hpc
  have hmoved (v : ι) {pc : Pc} (hne : Pc.startAccept ≠ pc) (hv : (after.worker v).pc = pc) :
      v ≠ w ∧ after.worker v = s.worker v := by
    rw [hworker] at hv ⊢
    exact worker_goto hne hv
  refine hs.of_moved hx (by simp) hplace hnum ?_ ?_ ?_ ?_ ?_ (by rw [htick]; exact hs.nodup)
  · intro v hv
    obtain ⟨-, hsame⟩ := hmoved v (by decide) hv
    rw [hsame] at hv ⊢
    exact ⟨hv, rfl, by simp⟩
  · intro y hy
    rw [hpending] at hy
    exact Or.inr ⟨ne_of_place hx (hs.pending y hy) (by simp), hy⟩
  · intro v hv
    obtain ⟨hne, hsame⟩ := hmoved v (by decide) hv
    rw [hsame] at hv ⊢
    exact Or.inr ⟨hv, rfl, fun h ↦ hne (Place.accepting.inj h).symm⟩
  · intro y hy
    rcases hsessions y hy with hnew | hmem
    · exact Or.inl hnew
    · exact Or.inr ⟨ne_of_place hx (hs.established y hmem) (by simp), hmem⟩
  · intro y hy
    rw [htick] at hy
    exact Or.inr ⟨ne_of_place hx (hs.disconnected y hy) (by simp), hy⟩

theorem listed_iocpTask {w : ι} (hs : s.Listed) (hstep : s.iocpTask w = some after) :
    after.Listed := by
  cases iocpStep_of_iocpTask hstep with
  | construct hpc => exact listed_construct hs
  | insertPending hpc hfind => exact listed_insertPending hs hpc
  | erasePending hpc hmem => exact listed_erasePending hs hmem
  | refuseSession hpc hlocked hfind =>
    exact listed_insertSession hs hpc rfl (place_setPlace _ _) rfl rfl (fun y hy ↦ Or.inr hy) rfl
  | insertSession hpc hlocked hfind =>
    refine listed_insertSession hs hpc rfl (place_setPlace _ _) rfl rfl ?_ rfl
    intro y hy
    rcases SessionMap.mem_values_insert hy with heq | hmem
    · exact Or.inl ⟨heq, rfl⟩
    · exact Or.inr hmem
  | incrementHeartbeat | deliver | discard =>
    exact hs.of_worker rfl (by simp) (place_addAlive _ _) rfl rfl rfl rfl
  | refusePending | reply | missPending | findPending | startAccept | missSession
  | findHeartbeat | findSession | startPacket | free =>
    exact hs.of_worker rfl (by simp) rfl rfl rfl rfl rfl

/-! ## The heartbeat thread -/

omit [DecidableEq ι] in
/-- The tick goes on without moving a session. -/
theorem Listed.of_tick {tick : Tick} (hs : s.Listed) (hworker : after.worker = s.worker)
    (hplace : after.place = s.place) (hnum : after.numSessions = s.numSessions)
    (hpending : after.pendingSessions = s.pendingSessions)
    (hsessions : after.sessions = s.sessions) (hafter : after.tick = tick)
    (htick : tick.disconnected = s.tick.disconnected) : after.Listed := by
  apply hs.of_places hplace hnum _ hpending _ hsessions (by rw [hafter, htick])
  · intro w hw
    rw [hworker] at hw ⊢
    exact ⟨hw, rfl⟩
  · intro w hw
    rw [hworker] at hw ⊢
    exact ⟨hw, rfl⟩

omit [DecidableEq ι] in
/-- The tick takes a session out of the map and keeps it in its vector. -/
theorem listed_disconnect {x : ℕ} {remaining disconnected : List ℕ} (hs : s.Listed)
    (htick : s.tick = .testing x remaining disconnected) (hmem : x ∈ s.sessions.values) :
    Listed { s.setPlace x .disconnected with
      sessions := s.sessions.erase x
      tick := .sweeping remaining (disconnected ++ [x]) } := by
  have hx := hs.established x hmem
  have hlisted := hs.disconnected
  have hnodup := hs.nodup
  rw [htick] at hlisted hnodup
  have hnew : x ∉ disconnected := by
    intro h
    have hplace := hlisted x h
    rw [hx] at hplace
    cases hplace
  refine hs.of_moved hx (by simp) (place_setPlace _ _) rfl (fun v hv ↦ ⟨hv, rfl, by simp⟩) ?_
    (fun v hv ↦ Or.inr ⟨hv, rfl, by simp⟩) ?_ ?_ ?_
  · intro y hy
    exact Or.inr ⟨ne_of_place hx (hs.pending y hy) (by simp), hy⟩
  · intro y hy
    exact Or.inr (SessionMap.mem_values_erase.mp hy)
  · intro y hy
    rcases List.mem_append.mp hy with hold | hlast
    · refine Or.inr ⟨ne_of_place hx (hlisted y hold) (by simp), ?_⟩
      rw [htick]
      exact hold
    · exact Or.inl ⟨List.mem_singleton.mp hlast, rfl⟩
  · exact List.nodup_append.mpr ⟨hnodup, List.nodup_singleton x, by
      intro y hy z hz heq
      rw [List.mem_singleton.mp hz] at heq
      exact hnew (heq ▸ hy)⟩

omit [DecidableEq ι] in
/-- The tick deletes a session of its vector. -/
theorem listed_delete {x : ℕ} {kept remaining : List ℕ} (hs : s.Listed)
    (htick : s.tick = .deleting kept x remaining) :
    Listed { s.setPlace x .ended with tick := .draining kept remaining } := by
  have hlisted := hs.disconnected
  have hnodup := hs.nodup
  rw [htick] at hlisted hnodup
  have hx := hlisted x (by simp [Tick.disconnected])
  obtain ⟨hfirst, hrest⟩ := List.nodup_cons.mp (List.nodup_middle.mp hnodup)
  refine hs.of_moved hx (by simp) (place_setPlace _ _) rfl (fun v hv ↦ ⟨hv, rfl, by simp⟩) ?_
    (fun v hv ↦ Or.inr ⟨hv, rfl, by simp⟩) ?_ ?_ hrest
  · intro y hy
    exact Or.inr ⟨ne_of_place hx (hs.pending y hy) (by simp), hy⟩
  · intro y hy
    exact Or.inr ⟨ne_of_place hx (hs.established y hy) (by simp), hy⟩
  · intro y hy
    have hy : y ∈ kept ++ remaining := hy
    refine Or.inr ⟨fun heq ↦ hfirst (heq ▸ hy), ?_⟩
    rw [htick]
    simp only [Tick.disconnected, List.mem_append, List.mem_cons] at hy ⊢
    tauto

omit [DecidableEq ι] in
theorem listed_tick (hs : s.Listed) (hstep : s.runTick = some after) : after.Listed := by
  cases tickStep_of_runTick hstep with
  | disconnect htick hmem => exact listed_disconnect hs htick hmem
  | delete htick => exact listed_delete hs htick
  | decrement htick | expire htick =>
    exact hs.of_tick rfl (place_addAlive _ _) rfl rfl rfl rfl (by rw [htick]; rfl)
  | keep htick =>
    exact hs.of_tick rfl (place_addAlive _ _) rfl rfl rfl rfl
      (by rw [htick]; simp [Tick.disconnected])
  | drained htick =>
    exact hs.of_tick rfl rfl rfl rfl rfl rfl (by rw [htick]; simp [Tick.disconnected])
  | wake htick | swept htick | retain htick | notify htick =>
    exact hs.of_tick rfl rfl rfl rfl rfl rfl (by rw [htick]; rfl)

theorem listed_step {action : Action ι} (hs : s.Listed) (hstep : s.step action = some after) :
    after.Listed := by
  cases action with
  | recv w chunk =>
    obtain ⟨-, rfl⟩ := recv_eq_some.mp hstep
    exact hs.of_worker rfl (by simp) rfl rfl rfl rfl rfl
  | complete chunk succ endpoint datagram =>
    obtain ⟨-, rfl⟩ := complete_eq_some.mp hstep
    exact hs.of_tick rfl rfl rfl rfl rfl rfl rfl
  | dequeue w c =>
    obtain ⟨-, -, ⟨-, rfl⟩ | ⟨-, rfl⟩⟩ := dequeue_cases hstep
    · exact hs.of_tick rfl rfl rfl rfl rfl rfl rfl
    · exact hs.of_worker rfl (Branch.pc_ne_insert _) rfl rfl rfl rfl rfl
  | iocpTask w => exact listed_iocpTask hs hstep
  | loadPending | callAccept | loadSession | loadReadIoData | readHeader | readBody
  | callPacket =>
    obtain ⟨_, _, _, _, rfl⟩ := handler_frame hstep trivial
    exact hs.of_tick rfl rfl rfl rfl rfl rfl rfl
  | tick => exact listed_tick hs hstep

end SessionManager

end ServerCore.UdpServer
