import Mathlib.Data.Fintype.Basic
import ServerCore.UdpServer.SessionPlaces

/-!
# The lifetime of a session

A lookup gives a worker a pointer to a session and releases the lock. The increment of `is_alive_`
comes later, and the handler is called later still, while ticks take the session out of the map,
count it down and delete it. The main theorem says that no pointer is used after the session was
deleted in every run in which a session is deleted only when nobody holds a pointer to it, and in
which handlers load their session in time.
-/

namespace ServerCore.UdpServer

open Foundation

/-- A worker at this point has a pointer to a session that it is going to use. -/
def Pc.Counts (pc : Pc) : Prop :=
  pc = .incrementHeartbeat ∨ pc = .incrementSession ∨ pc = .startPacket

instance (pc : Pc) : Decidable pc.Counts :=
  inferInstanceAs (Decidable (_ ∨ _ ∨ _))

theorem Branch.not_counts_pc (b : Branch) : ¬ b.pc.Counts := by
  cases b <;> decide

namespace SessionManager

variable {ι : Type} {s after : SessionManager ι}

/-- The step increments `is_alive_` of no deleted session and calls `phandler_` with none. -/
def UsesLive (s : SessionManager ι) : Action ι → Prop
  | .iocpTask w => (s.worker w).pc = .incrementHeartbeat ∨ (s.worker w).pc = .incrementSession →
    s.place (s.worker w).session ≠ .ended
  | .callPacket i => ∀ t ∈ s.packetThreads[i]?, ∀ x ∈ t.session, s.place x ≠ .ended
  | _ => True

/-- No worker is about to use the session, and no handler is about to be called with it. -/
def Unheld (s : SessionManager ι) (x : ℕ) : Prop :=
  (∀ w, (s.worker w).pc.Counts → (s.worker w).session ≠ x) ∧
  ∀ t ∈ s.packetThreads, t.called = false → t.session ≠ some x ∧
    (t.session = none → ∀ w ∈ t.scope, (s.worker w).session ≠ x)

/-- Sessions are deleted when nobody holds them, and handlers load theirs while it is in scope. -/
def Considerate (s : SessionManager ι) : Action ι → Prop
  | .loadSession i _ => ∀ t ∈ s.packetThreads[i]?, t.scope.isSome = true
  | .tick =>
    match s.tick with
    | .deleting _ x _ => s.Unheld x
    | _ => True
  | _ => True

/-- A handler thread, until it has called its handler, has no pointer to a deleted session. -/
structure ThreadHolds (s : SessionManager ι) (t : PacketThread ι) : Prop where
  scope : ∀ w ∈ t.scope, (s.worker w).pc = .free
  loading : t.called = false → t.session = none →
    ∀ w ∈ t.scope, s.place (s.worker w).session ≠ .ended
  loaded : t.called = false → ∀ x ∈ t.session, s.place x ≠ .ended

/-- Nobody has a pointer to a deleted session that will be used. -/
structure Held (s : SessionManager ι) : Prop where
  listed : s.Listed
  counting : ∀ w, (s.worker w).pc.Counts → s.place (s.worker w).session ≠ .ended
  threads : ∀ t ∈ s.packetThreads, s.ThreadHolds t

theorem held_initial : (initial ι).Held where
  listed := listed_initial
  counting := by simp [initial, Pc.Counts]
  threads := by simp [initial]

theorem ThreadHolds.congr {t : PacketThread ι} (ht : s.ThreadHolds t)
    (hworker : ∀ w, (s.worker w).pc = .free → after.worker w = s.worker w)
    (hplace : ∀ x, s.place x ≠ .ended → after.place x ≠ .ended) : after.ThreadHolds t where
  scope := by
    intro w hw
    rw [hworker w (ht.scope w hw)]
    exact ht.scope w hw
  loading := by
    intro hcalled hsession w hw
    rw [hworker w (ht.scope w hw)]
    exact hplace _ (ht.loading hcalled hsession w hw)
  loaded := by
    intro hcalled x hx
    exact hplace x (ht.loaded hcalled x hx)

/-- A step that deletes no session and moves no worker. -/
theorem Held.of_threads (hs : s.Held) (hlisted : after.Listed) (hworker : after.worker = s.worker)
    (hplace : ∀ x, s.place x ≠ .ended → after.place x ≠ .ended)
    (hthreads : ∀ t ∈ after.packetThreads, t ∈ s.packetThreads ∨ s.ThreadHolds t) :
    after.Held where
  listed := hlisted
  counting := by
    intro w hw
    rw [hworker] at hw ⊢
    exact hplace _ (hs.counting w hw)
  threads := by
    intro t ht
    have hsound : s.ThreadHolds t := by
      rcases hthreads t ht with hold | hnew
      · exact hs.threads t hold
      · exact hnew
    exact hsound.congr (fun w _ ↦ by rw [hworker]) hplace

/-- One packet handler goes on. -/
theorem Held.of_setPacket {i : ℕ} {t : PacketThread ι} (hs : s.Held) (hlisted : after.Listed)
    (hafter : after.worker = s.worker ∧ after.place = s.place ∧
      after.packetThreads = s.packetThreads.set i t) (ht : s.ThreadHolds t) : after.Held := by
  obtain ⟨hworker, hplace, hthreads⟩ := hafter
  apply hs.of_threads hlisted hworker
  · intro x hx
    rw [hplace]
    exact hx
  · intro other hother
    rw [hthreads] at hother
    rcases List.mem_or_eq_of_mem_set hother with hold | heq
    · exact Or.inl hold
    · rw [heq]
      exact Or.inr ht

theorem held_loadSession {i value : ℕ} (hs : s.Held) (hlisted : after.Listed)
    (hconsiderate : s.Considerate (.loadSession i value))
    (hstep : s.loadSession i value = some after) : after.Held := by
  obtain ⟨t, ht, ⟨hnew, hcaptures⟩, rfl⟩ := loadSession_eq_some.mp hstep
  have hsound := hs.threads t (List.mem_of_getElem? ht)
  obtain ⟨w, hw⟩ := Option.isSome_iff_exists.mp (hconsiderate t ht)
  refine hs.of_setPacket hlisted ⟨rfl, rfl, rfl⟩ ⟨hsound.scope, ?_, ?_⟩
  · intro _ h
    cases h
  · intro hcalled x hx
    rw [← Option.some.inj hx, ← hcaptures w hw]
    exact hsound.loading hcalled hnew w hw

theorem held_callPacket {i : ℕ} (hs : s.Held) (hlisted : after.Listed)
    (hstep : s.callPacket i = some after) : after.Held := by
  obtain ⟨t, session, header, body, ht, -, -, -, -, rfl⟩ := callPacket_eq_some.mp hstep
  have hsound := hs.threads t (List.mem_of_getElem? ht)
  refine hs.of_setPacket hlisted ⟨rfl, rfl, rfl⟩ ⟨hsound.scope, ?_, ?_⟩
  all_goals
    intro hcalled
    cases hcalled

/-- The tick deletes a session that nobody holds. -/
theorem held_delete {x : ℕ} {kept remaining : List ℕ} (hs : s.Held)
    (hlisted : Listed { s.setPlace x .ended with tick := .draining kept remaining })
    (hunheld : s.Unheld x) : Held { s.setPlace x .ended with tick := .draining kept remaining } := by
  have hplace (y : ℕ) (hne : y ≠ x) (hy : s.place y ≠ .ended) :
      (s.setPlace x .ended).place y ≠ .ended := by
    rw [place_setPlace, Function.update_of_ne hne]
    exact hy
  refine ⟨hlisted, ?_, ?_⟩
  · intro w hw
    exact hplace _ (hunheld.1 w hw) (hs.counting w hw)
  · intro t ht
    have hsound := hs.threads t ht
    refine ⟨hsound.scope, ?_, ?_⟩
    · intro hcalled hsession w hw
      exact hplace _ ((hunheld.2 t ht hcalled).2 hsession w hw)
        (hsound.loading hcalled hsession w hw)
    · intro hcalled y hy
      refine hplace y ?_ (hsound.loaded hcalled y hy)
      intro heq
      rw [heq] at hy
      exact (hunheld.2 t ht hcalled).1 hy

/-! ## The workers -/

variable [DecidableEq ι]

/-- A worker goes on, and nobody captures its locals. -/
theorem Held.of_worker {w : ι} {locals : Worker} (hs : s.Held) (hlisted : after.Listed)
    (hworker : after.worker = Function.update s.worker w locals)
    (hpc : (s.worker w).pc ≠ .free)
    (hplace : ∀ x, s.place x ≠ .ended → after.place x ≠ .ended)
    (hcounts : locals.pc.Counts → s.place locals.session ≠ .ended)
    (hthreads : after.packetThreads = s.packetThreads) : after.Held := by
  have hother (v : ι) (hv : v ≠ w) : after.worker v = s.worker v := by
    rw [hworker, Function.update_of_ne hv]
  refine ⟨hlisted, ?_, ?_⟩
  · intro v hv
    by_cases hvw : v = w
    · rw [hworker, hvw, Function.update_self] at hv ⊢
      exact hplace _ (hcounts hv)
    · rw [hother v hvw] at hv ⊢
      exact hplace _ (hs.counting v hv)
  · rw [hthreads]
    intro t ht
    refine (hs.threads t ht).congr (fun v hv ↦ hother v ?_) hplace
    intro heq
    exact hpc (heq ▸ hv)

omit [DecidableEq ι] in
/-- Moving a session to another place than the last deletes none. -/
theorem not_ended_of_update {x : ℕ} {p : Place ι} (hp : p ≠ .ended)
    (hplace : after.place = Function.update s.place x p) (y : ℕ) (hy : s.place y ≠ .ended) :
    after.place y ≠ .ended := by
  rw [hplace]
  by_cases hyx : y = x
  · rw [hyx, Function.update_self]
    exact hp
  · rw [Function.update_of_ne hyx]
    exact hy

theorem held_startPacket {w : ι} (hs : s.Held) (hlisted : (s.startPacket w).Listed)
    (hpc : (s.worker w).pc = .startPacket) : (s.startPacket w).Held := by
  have hsession := hs.counting w (by rw [hpc]; decide)
  have hother (v : ι) (hv : v ≠ w) : (s.startPacket w).worker v = s.worker v := by
    simp [startPacket, goto, setWorker, hv]
  refine ⟨hlisted, ?_, ?_⟩
  · intro v hv
    by_cases hvw : v = w
    · simp [startPacket, goto, setWorker, hvw, Pc.Counts] at hv
    · rw [hother v hvw] at hv ⊢
      exact hs.counting v hv
  · intro t ht
    rcases List.mem_append.mp ht with hold | hnew
    · refine (hs.threads t hold).congr (fun v hv ↦ hother v ?_) (fun _ h ↦ h)
      intro heq
      rw [heq, hpc] at hv
      cases hv
    · rw [List.mem_singleton.mp hnew]
      refine ⟨?_, ?_, by simp⟩
      · intro v hv
        rw [← Option.some.inj hv]
        simp [startPacket, goto, setWorker]
      · intro _ _ v hv
        rw [← Option.some.inj hv]
        simpa [startPacket, goto, setWorker, place] using hsession

/-- The block ends, and the threads that captured its locals lose them. -/
theorem held_free {w : ι} (hs : s.Held) (hlisted : (s.free w).Listed) : (s.free w).Held := by
  have hother (v : ι) (hv : v ≠ w) : (s.free w).worker v = s.worker v := by
    simp [free, goto, setWorker, hv]
  refine ⟨hlisted, ?_, ?_⟩
  · intro v hv
    by_cases hvw : v = w
    · simp [free, goto, setWorker, hvw, Pc.Counts] at hv
    · rw [hother v hvw] at hv ⊢
      exact hs.counting v hv
  · intro t ht
    obtain ⟨t, hmem, rfl⟩ := List.mem_map.mp ht
    have hsound := hs.threads t hmem
    unfold PacketThread.leave
    split
    · exact ⟨by simp, by simp, hsound.loaded⟩
    · next hscope =>
      have hsame (v : ι) (hv : v ∈ t.scope) : (s.free w).worker v = s.worker v :=
        hother v (fun heq ↦ hscope (heq ▸ hv))
      refine ⟨?_, ?_, hsound.loaded⟩
      · intro v hv
        rw [hsame v hv]
        exact hsound.scope v hv
      · intro hcalled hsession v hv
        rw [hsame v hv]
        exact hsound.loading hcalled hsession v hv

theorem held_iocpTask {w : ι} (hs : s.Held) (hlisted : after.Listed)
    (hstep : s.iocpTask w = some after) : after.Held := by
  cases iocpStep_of_iocpTask hstep with
  | startPacket hpc => exact held_startPacket hs hlisted hpc
  | free hpc => exact held_free hs hlisted
  | construct hpc =>
    refine hs.of_worker hlisted rfl (by rw [hpc]; decide) ?_ (by simp [Pc.Counts]) rfl
    exact not_ended_of_update (by simp) (place_construct w)
  | insertPending hpc | erasePending hpc | refuseSession hpc | insertSession hpc =>
    refine hs.of_worker hlisted rfl (by rw [hpc]; decide) ?_ (by simp [Pc.Counts]) rfl
    exact not_ended_of_update (by simp) (place_setPlace _ _)
  | incrementHeartbeat hpc | discard hpc =>
    refine hs.of_worker hlisted rfl (by rw [hpc]; decide) ?_ (by simp [Pc.Counts]) rfl
    intro x hx
    exact (congrFun (place_addAlive _ _) x).trans_ne hx
  | deliver hpc halive =>
    refine hs.of_worker hlisted rfl (by rw [hpc]; decide) ?_ ?_ rfl
    · intro x hx
      exact (congrFun (place_addAlive _ _) x).trans_ne hx
    · intro _
      exact hs.counting w (by rw [hpc]; decide)
  | findHeartbeat hpc hfind | findSession hpc hfind =>
    refine hs.of_worker hlisted rfl (by rw [hpc]; decide) (fun _ h ↦ h) ?_ rfl
    intro _
    -- the session found is in the map, so no tick has taken it out
    rw [hs.listed.established _ (SessionMap.mem_values_of_find hfind)]
    simp
  | missSession hpc =>
    refine hs.of_worker hlisted rfl ?_ (fun _ h ↦ h) (by simp [Pc.Counts]) rfl
    rcases hpc with hpc | hpc
    all_goals
      rw [hpc]
      decide
  | refusePending hpc | reply hpc | missPending hpc | findPending hpc | startAccept hpc =>
    exact hs.of_worker hlisted rfl (by rw [hpc]; decide) (fun _ h ↦ h) (by simp [Pc.Counts]) rfl

omit [DecidableEq ι] in
theorem held_tick (hs : s.Held) (hlisted : after.Listed) (hconsiderate : s.Considerate .tick)
    (hstep : s.runTick = some after) : after.Held := by
  cases tickStep_of_runTick hstep with
  | delete htick =>
    simp only [Considerate, htick] at hconsiderate
    exact held_delete hs hlisted hconsiderate
  | disconnect =>
    refine hs.of_threads hlisted rfl ?_ (fun t ht ↦ Or.inl ht)
    exact not_ended_of_update (by simp) (place_setPlace _ .disconnected)
  | decrement | expire | keep =>
    refine hs.of_threads hlisted rfl ?_ (fun t ht ↦ Or.inl ht)
    intro y hy
    exact (congrFun (place_addAlive _ (-1)) y).trans_ne hy
  | wake | swept | retain | drained | notify =>
    exact hs.of_threads hlisted rfl (fun _ h ↦ h) (fun t ht ↦ Or.inl ht)

/-- One step keeps everybody's pointers alive. -/
theorem held_step {action : Action ι} (hs : s.Held) (hconsiderate : s.Considerate action)
    (hstep : s.step action = some after) : after.Held := by
  have hlisted := listed_step hs.listed hstep
  cases action with
  | recv w chunk =>
    obtain ⟨⟨hpc, -⟩, rfl⟩ := recv_eq_some.mp hstep
    refine hs.of_worker hlisted rfl ?_ (fun _ h ↦ h) (by simp [Pc.Counts]) rfl
    intro hfree
    simp [hfree] at hpc
  | complete chunk succ endpoint datagram =>
    obtain ⟨-, rfl⟩ := complete_eq_some.mp hstep
    exact hs.of_threads hlisted rfl (fun _ h ↦ h) (fun t ht ↦ Or.inl ht)
  | dequeue w c =>
    obtain ⟨hpc, -, ⟨-, rfl⟩ | ⟨-, rfl⟩⟩ := dequeue_cases hstep
    · exact hs.of_threads hlisted rfl (fun _ h ↦ h) (fun t ht ↦ Or.inl ht)
    · refine hs.of_worker hlisted rfl (by rw [hpc]; decide) (fun _ h ↦ h) ?_ rfl
      intro hcounts
      exact absurd hcounts (Branch.not_counts_pc _)
  | iocpTask w => exact held_iocpTask hs hlisted hstep
  | loadPending i value =>
    obtain ⟨t, -, -, rfl⟩ := loadPending_eq_some.mp hstep
    exact hs.of_threads hlisted rfl (fun _ h ↦ h) (fun t ht ↦ Or.inl ht)
  | callAccept i =>
    obtain ⟨t, session, -, -, -, rfl⟩ := callAccept_eq_some.mp hstep
    exact hs.of_threads hlisted rfl (fun _ h ↦ h) (fun t ht ↦ Or.inl ht)
  | loadSession i value => exact held_loadSession hs hlisted hconsiderate hstep
  | loadReadIoData i value =>
    obtain ⟨t, ht, -, rfl⟩ := loadReadIoData_eq_some.mp hstep
    have hsound := hs.threads t (List.mem_of_getElem? ht)
    exact hs.of_setPacket hlisted ⟨rfl, rfl, rfl⟩ ⟨hsound.scope, hsound.loading, hsound.loaded⟩
  | readHeader i =>
    obtain ⟨t, chunk, ht, -, -, rfl⟩ := readHeader_eq_some.mp hstep
    have hsound := hs.threads t (List.mem_of_getElem? ht)
    exact hs.of_setPacket hlisted ⟨rfl, rfl, rfl⟩ ⟨hsound.scope, hsound.loading, hsound.loaded⟩
  | readBody i =>
    obtain ⟨t, chunk, header, ht, -, -, -, rfl⟩ := readBody_eq_some.mp hstep
    have hsound := hs.threads t (List.mem_of_getElem? ht)
    exact hs.of_setPacket hlisted ⟨rfl, rfl, rfl⟩ ⟨hsound.scope, hsound.loading, hsound.loaded⟩
  | callPacket i => exact held_callPacket hs hlisted hstep
  | tick => exact held_tick hs hlisted hconsiderate hstep

/-- What the invariant is for. -/
theorem Held.usesLive {action : Action ι} (hs : s.Held) (hstep : s.step action = some after) :
    s.UsesLive action := by
  cases action with
  | iocpTask w =>
    intro hpc
    apply hs.counting w
    rcases hpc with hpc | hpc
    all_goals
      rw [hpc]
      decide
  | callPacket i =>
    obtain ⟨t, session, header, body, ht, -, -, -, hcalled, -⟩ := callPacket_eq_some.mp hstep
    intro other hother x hx
    rw [ht] at hother
    rw [← Option.some.inj hother] at hx
    exact (hs.threads t (List.mem_of_getElem? ht)).loaded hcalled x hx
  | recv | complete | dequeue | loadPending | callAccept | loadSession | loadReadIoData
  | readHeader | readBody | tick => trivial

/-- **Session lifetime.** In a run in which sessions are deleted only when nobody holds a pointer to
them, and handlers load their session in time, no step increments the counter of a deleted session
or calls the packet handler with one. -/
theorem usesLive_of_considerate {history : List (SessionManager ι × Action ι)}
    (hrun : (system ι).Run history s) (hconsiderate : System.Obeys Considerate history) :
    System.Obeys UsesLive history := by
  refine hrun.obeys_of_invariant Held ?_ ?_ ?_ hconsiderate
  · intro start hstart
    subst hstart
    exact held_initial
  · intro state action next hs hcondition hstep
    exact held_step hs hcondition hstep
  · intro state action next hs _ hstep
    exact hs.usesLive hstep

/-- A worker looks a session up for a data datagram, and two ticks delete the session. -/
def expired : List (Action (Fin 1)) :=
  handshake ⟨1, 1⟩ ++ [.iocpTask 0, .recv 0 0] ++ served ⟨1, 1⟩ [1, 0, 0, 0, 65] 1 ++
    List.replicate 12 .tick

/-- The worker then increments the counter of the deleted session. -/
theorem usesLive_fails :
    ¬ ∀ history s, (system (Fin 1)).Run history s → System.Obeys UsesLive history := by
  intro hclaim
  have hreplay : (System.replay step (initial (Fin 1)) expired).map
      (fun s ↦ decide ((s.step (.iocpTask 0)).isSome = true ∧
        (s.worker 0).pc = .incrementSession ∧ s.place (s.worker 0).session = .ended)) =
          some true := by decide +kernel
  obtain ⟨history, s, hrun, htest⟩ := System.exists_run_of_replay
    (fun s ↦ s = initial (Fin 1)) rfl hreplay
  obtain ⟨henabled, hpc, hended⟩ := of_decide_eq_true htest
  obtain ⟨after, hstep⟩ := Option.isSome_iff_exists.mp henabled
  have hobeys := hclaim _ after (hrun.next hstep)
  rw [System.obeys_cons] at hobeys
  exact hobeys.1 (Or.inr hpc) hended

instance [Fintype ι] (x : ℕ) : Decidable (s.Unheld x) :=
  inferInstanceAs (Decidable ((∀ _, _) ∧ ∀ t ∈ s.packetThreads, _))

instance [Fintype ι] (action : Action ι) : Decidable (s.Considerate action) :=
  match action with
  | .loadSession i _ => inferInstanceAs (Decidable (∀ t ∈ s.packetThreads[i]?, _))
  | .tick =>
    match h : s.tick with
    | .deleting _ x _ => decidable_of_iff (s.Unheld x) (by simp [Considerate, h])
    | .sleeping _ | .sweeping _ _ | .testing _ _ _ | .draining _ _ | .notifying _ _ _ =>
      isTrue (by simp [Considerate, h])
  | .recv _ _ | .complete _ _ _ _ | .dequeue _ _ | .iocpTask _ | .loadPending _ _ | .callAccept _
  | .loadReadIoData _ _ | .readHeader _ | .readBody _ | .callPacket _ => isTrue trivial

/-- A data datagram is delivered, and three ticks later the session is deleted. -/
def retired : List (Action (Fin 1)) :=
  handshake ⟨1, 1⟩ ++ [.iocpTask 0, .recv 0 0] ++ served ⟨1, 1⟩ [1, 0, 0, 0, 65] 3 ++
    [.loadSession 0 0, .loadReadIoData 0 0, .readHeader 0, .readBody 0, .callPacket 0,
      .iocpTask 0, .recv 0 0] ++ List.replicate 17 .tick

/-- The main theorem applied to a run that delivers a packet and deletes its session. -/
theorem usesLive_of_considerate_applies :
    ∃ history s, (system (Fin 1)).Run history s ∧ s.packetCalls ≠ [] ∧ s.place 0 = .ended ∧
      System.Obeys UsesLive history := by
  have hreplay : (System.replay
      (fun s action ↦ if s.Considerate action then s.step action else none)
      (initial (Fin 1)) retired).map
      (fun s ↦ decide (s.packetCalls ≠ [] ∧ s.place 0 = .ended)) = some true := by decide +kernel
  obtain ⟨history, s, hrun, htest⟩ := System.exists_run_of_replay
    (fun s ↦ s = initial (Fin 1)) rfl hreplay
  obtain ⟨hcalls, hended⟩ := of_decide_eq_true htest
  obtain ⟨hrun, hconsiderate⟩ := hrun.of_tested
  exact ⟨history, s, hrun, hcalls, hended, usesLive_of_considerate hrun hconsiderate⟩

end SessionManager

end ServerCore.UdpServer
