import Mathlib.Tactic.Common
import ServerCore.UdpServer.SessionManager

/-!
# The steps of the session manager, inverted

Every invariant of the session manager is about what one step can do. Here each action is taken apart
once: the result with all tests decided, under the tests that lead to it. The proofs that follow
split on these cases and never unfold `step`.
-/

namespace ServerCore.UdpServer

open Foundation

/-- The steps of the handler threads. -/
def Action.OfHandler {ι : Type} : Action ι → Prop
  | .loadPending _ _ | .callAccept _ | .loadSession _ _ | .loadReadIoData _ _ | .readHeader _
  | .readBody _ | .callPacket _ => True
  | .recv _ _ | .complete _ _ _ _ | .dequeue _ _ | .iocpTask _ | .tick => False

namespace SessionManager

variable {ι : Type} {s after : SessionManager ι}

/-! ## The handler threads -/

section Handlers

variable {i value : ℕ}

theorem loadPending_eq_some :
    s.loadPending i value = some after ↔ ∃ t, s.acceptThreads[i]? = some t ∧
      (t.pendingSession = none ∧ s.Captures t.scope Worker.pendingSession value) ∧
      s.setAccept i { t with pendingSession := some value } = after := by
  simp only [loadPending, Option.bind_eq_bind, Option.bind_eq_some_iff, Option.ite_none_right_eq_some,
    Option.some.injEq]

theorem callAccept_eq_some :
    s.callAccept i = some after ↔ ∃ t session, s.acceptThreads[i]? = some t ∧
      t.pendingSession = some session ∧ t.called = false ∧
      { s.setAccept i { t with called := true } with
        acceptCalls := AcceptCall.mk t.origin session :: s.acceptCalls } = after := by
  simp only [callAccept, Option.bind_eq_bind, Option.bind_eq_some_iff, Option.ite_none_left_eq_some,
    Option.some.injEq, Bool.not_eq_true, exists_and_left]

theorem loadSession_eq_some :
    s.loadSession i value = some after ↔ ∃ t, s.packetThreads[i]? = some t ∧
      (t.session = none ∧ s.Captures t.scope Worker.session value) ∧
      s.setPacket i { t with session := some value } = after := by
  simp only [loadSession, Option.bind_eq_bind, Option.bind_eq_some_iff, Option.ite_none_right_eq_some,
    Option.some.injEq]

theorem loadReadIoData_eq_some :
    s.loadReadIoData i value = some after ↔ ∃ t, s.packetThreads[i]? = some t ∧
      (t.readIoData = none ∧ s.Captures t.scope Worker.readIoData value) ∧
      s.setPacket i { t with readIoData := some value } = after := by
  simp only [loadReadIoData, Option.bind_eq_bind, Option.bind_eq_some_iff, Option.ite_none_right_eq_some,
    Option.some.injEq]

theorem readHeader_eq_some :
    s.readHeader i = some after ↔ ∃ t chunk, s.packetThreads[i]? = some t ∧
      t.readIoData = some chunk ∧ t.header = none ∧
      s.setPacket i { t with
        header := some (word ((s.buffer chunk).read 0 2), word ((s.buffer chunk).read 2 2)) } =
          after := by
  simp only [readHeader, Option.bind_eq_bind, Option.bind_eq_some_iff, Option.ite_none_right_eq_some,
    Option.some.injEq, exists_and_left]

theorem readBody_eq_some :
    s.readBody i = some after ↔ ∃ t chunk header, s.packetThreads[i]? = some t ∧
      t.readIoData = some chunk ∧ t.header = some header ∧
      (t.body = none ∧ 0 ≤ header.1.toInt ∧ 4 + header.1.toNat ≤ socketBufSize) ∧
      s.setPacket i { t with body := some ((s.buffer chunk).read 4 header.1.toNat) } = after := by
  simp only [readBody, Option.bind_eq_bind, Option.bind_eq_some_iff, Option.ite_none_right_eq_some,
    Option.some.injEq, exists_and_left]

theorem callPacket_eq_some :
    s.callPacket i = some after ↔ ∃ t session header body, s.packetThreads[i]? = some t ∧
      t.session = some session ∧ t.header = some header ∧ t.body = some body ∧ t.called = false ∧
      { s.setPacket i { t with called := true } with
        packetCalls := PacketCall.mk t.origin session ⟨header.1, header.2, body⟩ ::
          s.packetCalls } = after := by
  simp only [callPacket, Option.bind_eq_bind, Option.bind_eq_some_iff, Option.ite_none_left_eq_some,
    Option.some.injEq, Bool.not_eq_true, exists_and_left]

end Handlers

/-- Handler threads change themselves and what they called, and nothing else. -/
theorem handler_frame [DecidableEq ι] {action : Action ι} (hstep : s.step action = some after)
    (haction : action.OfHandler) :
    ∃ acceptThreads packetThreads acceptCalls packetCalls, after = { s with
      acceptThreads := acceptThreads
      packetThreads := packetThreads
      acceptCalls := acceptCalls
      packetCalls := packetCalls } := by
  cases action with
  | recv | complete | dequeue | iocpTask | tick => exact haction.elim
  | loadPending i value =>
    obtain ⟨t, -, -, rfl⟩ := loadPending_eq_some.mp hstep
    exact ⟨_, _, _, _, rfl⟩
  | callAccept i =>
    obtain ⟨t, session, -, -, -, rfl⟩ := callAccept_eq_some.mp hstep
    exact ⟨_, _, _, _, rfl⟩
  | loadSession i value =>
    obtain ⟨t, -, -, rfl⟩ := loadSession_eq_some.mp hstep
    exact ⟨_, _, _, _, rfl⟩
  | loadReadIoData i value =>
    obtain ⟨t, -, -, rfl⟩ := loadReadIoData_eq_some.mp hstep
    exact ⟨_, _, _, _, rfl⟩
  | readHeader i =>
    obtain ⟨t, chunk, -, -, -, rfl⟩ := readHeader_eq_some.mp hstep
    exact ⟨_, _, _, _, rfl⟩
  | readBody i =>
    obtain ⟨t, chunk, header, -, -, -, -, rfl⟩ := readBody_eq_some.mp hstep
    exact ⟨_, _, _, _, rfl⟩
  | callPacket i =>
    obtain ⟨t, session, header, body, -, -, -, -, -, rfl⟩ := callPacket_eq_some.mp hstep
    exact ⟨_, _, _, _, rfl⟩

/-! ## The workers -/

section Workers

variable [DecidableEq ι] {w : ι} {chunk : ℕ}

theorem recv_eq_some :
    s.recv w chunk = some after ↔
      (((s.worker w).pc = .starting ∨ (s.worker w).pc = .recv) ∧ chunk ∉ s.live) ∧
      { s with
        live := chunk :: s.live
        posted := chunk :: s.posted
        remoteEndpoint := Function.update s.remoteEndpoint chunk ⟨0, 0⟩ }.goto w .waiting =
          after := by
  simp only [recv, Option.ite_none_right_eq_some, Option.some.injEq]

omit [DecidableEq ι] in
theorem complete_eq_some {succ : Bool} {endpoint : Endpoint} {datagram : List UInt8} :
    s.complete chunk succ endpoint datagram = some after ↔
      (chunk ∈ s.posted ∧ datagram.length ≤ socketBufSize) ∧
      { s with
        posted := s.posted.erase chunk
        completed := ⟨chunk, succ, datagram⟩ :: s.completed
        buffer := Function.update s.buffer chunk ((s.buffer chunk).write 0 datagram)
        remoteEndpoint := Function.update s.remoteEndpoint chunk endpoint } = after := by
  simp only [complete, Option.ite_none_right_eq_some, Option.some.injEq]

/-- A completion is dropped or taken. -/
theorem dequeue_cases {c : Completion} (hstep : s.dequeue w c = some after) :
    (s.worker w).pc = .waiting ∧ c ∈ s.completed ∧
      ((¬ (c.succ = true ∧ 4 ≤ c.datagram.length) ∧
          after = { s with completed := s.completed.erase c }) ∨
        ((c.succ = true ∧ 4 ≤ c.datagram.length) ∧
          after = { s with completed := s.completed.erase c }.setWorker w { s.worker w with
            pc := (branch (word ((s.buffer c.chunk).read 0 2))
              (word ((s.buffer c.chunk).read 2 2)) c.datagram.length).pc
            readIoData := c.chunk
            datagram := c.datagram })) := by
  simp only [dequeue, Option.ite_none_right_eq_some] at hstep
  obtain ⟨⟨hpc, hmem⟩, hstep⟩ := hstep
  refine ⟨hpc, hmem, ?_⟩
  by_cases hsucc : c.succ = true
  · by_cases hlength : c.datagram.length < 4
    · simp only [hsucc, Bool.not_true, Bool.false_eq_true, if_false, if_pos hlength,
        Option.some.injEq] at hstep
      exact Or.inl ⟨fun h ↦ absurd h.2 (by omega), hstep.symm⟩
    · simp only [hsucc, Bool.not_true, Bool.false_eq_true, if_false, if_neg hlength,
        Option.some.injEq] at hstep
      exact Or.inr ⟨⟨hsucc, by omega⟩, hstep.symm⟩
  · simp only [hsucc, Bool.not_false, if_true, Option.some.injEq] at hstep
    exact Or.inl ⟨fun h ↦ hsucc h.1, hstep.symm⟩

/-- All that a step of `iocp_task` can do behind the choice of the branch. -/
inductive IocpStep (s : SessionManager ι) (w : ι) : SessionManager ι → Prop
  | construct (hpc : (s.worker w).pc = .construct) : IocpStep s w (s.construct w)
  | refusePending (hpc : (s.worker w).pc = .insertPending)
      (hfind : (s.pendingSessions.find
        (s.session (s.worker w).newSession).endpoint).isSome = true) :
      IocpStep s w (s.goto w .reply)
  | insertPending (hpc : (s.worker w).pc = .insertPending)
      (hfind : ¬ (s.pendingSessions.find
        (s.session (s.worker w).newSession).endpoint).isSome = true) :
      IocpStep s w (({ s with
        pendingSessions := s.pendingSessions.insert
          (s.session (s.worker w).newSession).endpoint (s.worker w).newSession }.setPlace
            (s.worker w).newSession .pending).goto w .reply)
  | reply (hpc : (s.worker w).pc = .reply) : IocpStep s w (s.reply w)
  | missPending (hpc : (s.worker w).pc = .findPending)
      (hfind : s.pendingSessions.find (s.remoteEndpoint (s.worker w).readIoData) = none) :
      IocpStep s w (s.goto w .waiting)
  | findPending {session : ℕ} (hpc : (s.worker w).pc = .findPending)
      (hfind : s.pendingSessions.find (s.remoteEndpoint (s.worker w).readIoData) =
        some session) :
      IocpStep s w (s.setWorker w
        { s.worker w with pendingSession := session, pc := .erasePending })
  | erasePending (hpc : (s.worker w).pc = .erasePending)
      (hmem : (s.worker w).pendingSession ∈ s.pendingSessions.values) :
      IocpStep s w (({ s with
        pendingSessions := s.pendingSessions.erase (s.worker w).pendingSession }.setPlace
          (s.worker w).pendingSession (.accepting w)).goto w .insertSession)
  | refuseSession (hpc : (s.worker w).pc = .insertSession) (hlocked : s.tick.locked = false)
      (hfind : (s.sessions.find
        (s.session (s.worker w).pendingSession).endpoint).isSome = true) :
      IocpStep s w ((s.setPlace (s.worker w).pendingSession .unlisted).goto w .startAccept)
  | insertSession (hpc : (s.worker w).pc = .insertSession) (hlocked : s.tick.locked = false)
      (hfind : ¬ (s.sessions.find
        (s.session (s.worker w).pendingSession).endpoint).isSome = true) :
      IocpStep s w (({ s with
        sessions := s.sessions.insert
          (s.session (s.worker w).pendingSession).endpoint (s.worker w).pendingSession }.setPlace
            (s.worker w).pendingSession .established).goto w .startAccept)
  | startAccept (hpc : (s.worker w).pc = .startAccept) : IocpStep s w (s.startAccept w)
  | missSession (hpc : (s.worker w).pc = .findHeartbeat ∨ (s.worker w).pc = .findSession)
      (hfind : s.sessions.find (s.remoteEndpoint (s.worker w).readIoData) = none) :
      IocpStep s w (s.goto w .waiting)
  | findHeartbeat {session : ℕ} (hpc : (s.worker w).pc = .findHeartbeat)
      (hfind : s.sessions.find (s.remoteEndpoint (s.worker w).readIoData) = some session) :
      IocpStep s w (s.setWorker w
        { s.worker w with session := session, pc := .incrementHeartbeat })
  | incrementHeartbeat (hpc : (s.worker w).pc = .incrementHeartbeat) :
      IocpStep s w (s.incrementHeartbeat w)
  | findSession {session : ℕ} (hpc : (s.worker w).pc = .findSession)
      (hfind : s.sessions.find (s.remoteEndpoint (s.worker w).readIoData) = some session) :
      IocpStep s w (s.setWorker w
        { s.worker w with session := session, pc := .incrementSession })
  | deliver (hpc : (s.worker w).pc = .incrementSession)
      (halive : -2 < ((s.session (s.worker w).session).isAlive + 1).toInt) :
      IocpStep s w ((s.addAlive (s.worker w).session 1).goto w .startPacket)
  | discard (hpc : (s.worker w).pc = .incrementSession)
      (halive : ¬ -2 < ((s.session (s.worker w).session).isAlive + 1).toInt) :
      IocpStep s w ((s.addAlive (s.worker w).session 1).goto w .free)
  | startPacket (hpc : (s.worker w).pc = .startPacket) : IocpStep s w (s.startPacket w)
  | free (hpc : (s.worker w).pc = .free) : IocpStep s w (s.free w)

theorem iocpStep_findPending (hpc : (s.worker w).pc = .findPending) :
    s.IocpStep w (s.findPending w) := by
  rw [SessionManager.findPending]
  cases hfind : s.pendingSessions.find (s.remoteEndpoint (s.worker w).readIoData) with
  | none => exact .missPending hpc hfind
  | some session => exact .findPending hpc hfind

theorem iocpStep_insertPending (hpc : (s.worker w).pc = .insertPending) :
    s.IocpStep w (s.insertPending w) := by
  rw [SessionManager.insertPending]
  split
  case isTrue hfind => exact .refusePending hpc hfind
  case isFalse hfind => exact .insertPending hpc hfind

theorem iocpStep_incrementSession (hpc : (s.worker w).pc = .incrementSession) :
    s.IocpStep w (s.incrementSession w) := by
  rw [SessionManager.incrementSession]
  by_cases halive : -2 < ((s.session (s.worker w).session).isAlive + 1).toInt
  · rw [if_pos halive]
    exact .deliver hpc halive
  · rw [if_neg halive]
    exact .discard hpc halive

theorem iocpStep_insertSession (hpc : (s.worker w).pc = .insertSession)
    (hstep : s.insertSession w = some after) : s.IocpStep w after := by
  rw [insertSession, Option.ite_none_left_eq_some] at hstep
  obtain ⟨hlocked, hstep⟩ := hstep
  rw [Bool.not_eq_true] at hlocked
  split at hstep
  case isTrue hfind =>
    rw [← Option.some.inj hstep]
    exact .refuseSession hpc hlocked hfind
  case isFalse hfind =>
    rw [← Option.some.inj hstep]
    exact .insertSession hpc hlocked hfind

theorem iocpStep_of_iocpTask (hstep : s.iocpTask w = some after) : s.IocpStep w after := by
  unfold iocpTask at hstep
  cases hpc : (s.worker w).pc with
  | starting | waiting | recv =>
    simp only [hpc, reduceCtorEq] at hstep
  | erasePending =>
    simp only [hpc, erasePending, Option.ite_none_right_eq_some, Option.some.injEq] at hstep
    obtain ⟨hmem, rfl⟩ := hstep
    exact .erasePending hpc hmem
  | insertSession =>
    simp only [hpc] at hstep
    exact iocpStep_insertSession hpc hstep
  | findHeartbeat =>
    simp only [hpc, Option.some.injEq, findSession] at hstep
    split at hstep
    case h_1 hfind => exact hstep ▸ .missSession (Or.inl hpc) hfind
    case h_2 session hfind => exact hstep ▸ .findHeartbeat hpc hfind
  | findSession =>
    simp only [hpc, Option.some.injEq, findSession] at hstep
    split at hstep
    case h_1 hfind => exact hstep ▸ .missSession (Or.inr hpc) hfind
    case h_2 session hfind => exact hstep ▸ .findSession hpc hfind
  | construct | insertPending | reply | findPending | startAccept | incrementHeartbeat
  | incrementSession | startPacket | free =>
    simp only [hpc, Option.some.injEq] at hstep
    subst hstep
    first
      | exact .construct hpc
      | exact .reply hpc
      | exact .startAccept hpc
      | exact .incrementHeartbeat hpc
      | exact .startPacket hpc
      | exact .free hpc
      | exact iocpStep_insertPending hpc
      | exact iocpStep_findPending hpc
      | exact iocpStep_incrementSession hpc

end Workers

/-! ## The heartbeat thread -/

/-- All that a step of the heartbeat thread can do. -/
inductive TickStep (s : SessionManager ι) : SessionManager ι → Prop
  | wake {disconnected : List ℕ} (htick : s.tick = .sleeping disconnected) :
      TickStep s { s with tick := .sweeping s.sessions.values disconnected }
  | swept {disconnected : List ℕ} (htick : s.tick = .sweeping [] disconnected) :
      TickStep s { s with tick := .draining [] disconnected }
  | decrement {x : ℕ} {remaining disconnected : List ℕ}
      (htick : s.tick = .sweeping (x :: remaining) disconnected) :
      TickStep s { s.addAlive x (-1) with tick := .testing x remaining disconnected }
  | disconnect {x : ℕ} {remaining disconnected : List ℕ}
      (htick : s.tick = .testing x remaining disconnected) (hmem : x ∈ s.sessions.values)
      (halive : (s.session x).isAlive.toInt < -1) :
      TickStep s { s.setPlace x .disconnected with
        sessions := s.sessions.erase x
        tick := .sweeping remaining (disconnected ++ [x]) }
  | retain {x : ℕ} {remaining disconnected : List ℕ}
      (htick : s.tick = .testing x remaining disconnected) (hmem : x ∈ s.sessions.values)
      (halive : ¬ (s.session x).isAlive.toInt < -1) :
      TickStep s { s with tick := .sweeping remaining disconnected }
  | drained {kept : List ℕ} (htick : s.tick = .draining kept []) :
      TickStep s { s with tick := .sleeping kept }
  | expire {x : ℕ} {kept remaining : List ℕ} (htick : s.tick = .draining kept (x :: remaining))
      (halive : ((s.session x).isAlive + (-1)).toInt = -3) :
      TickStep s { s.addAlive x (-1) with tick := .notifying kept x remaining }
  | keep {x : ℕ} {kept remaining : List ℕ} (htick : s.tick = .draining kept (x :: remaining))
      (halive : ((s.session x).isAlive + (-1)).toInt ≠ -3) :
      TickStep s { s.addAlive x (-1) with tick := .draining (kept ++ [x]) remaining }
  | notify {x : ℕ} {kept remaining : List ℕ} (htick : s.tick = .notifying kept x remaining) :
      TickStep s { s with
        disconnectCalls := x :: s.disconnectCalls
        tick := .deleting kept x remaining }
  | delete {x : ℕ} {kept remaining : List ℕ} (htick : s.tick = .deleting kept x remaining) :
      TickStep s { s.setPlace x .ended with tick := .draining kept remaining }

theorem tickStep_of_runTick (hstep : s.runTick = some after) : s.TickStep after := by
  unfold runTick at hstep
  split at hstep
  case h_1 disconnected htick =>
    rw [← Option.some.inj hstep]
    exact .wake htick
  case h_2 disconnected htick =>
    rw [← Option.some.inj hstep]
    exact .swept htick
  case h_3 x remaining disconnected htick =>
    rw [← Option.some.inj hstep]
    exact .decrement htick
  case h_4 x remaining disconnected htick =>
    rw [ite_not, Option.ite_none_right_eq_some] at hstep
    obtain ⟨hmem, hstep⟩ := hstep
    split at hstep
    case isTrue halive =>
      rw [← Option.some.inj hstep]
      exact .disconnect htick hmem halive
    case isFalse halive =>
      rw [← Option.some.inj hstep]
      exact .retain htick hmem halive
  case h_5 kept htick =>
    rw [← Option.some.inj hstep]
    exact .drained htick
  case h_6 kept x remaining htick =>
    have hafter := Option.some.inj hstep
    by_cases halive : ((s.session x).isAlive + (-1)).toInt = -3
    · rw [if_pos halive] at hafter
      rw [← hafter]
      exact .expire htick halive
    · rw [if_neg halive] at hafter
      rw [← hafter]
      exact .keep htick halive
  case h_7 kept x remaining htick =>
    rw [← Option.some.inj hstep]
    exact .notify htick
  case h_8 kept x remaining htick =>
    rw [← Option.some.inj hstep]
    exact .delete htick

/-- The heartbeat thread changes the sessions and the map of those established, and calls
`dhandler_`. It touches no worker, no buffer and no other thread. -/
theorem tick_frame (hstep : s.runTick = some after) :
    ∃ session sessions tick disconnectCalls, after = { s with
      session := session
      sessions := sessions
      tick := tick
      disconnectCalls := disconnectCalls } := by
  cases tickStep_of_runTick hstep with
  | wake | swept | decrement | disconnect | retain | drained | expire | keep | notify | delete =>
    exact ⟨_, _, _, _, rfl⟩

end SessionManager

end ServerCore.UdpServer
