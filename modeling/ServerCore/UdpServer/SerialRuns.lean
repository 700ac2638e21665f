import Mathlib.Data.Fintype.Basic
import ServerCore.UdpServer.ClientIsolation
import ServerCore.UdpServer.Delivery
import ServerCore.UdpServer.HandlerThreads
import ServerCore.UdpServer.SessionLedger

/-!
# Runs whose iterations do not overlap

The session table treats a datagram or a tick as one step. In the session manager an iteration of
`iocp_task` and a tick are many steps, which may interleave, and then the table does not describe them.
A run is serial if a worker dequeues, and the heartbeat thread wakes up, only when no worker has a
datagram in hand and no tick is going on. Receives, completions and the handler threads still run as
they please. The main theorem says that a serial run does what the table does with the datagrams and
ticks in their order. So what the table says of one client holds of the threads: two serial runs with the
same datagrams of a client and the same ticks do the same for it.
-/

namespace ServerCore.UdpServer

open Foundation

/-! ## On the way to a table -/

/-- What is left to do for a worker, on the table shown: `endpoint` is where its datagram came from. -/
def Worker.rest (locals : Worker) (l : Ledger) (endpoint : Endpoint) (t : SessionTable) :
    SessionTable :=
  match locals.pc with
  | .construct => t.syn endpoint locals.datagram
  | .insertPending =>
    { t with
      pendingSessions := t.pendingSessions.insert endpoint (l.sessionId locals.newSession)
      events := .reply endpoint ⟨2, -2, (locals.datagram.drop 4).take 2⟩ :: t.events }
  | .reply =>
    { t with events := .reply endpoint ⟨2, -2, (locals.datagram.drop 4).take 2⟩ :: t.events }
  | .findPending | .erasePending => t.ack endpoint
  | .insertSession =>
    let sessions := t.sessions.insert endpoint (l.sessionId locals.pendingSession)
    { t with
      sessions := sessions
      events := .accept (l.sessionId locals.pendingSession) (sessions.find endpoint) :: t.events }
  | .startAccept =>
    { t with
      events := .accept (l.sessionId locals.pendingSession) (t.sessions.find endpoint) :: t.events }
  | .findHeartbeat => t.heartbeat endpoint
  | .incrementHeartbeat => t.addAlive (l.sessionId locals.session) 1
  | .findSession => t.data endpoint locals.datagram
  | .incrementSession =>
    if -2 < (t.isAlive (l.sessionId locals.session) + 1).toInt then
      { t.addAlive (l.sessionId locals.session) 1 with
        events := .packet (l.sessionId locals.session) (Packet.ofDatagram locals.datagram) ::
          t.events }
    else t.addAlive (l.sessionId locals.session) 1
  | .startPacket =>
    { t with
      events := .packet (l.sessionId locals.session) (Packet.ofDatagram locals.datagram) ::
        t.events }
  | .free | .starting | .waiting | .recv => t

/-- What a worker knows of its locals. -/
def Worker.Placed (locals : Worker) (l : Ledger) (endpoint : Endpoint) : Prop :=
  match locals.pc with
  | .construct => locals.datagram.length = 6
  | .insertPending => locals.datagram.length = 6 ∧ locals.newSession < l.numSessions ∧
      l.endpoint locals.newSession = endpoint
  | .reply => locals.datagram.length = 6 ∧ l.endpoint locals.newSession = endpoint
  | .erasePending => l.pendingSessions.find endpoint = some locals.pendingSession
  | .insertSession => locals.pendingSession < l.numSessions ∧
      l.endpoint locals.pendingSession = endpoint
  | .startAccept => locals.pendingSession < l.numSessions
  | .incrementHeartbeat | .incrementSession | .startPacket => locals.session < l.numSessions
  | .findPending | .findHeartbeat | .findSession | .free | .starting | .waiting | .recv => True

/-- At the beginning of a branch all of it is left to do. -/
theorem Worker.rest_of_pc {locals : Worker} {b : Branch} (hpc : locals.pc = b.pc) (l : Ledger)
    (endpoint : Endpoint) (t : SessionTable) :
    locals.rest l endpoint t = t.serve endpoint locals.datagram b := by
  cases b with
  | syn | ack | heartbeat | data | other => simp only [Worker.rest, hpc, Branch.pc, SessionTable.serve]

theorem Worker.placed_of_pc {locals : Worker} {b : Branch} {l : Ledger} {endpoint : Endpoint}
    (hpc : locals.pc = b.pc) (hsyn : b = .syn → locals.datagram.length = 6) :
    locals.Placed l endpoint := by
  cases b with
  | syn =>
    simp only [Worker.Placed, hpc, Branch.pc]
    exact hsyn rfl
  | ack | heartbeat | data | other => simp only [Worker.Placed, hpc, Branch.pc]

namespace Tick

def asleep : Tick → Bool
  | .sleeping _ => true
  | .sweeping _ _ | .testing _ _ _ | .draining _ _ | .notifying _ _ _ | .deleting _ _ _ => false

/-- The vector as far as the tick has filled it. -/
def kept : Tick → List ℕ
  | .sleeping disconnected | .sweeping _ disconnected | .testing _ _ disconnected => disconnected
  | .draining kept _ | .notifying kept _ _ | .deleting kept _ _ => kept

/-- What is left to do for a tick, on the table shown. -/
def rest (tick : Tick) (l : Ledger) (t : SessionTable) : SessionTable :=
  match tick with
  | .sleeping _ => t
  | .sweeping remaining _ => ((remaining.map l.node).foldl SessionTable.sweepSession t).drain
  | .testing x remaining _ =>
    ((remaining.map l.node).foldl SessionTable.sweepSession (t.test (l.node x))).drain
  | .draining _ remaining => (remaining.map l.sessionId).foldl SessionTable.drainSession t
  | .notifying _ x remaining =>
    (remaining.map l.sessionId).foldl SessionTable.drainSession { t with
      events := .disconnect (l.sessionId x) :: t.events
      deleted := l.sessionId x :: t.deleted }
  | .deleting _ _ remaining => (remaining.map l.sessionId).foldl SessionTable.drainSession t

/-- What is left to visit is there. -/
def Placed (tick : Tick) (l : Ledger) : Prop :=
  match tick with
  | .sleeping _ => True
  | .sweeping remaining _ => remaining.Nodup ∧ ∀ x ∈ remaining, x ∈ l.sessions.values
  | .testing x remaining _ =>
    (x :: remaining).Nodup ∧ ∀ y ∈ x :: remaining, y ∈ l.sessions.values
  | .draining _ remaining | .deleting _ _ remaining => ∀ x ∈ remaining, x < l.numSessions
  | .notifying _ x remaining => ∀ y ∈ x :: remaining, y < l.numSessions

end Tick

namespace SessionManager

variable {ι : Type} {s after : SessionManager ι} {t : SessionTable}

def ledger (s : SessionManager ι) : Ledger where
  endpoint x := (s.session x).endpoint
  isAlive x := (s.session x).isAlive
  numSessions := s.numSessions
  pendingSessions := s.pendingSessions
  sessions := s.sessions
  replies := s.replies
  accepts := s.acceptThreads.map AcceptThread.origin
  packets := s.packetThreads.map PacketThread.origin
  disconnects := s.disconnectCalls

/-- No worker has a datagram in hand. -/
def Idle (s : SessionManager ι) : Prop :=
  ∀ w, ¬ (s.worker w).pc.Holds

/-- The step does not begin an iteration while another one, or a tick, is going on. -/
def Serial (s : SessionManager ι) : Action ι → Prop
  | .dequeue _ _ => s.Idle ∧ s.tick.asleep = true
  | .tick => s.Idle
  | _ => True

/-- What the step begins. -/
def begun (s : SessionManager ι) : Action ι → List TableAction
  | .dequeue _ c => if c.succ = true then [.receive (s.remoteEndpoint c.chunk) c.datagram] else []
  | .tick => if s.tick.asleep = true then [.tick] else []
  | _ => []

/-- The datagrams and ticks of a run, in their order. -/
def tableActions (history : List (SessionManager ι × Action ι)) : List TableAction :=
  history.reverse.flatMap fun entry ↦ entry.1.begun entry.2

/-- Where the datagram in the hands of a worker came from. -/
def source (s : SessionManager ι) (w : ι) : Endpoint :=
  s.remoteEndpoint (s.worker w).readIoData

/-- The session manager is on its way to the table: a tick may be going on, or one iteration. -/
inductive Follows (s : SessionManager ι) (t : SessionTable) : Prop
  | ticking {shown : SessionTable} (hidle : s.Idle) (hshows : s.ledger.Shows s.tick.kept shown)
      (hplaced : s.tick.Placed s.ledger) (halike : t.Alike (s.tick.rest s.ledger shown))
  | serving {shown : SessionTable} {w : ι} (hholds : (s.worker w).pc.Holds)
      (hother : ∀ v, v ≠ w → ¬ (s.worker v).pc.Holds) (hasleep : s.tick.asleep = true)
      (hshows : s.ledger.Shows s.tick.kept shown)
      (hplaced : (s.worker w).Placed s.ledger (s.source w))
      (hrest : t = (s.worker w).rest s.ledger (s.source w) shown)

/-- Steps that touch neither the sessions nor the worker with a datagram. -/
theorem Follows.of_frame (hs : s.Follows t) (hledger : after.ledger = s.ledger)
    (htick : after.tick = s.tick) (hidle : ∀ w, ¬ (s.worker w).pc.Holds → ¬ (after.worker w).pc.Holds)
    (hworker : ∀ w, (s.worker w).pc.Holds →
      after.worker w = s.worker w ∧ after.source w = s.source w) : after.Follows t := by
  cases hs with
  | ticking hquiet hshows hplaced halike =>
    rw [← hledger, ← htick] at hshows hplaced halike
    exact .ticking (fun w ↦ hidle w (hquiet w)) hshows hplaced halike
  | @serving shown w hholds hother hasleep hshows hplaced hrest =>
    obtain ⟨hsame, hsource⟩ := hworker w hholds
    rw [← hledger, ← hsource, ← hsame] at hplaced hrest
    rw [← hledger, ← htick] at hshows
    exact .serving (by rwa [hsame]) (fun v hv ↦ hidle v (hother v hv)) (by rwa [htick]) hshows
      hplaced hrest

/-- When nothing is going on the table is shown. -/
theorem Follows.shows (hs : s.Follows t) (hidle : s.Idle) (hasleep : s.tick.asleep = true) :
    s.ledger.Shows s.tick.kept t := by
  cases hs with
  | @ticking shown _ hshows _ halike =>
    cases htick : s.tick with
    | sleeping disconnected =>
      rw [htick] at hshows halike
      exact hshows.of_alike halike
    | sweeping | testing | draining | notifying | deleting =>
      rw [htick] at hasleep
      cases hasleep
  | serving hholds => exact absurd hholds (hidle _)

variable [DecidableEq ι]

omit [DecidableEq ι] in
@[simp]
theorem ledger_setPlace (x : ℕ) (p : Place ι) : (s.setPlace x p).ledger = s.ledger := by
  have hendpoint (y : ℕ) : ((s.setPlace x p).session y).endpoint = (s.session y).endpoint := by
    by_cases hy : y = x
    · simp [setPlace, hy]
    · simp [setPlace, hy]
  have halive (y : ℕ) : ((s.setPlace x p).session y).isAlive = (s.session y).isAlive := by
    by_cases hy : y = x
    · simp [setPlace, hy]
    · simp [setPlace, hy]
  unfold ledger
  simp only [hendpoint, halive]
  rfl

omit [DecidableEq ι] in
theorem ledger_addAlive (x : ℕ) (change : BitVec 16) : (s.addAlive x change).ledger =
    { s.ledger with
      isAlive := Function.update s.ledger.isAlive x (s.ledger.isAlive x + change) } := by
  have hendpoint (y : ℕ) : ((s.addAlive x change).session y).endpoint = (s.session y).endpoint := by
    by_cases hy : y = x
    · simp [addAlive, hy]
    · simp [addAlive, hy]
  have halive : (fun y ↦ ((s.addAlive x change).session y).isAlive) =
      Function.update s.ledger.isAlive x (s.ledger.isAlive x + change) := by
    funext y
    by_cases hy : y = x
    · simp [addAlive, ledger, hy]
    · simp [addAlive, ledger, hy]
  unfold ledger at halive ⊢
  simp only [hendpoint, halive]
  rfl

/-! ## An iteration -/

section Iteration

variable {w : ι} {shown next : SessionTable} {locals : Worker}

/-- A worker has a datagram in hand. -/
theorem follows_of_held (hother : ∀ v, v ≠ w → ¬ (s.worker v).pc.Holds)
    (hasleep : s.tick.asleep = true) (hworker : after.worker = Function.update s.worker w locals)
    (hremote : after.remoteEndpoint = s.remoteEndpoint) (htick : after.tick = s.tick)
    (hholds : locals.pc.Holds) (hshows : after.ledger.Shows s.tick.kept next)
    (hplaced : locals.Placed after.ledger (s.remoteEndpoint locals.readIoData))
    (hrest : t = locals.rest after.ledger (s.remoteEndpoint locals.readIoData) next) :
    after.Follows t := by
  have hself : after.worker w = locals := by rw [hworker, Function.update_self]
  have hsource : after.source w = s.remoteEndpoint locals.readIoData := by
    unfold source
    rw [hself, hremote]
  have hshown : after.ledger.Shows after.tick.kept next := by rwa [htick]
  refine .serving (by rwa [hself]) (fun v hv ↦ ?_) (by rwa [htick]) hshown (by rwa [hself, hsource])
    (by rwa [hself, hsource])
  rw [hworker, Function.update_of_ne hv]
  exact hother v hv

/-- The worker goes on with its datagram in hand. -/
theorem follows_of_moved (hother : ∀ v, v ≠ w → ¬ (s.worker v).pc.Holds)
    (hasleep : s.tick.asleep = true) (hworker : after.worker = Function.update s.worker w locals)
    (hread : locals.readIoData = (s.worker w).readIoData)
    (hremote : after.remoteEndpoint = s.remoteEndpoint) (htick : after.tick = s.tick)
    (hholds : locals.pc.Holds) (hshows : after.ledger.Shows s.tick.kept next)
    (hplaced : locals.Placed after.ledger (s.source w))
    (hrest : t = locals.rest after.ledger (s.source w) next) : after.Follows t := by
  have hsource : s.source w = s.remoteEndpoint locals.readIoData := by
    rw [hread]
    rfl
  rw [hsource] at hplaced hrest
  exact follows_of_held hother hasleep hworker hremote htick hholds hshows hplaced hrest

/-- The worker is through with its datagram. -/
theorem follows_of_done (hother : ∀ v, v ≠ w → ¬ (s.worker v).pc.Holds)
    (hasleep : s.tick.asleep = true) (hworker : after.worker = Function.update s.worker w locals)
    (htick : after.tick = s.tick) (hdone : ¬ locals.pc.Holds)
    (hshows : after.ledger.Shows s.tick.kept t) : after.Follows t := by
  cases hsleeping : s.tick with
  | sleeping disconnected =>
    rw [hsleeping] at htick hshows
    have hshown : after.ledger.Shows after.tick.kept t := by rwa [htick]
    refine .ticking (fun v ↦ ?_) hshown (by rw [htick]; trivial) (by rw [htick]; exact .refl t)
    rw [hworker]
    by_cases hv : v = w
    · rw [hv, Function.update_self]
      exact hdone
    · rw [Function.update_of_ne hv]
      exact hother v hv
  | sweeping | testing | draining | notifying | deleting =>
    rw [hsleeping] at hasleep
    cases hasleep

theorem ledger_construct (s : SessionManager ι) (w : ι) :
    (s.construct w).ledger = s.ledger.constructed (s.source w) := by
  have hsession (y : ℕ) : (s.construct w).session y =
      Function.update s.session s.numSessions ⟨s.source w, 0, .constructed w⟩ y :=
    rfl
  unfold ledger Ledger.constructed
  congr 1
  · funext y
    by_cases hy : y = s.numSessions
    · rw [hsession, hy, Function.update_self, Function.update_self]
    · rw [hsession, Function.update_of_ne hy, Function.update_of_ne hy]
  · funext y
    by_cases hy : y = s.numSessions
    · rw [hsession, hy, Function.update_self, Function.update_self]
    · rw [hsession, Function.update_of_ne hy, Function.update_of_ne hy]

theorem ledger_free (s : SessionManager ι) (w : ι) : (s.free w).ledger = s.ledger := by
  have haccepts : (s.free w).acceptThreads.map AcceptThread.origin =
      s.acceptThreads.map AcceptThread.origin := by
    change (s.acceptThreads.map _).map _ = _
    rw [List.map_map]
    exact List.map_congr_left fun thread _ ↦ (thread.goesOn_leave w).1
  have hpackets : (s.free w).packetThreads.map PacketThread.origin =
      s.packetThreads.map PacketThread.origin := by
    change (s.packetThreads.map _).map _ = _
    rw [List.map_map]
    exact List.map_congr_left fun thread _ ↦ (thread.goesOn_leave w).1
  unfold ledger
  rw [haccepts, hpackets]
  rfl

omit [DecidableEq ι] in
/-- The bytes that the reply repeats. -/
theorem read_reply {chunk : ℕ} {datagram : List UInt8} (h : s.Delivered chunk datagram)
    (hlength : datagram.length = 6) :
    (s.buffer chunk).read 4 2 = (datagram.drop 4).take 2 := by
  have hdrop := ByteMemory.drop_read (s.buffer chunk) 0 datagram.length 4
  rw [h.1, hlength] at hdrop
  rw [hdrop]
  exact (List.take_of_length_le (by simp)).symm

omit [DecidableEq ι] in
theorem ledger_setWorker [DecidableEq ι] (s : SessionManager ι) (w : ι) (locals : Worker) :
    (s.setWorker w locals).ledger = s.ledger :=
  rfl

theorem ledger_goto (s : SessionManager ι) (w : ι) (pc : Pc) : (s.goto w pc).ledger = s.ledger :=
  rfl

/-- The new session is filed, unless its endpoint is pending. -/
theorem follows_of_filed (hother : ∀ v, v ≠ w → ¬ (s.worker v).pc.Holds)
    (hasleep : s.tick.asleep = true) (hshows : s.ledger.Shows s.tick.kept shown)
    (hplaced : (s.worker w).Placed s.ledger (s.source w)) (hpc : (s.worker w).pc = .insertPending)
    (hworker : after.worker = Function.update s.worker w { s.worker w with pc := .reply })
    (hremote : after.remoteEndpoint = s.remoteEndpoint) (htick : after.tick = s.tick)
    (hledger : after.ledger = { s.ledger with
      pendingSessions := s.ledger.pendingSessions.insert
        (s.ledger.endpoint (s.worker w).newSession) (s.worker w).newSession }) :
    after.Follows ((s.worker w).rest s.ledger (s.source w) shown) := by
  simp only [Worker.Placed, hpc] at hplaced
  obtain ⟨hlength, hknown, hendpoint⟩ := hplaced
  refine follows_of_moved hother hasleep hworker rfl hremote htick (show Pc.reply.Holds by decide)
    (hledger ▸ hshows.insertPending hknown) ?_ ?_
  · rw [hledger]
    exact ⟨hlength, hendpoint⟩
  · simp only [Worker.rest, hpc, hendpoint]

/-- The session goes over to the other map, unless its endpoint is there. -/
theorem follows_of_listed (hother : ∀ v, v ≠ w → ¬ (s.worker v).pc.Holds)
    (hasleep : s.tick.asleep = true) (hshows : s.ledger.Shows s.tick.kept shown)
    (hplaced : (s.worker w).Placed s.ledger (s.source w)) (hpc : (s.worker w).pc = .insertSession)
    (hworker : after.worker = Function.update s.worker w { s.worker w with pc := .startAccept })
    (hremote : after.remoteEndpoint = s.remoteEndpoint) (htick : after.tick = s.tick)
    (hledger : after.ledger = { s.ledger with
      sessions := s.ledger.sessions.insert
        (s.ledger.endpoint (s.worker w).pendingSession) (s.worker w).pendingSession }) :
    after.Follows ((s.worker w).rest s.ledger (s.source w) shown) := by
  simp only [Worker.Placed, hpc] at hplaced
  obtain ⟨hknown, hendpoint⟩ := hplaced
  refine follows_of_moved hother hasleep hworker rfl hremote htick
    (show Pc.startAccept.Holds by decide) (hledger ▸ hshows.insertSession hknown) ?_ ?_
  · rw [hledger]
    exact hknown
  · rw [hledger]
    simp only [Worker.rest, hpc, hendpoint]
    rfl

/-- One step of an iteration, and what is left to do after it. -/
theorem follows_iocpStep (hother : ∀ v, v ≠ w → ¬ (s.worker v).pc.Holds)
    (hasleep : s.tick.asleep = true) (hshows : s.ledger.Shows s.tick.kept shown)
    (hplaced : (s.worker w).Placed s.ledger (s.source w))
    (hdelivered : s.Delivered (s.worker w).readIoData (s.worker w).datagram)
    (hstep : s.IocpStep w after) :
    after.Follows ((s.worker w).rest s.ledger (s.source w) shown) := by
  cases hstep with
  | construct hpc =>
    simp only [Worker.Placed, hpc] at hplaced
    have hnew := Ledger.sessionId_constructed_self (l := s.ledger) (s.source w)
    refine follows_of_moved hother hasleep rfl rfl rfl rfl (show Pc.insertPending.Holds by decide)
      ((ledger_construct s w) ▸ hshows.construct (s.source w)) ?_ ?_
    · rw [ledger_construct]
      exact ⟨hplaced, Nat.lt_succ_self _, Ledger.endpoint_constructed_self _⟩
    · simp only [Worker.rest, hpc]
      rw [ledger_construct, show s.numSessions = s.ledger.numSessions from rfl, hnew,
        ← hshows.created]
      rfl
  | refusePending hpc hfind =>
    have hsame : s.ledger.pendingSessions.insert (s.ledger.endpoint (s.worker w).newSession)
        (s.worker w).newSession = s.ledger.pendingSessions :=
      if_pos hfind
    refine follows_of_filed hother hasleep hshows hplaced hpc rfl rfl rfl ?_
    rw [ledger_goto, hsame]
  | insertPending hpc hfind =>
    refine follows_of_filed hother hasleep hshows hplaced hpc rfl rfl rfl ?_
    rw [ledger_goto, ledger_setPlace]
    rfl
  | reply hpc =>
    simp only [Worker.Placed, hpc] at hplaced
    obtain ⟨hlength, hendpoint⟩ := hplaced
    have hreply : (s.reply w).ledger = { s.ledger with
        replies := (s.source w, ⟨2, -2, ((s.worker w).datagram.drop 4).take 2⟩) ::
          s.ledger.replies } := by
      rw [← hendpoint, ← read_reply hdelivered hlength]
      rfl
    refine follows_of_moved hother hasleep rfl rfl rfl rfl (show Pc.free.Holds by decide)
      (hreply ▸ hshows.reply _ _) trivial ?_
    simp only [Worker.rest, hpc]
  | missPending hpc hfind =>
    have hnone : shown.pendingSessions.find (s.source w) = none := by
      rw [hshows.pendingSessions.find]
      exact Option.map_eq_none_iff.mpr hfind
    have hrest : (s.worker w).rest s.ledger (s.source w) shown = shown := by
      simp only [Worker.rest, hpc, SessionTable.ack, hnone]
    rw [hrest]
    exact follows_of_done hother hasleep rfl rfl (show ¬ Pc.waiting.Holds by decide) hshows
  | @findPending session hpc hfind =>
    refine follows_of_moved hother hasleep rfl rfl rfl rfl (show Pc.erasePending.Holds by decide)
      hshows hfind ?_
    simp only [Worker.rest, hpc]
  | erasePending hpc hmem =>
    simp only [Worker.Placed, hpc] at hplaced
    have hkey : s.ledger.endpoint (s.worker w).pendingSession = s.source w :=
      (hshows.pendingKeys _ (SessionMap.mem_of_find hplaced)).symm
    have hledger : ((({ s with
        pendingSessions := s.pendingSessions.erase (s.worker w).pendingSession }.setPlace
          (s.worker w).pendingSession (.accepting w)).goto w .insertSession)).ledger =
        { s.ledger with
          pendingSessions := s.ledger.pendingSessions.erase (s.worker w).pendingSession } := by
      rw [ledger_goto, ledger_setPlace]
      rfl
    refine follows_of_moved hother hasleep rfl rfl rfl rfl (show Pc.insertSession.Holds by decide)
      (hledger ▸ hshows.erasePending hmem) ?_ ?_
    · rw [hledger]
      exact ⟨hshows.known_pending hmem, hkey⟩
    · have hfound : shown.pendingSessions.find (s.source w) =
          some (s.ledger.sessionId (s.worker w).pendingSession) := by
        rw [hshows.pendingSessions.find, hplaced, Option.map_some]
      have hendpoint : (s.ledger.sessionId (s.worker w).pendingSession).endpoint = s.source w :=
        hkey
      rw [hledger]
      simp only [Worker.rest, hpc, SessionTable.ack, hfound, hendpoint, hkey]
      rfl
  | refuseSession hpc hlocked hfind =>
    have hsame : s.ledger.sessions.insert (s.ledger.endpoint (s.worker w).pendingSession)
        (s.worker w).pendingSession = s.ledger.sessions :=
      if_pos hfind
    refine follows_of_listed hother hasleep hshows hplaced hpc rfl rfl rfl ?_
    rw [ledger_goto, ledger_setPlace, hsame]
  | insertSession hpc hlocked hfind =>
    refine follows_of_listed hother hasleep hshows hplaced hpc rfl rfl rfl ?_
    rw [ledger_goto, ledger_setPlace]
    rfl
  | startAccept hpc =>
    simp only [Worker.Placed, hpc] at hplaced
    have hledger : (s.startAccept w).ledger = { s.ledger with
        accepts := s.ledger.accepts ++ [(s.worker w).pendingSession] } := by
      unfold startAccept
      rw [ledger_goto]
      simp [ledger]
    refine follows_of_moved hother hasleep rfl rfl rfl rfl (show Pc.free.Holds by decide)
      (hledger ▸ hshows.accept hplaced (shown.sessions.find (s.source w))) trivial ?_
    simp only [Worker.rest, hpc]
  | missSession hpc hfind =>
    have hnone : shown.sessions.find (s.source w) = none := by
      rw [hshows.sessions.find]
      exact Option.map_eq_none_iff.mpr hfind
    have hrest : (s.worker w).rest s.ledger (s.source w) shown = shown := by
      rcases hpc with hpc | hpc
      · simp only [Worker.rest, hpc, SessionTable.heartbeat, hnone]
      · simp only [Worker.rest, hpc, SessionTable.data, hnone]
    rw [hrest]
    exact follows_of_done hother hasleep rfl rfl (show ¬ Pc.waiting.Holds by decide) hshows
  | @findHeartbeat session hpc hfind =>
    have hfound : shown.sessions.find (s.source w) = some (s.ledger.sessionId session) := by
      rw [hshows.sessions.find]
      exact Option.map_eq_some_iff.mpr ⟨session, hfind, rfl⟩
    refine follows_of_moved hother hasleep rfl rfl rfl rfl
      (show Pc.incrementHeartbeat.Holds by decide) hshows
      (hshows.known_session (SessionMap.mem_values_of_find hfind)) ?_
    simp only [Worker.rest, hpc, SessionTable.heartbeat, hfound]
    rfl
  | incrementHeartbeat hpc =>
    simp only [Worker.Placed, hpc] at hplaced
    refine follows_of_moved hother hasleep rfl rfl rfl rfl (show Pc.free.Holds by decide)
      (ledger_addAlive (s := s) _ _ ▸ hshows.addAlive hplaced 1) trivial ?_
    simp only [Worker.rest, hpc]
  | @findSession session hpc hfind =>
    have hfound : shown.sessions.find (s.source w) = some (s.ledger.sessionId session) := by
      rw [hshows.sessions.find]
      exact Option.map_eq_some_iff.mpr ⟨session, hfind, rfl⟩
    refine follows_of_moved hother hasleep rfl rfl rfl rfl
      (show Pc.incrementSession.Holds by decide) hshows
      (hshows.known_session (SessionMap.mem_values_of_find hfind)) ?_
    simp only [Worker.rest, hpc, SessionTable.data, hfound]
    rfl
  | deliver hpc halive =>
    simp only [Worker.Placed, hpc] at hplaced
    have hshown : -2 < (shown.isAlive (s.ledger.sessionId (s.worker w).session) + 1).toInt := by
      rw [hshows.isAlive _ hplaced]
      exact halive
    refine follows_of_moved hother hasleep rfl rfl rfl rfl (show Pc.startPacket.Holds by decide)
      (ledger_addAlive (s := s) _ _ ▸ hshows.addAlive hplaced 1) ?_ ?_
    · rw [ledger_goto, ledger_addAlive]
      exact hplaced
    · simp only [Worker.rest, hpc]
      rw [if_pos hshown, ledger_goto, ledger_addAlive]
      rfl
  | discard hpc halive =>
    simp only [Worker.Placed, hpc] at hplaced
    have hshown : ¬ -2 < (shown.isAlive (s.ledger.sessionId (s.worker w).session) + 1).toInt := by
      rw [hshows.isAlive _ hplaced]
      exact halive
    refine follows_of_moved hother hasleep rfl rfl rfl rfl (show Pc.free.Holds by decide)
      (ledger_addAlive (s := s) _ _ ▸ hshows.addAlive hplaced 1) trivial ?_
    simp only [Worker.rest, hpc]
    rw [if_neg hshown]
  | startPacket hpc =>
    simp only [Worker.Placed, hpc] at hplaced
    have hledger : (s.startPacket w).ledger = { s.ledger with
        packets := s.ledger.packets ++ [⟨(s.worker w).session, (s.worker w).datagram⟩] } := by
      unfold startPacket
      rw [ledger_goto]
      simp [ledger]
    refine follows_of_moved hother hasleep rfl rfl rfl rfl (show Pc.free.Holds by decide)
      (hledger ▸ hshows.packet hplaced) trivial ?_
    simp only [Worker.rest, hpc]
  | free hpc =>
    have hrest : (s.worker w).rest s.ledger (s.source w) shown = shown := by
      simp only [Worker.rest, hpc]
    rw [hrest]
    exact follows_of_done hother hasleep rfl rfl (show ¬ Pc.recv.Holds by decide)
      ((ledger_free s w) ▸ hshows)

end Iteration

/-! ## A tick -/

section HeartbeatThread

variable {shown : SessionTable}

omit [DecidableEq ι] in
/-- The nodes of the table are those that the sweep is going to visit. -/
theorem perm_nodes (hshows : s.ledger.Shows s.tick.kept shown) :
    shown.sessions.nodes.Perm (s.sessions.values.map s.ledger.node) := by
  have hnodes : s.sessions.values.map s.ledger.node =
      s.ledger.sessions.map fun node ↦ (node.1, s.ledger.sessionId node.2) := by
    unfold SessionMap.values
    rw [List.map_map]
    exact List.map_congr_left fun node hnode ↦ Prod.ext (hshows.keys node hnode).symm rfl
  rw [hnodes]
  exact hshows.sessions

omit [DecidableEq ι] in
theorem nodup_values (hshows : s.ledger.Shows s.tick.kept shown) : s.sessions.values.Nodup := by
  apply List.Nodup.of_map s.ledger.endpoint
  have hkeys : s.sessions.values.map s.ledger.endpoint = s.ledger.sessions.map Prod.fst := by
    unfold SessionMap.values
    rw [List.map_map]
    exact List.map_congr_left fun node hnode ↦ (hshows.keys node hnode).symm
  rw [hkeys]
  exact hshows.sessions.nodup_keys

omit [DecidableEq ι] in
/-- The heartbeat thread wakes up. -/
theorem follows_wake {disconnected : List ℕ} (hidle : s.Idle) (htick : s.tick = .sleeping disconnected)
    (hshows : s.ledger.Shows s.tick.kept t) :
    ({ s with tick := .sweeping s.sessions.values disconnected } : SessionManager ι).Follows
      t.tick := by
  have hnodup := nodup_values hshows
  have hnames : ((s.sessions.values.map s.ledger.node).map Prod.snd).Nodup := by
    rw [List.map_map]
    exact hnodup.map fun _ _ ↦ Ledger.sessionId_inj
  have halike := SessionTable.alike_tick (perm_nodes hshows) hnames
  rw [htick] at hshows
  exact .ticking hidle hshows ⟨hnodup, fun _ ↦ id⟩ halike

omit [DecidableEq ι] in
/-- One step of a tick, and what is left to do after it. -/
theorem follows_tickStep (hidle : s.Idle) (hshows : s.ledger.Shows s.tick.kept shown)
    (hplaced : s.tick.Placed s.ledger) (halike : t.Alike (s.tick.rest s.ledger shown))
    (hawake : s.tick.asleep = false) (hstep : s.TickStep after) : after.Follows t := by
  cases hstep with
  | wake htick =>
    rw [htick] at hawake
    cases hawake
  | swept htick =>
    rw [htick] at hshows halike
    have hdrain := (SessionTable.Alike.refl { shown with disconnected := [] }).foldl_drainSession
      hshows.disconnected
    exact .ticking hidle hshows.empty (fun x hx ↦ hshows.known_vector hx) (halike.trans hdrain)
  | @decrement x remaining disconnected htick =>
    rw [htick] at hshows hplaced halike
    have hknown := hshows.known_session (hplaced.2 x List.mem_cons_self)
    have hledger : ({ s.addAlive x (-1) with
        tick := .testing x remaining disconnected } : SessionManager ι).ledger = _ :=
      ledger_addAlive x (-1)
    refine .ticking hidle (hledger ▸ hshows.addAlive hknown (-1)) ?_ ?_
    · rw [hledger]
      exact hplaced
    · rw [hledger]
      simp only [Tick.rest, List.map_cons, List.foldl_cons, SessionTable.sweepSession_eq] at halike
      exact halike
  | @disconnect x remaining disconnected htick hmem hexpires =>
    rw [htick] at hshows hplaced halike
    have hledger : ({ s.setPlace x .disconnected with
        sessions := s.sessions.erase x
        tick := .sweeping remaining (disconnected ++ [x]) } : SessionManager ι).ledger =
          { s.ledger with sessions := s.ledger.sessions.erase x } :=
      congrArg (fun l : Ledger ↦ { l with sessions := s.ledger.sessions.erase x })
        (ledger_setPlace x .disconnected)
    refine .ticking hidle (hledger ▸ hshows.disconnect hmem) ?_ ?_
    · rw [hledger]
      refine ⟨(List.nodup_cons.mp hplaced.1).2, fun y hy ↦ ?_⟩
      rw [SessionMap.mem_values_erase]
      refine ⟨?_, hplaced.2 y (List.mem_cons_of_mem _ hy)⟩
      rintro rfl
      exact (List.nodup_cons.mp hplaced.1).1 hy
    · have htest : (shown.isAlive (s.ledger.node x).2).toInt < -1 := by
        rw [Ledger.node, hshows.isAlive x (hshows.known_session hmem)]
        exact hexpires
      rw [hledger]
      simp only [Tick.rest, SessionTable.test, if_pos htest] at halike
      exact halike
  | @retain x remaining disconnected htick hmem hstays =>
    rw [htick] at hshows hplaced halike
    have htest : ¬ (shown.isAlive (s.ledger.node x).2).toInt < -1 := by
      rw [Ledger.node, hshows.isAlive x (hshows.known_session hmem)]
      exact hstays
    simp only [Tick.rest, SessionTable.test, if_neg htest] at halike
    exact .ticking hidle hshows
      ⟨(List.nodup_cons.mp hplaced.1).2, fun y hy ↦ hplaced.2 y (List.mem_cons_of_mem _ hy)⟩ halike
  | drained htick =>
    rw [htick] at hshows halike
    exact .ticking hidle hshows trivial halike
  | @expire x kept remaining htick hends =>
    rw [htick] at hshows hplaced halike
    have hknown := hplaced x List.mem_cons_self
    have hledger : ({ s.addAlive x (-1) with
        tick := .notifying kept x remaining } : SessionManager ι).ledger = _ :=
      ledger_addAlive x (-1)
    refine .ticking hidle (hledger ▸ hshows.addAlive hknown (-1)) ?_ ?_
    · rw [hledger]
      exact hplaced
    · have hsettle : ((shown.addAlive (s.ledger.sessionId x) (-1)).isAlive
          (s.ledger.sessionId x)).toInt = -3 := by
        rw [hshows.isAlive_addAlive hknown]
        exact hends
      rw [hledger]
      simp only [Tick.rest, List.map_cons, List.foldl_cons, SessionTable.drainSession_eq,
        SessionTable.settle, if_pos hsettle] at halike
      exact halike
  | @keep x kept remaining htick hstays =>
    rw [htick] at hshows hplaced halike
    have hknown := hplaced x List.mem_cons_self
    have hledger : ({ s.addAlive x (-1) with
        tick := .draining (kept ++ [x]) remaining } : SessionManager ι).ledger = _ :=
      ledger_addAlive x (-1)
    refine .ticking hidle (hledger ▸ (hshows.addAlive hknown (-1)).keep hknown) ?_ ?_
    · rw [hledger]
      exact fun y hy ↦ hplaced y (List.mem_cons_of_mem _ hy)
    · have hsettle : ¬ ((shown.addAlive (s.ledger.sessionId x) (-1)).isAlive
          (s.ledger.sessionId x)).toInt = -3 := by
        rw [hshows.isAlive_addAlive hknown]
        exact hstays
      rw [hledger]
      simp only [Tick.rest, List.map_cons, List.foldl_cons, SessionTable.drainSession_eq,
        SessionTable.settle, if_neg hsettle] at halike
      exact halike
  | @notify x kept remaining htick =>
    rw [htick] at hshows hplaced halike
    exact .ticking hidle (hshows.ended (hplaced x List.mem_cons_self))
      (fun y hy ↦ hplaced y (List.mem_cons_of_mem _ hy)) halike
  | @delete x kept remaining htick =>
    rw [htick] at hshows hplaced halike
    have hledger : ({ s.setPlace x .ended with
        tick := .draining kept remaining } : SessionManager ι).ledger = s.ledger :=
      ledger_setPlace x .ended
    refine .ticking hidle (hledger ▸ hshows) ?_ ?_
    · rw [hledger]
      exact hplaced
    · rw [hledger]
      exact halike

end HeartbeatThread

/-! ## Runs -/

theorem IocpStep.holds {w : ι} (hstep : s.IocpStep w after) : (s.worker w).pc.Holds := by
  cases hstep with
  | missSession hpc =>
    rcases hpc with hpc | hpc
    · rw [hpc]
      decide
    · rw [hpc]
      decide
  | construct hpc | refusePending hpc | insertPending hpc | reply hpc | missPending hpc
  | findPending hpc | erasePending hpc | refuseSession hpc | insertSession hpc | startAccept hpc
  | findHeartbeat hpc | incrementHeartbeat hpc | findSession hpc | deliver hpc | discard hpc
  | startPacket hpc | free hpc =>
    rw [hpc]
    decide

omit [DecidableEq ι] in
/-- The handler threads keep what they were started for. -/
theorem ledger_of_threads {acceptThreads : List (AcceptThread ι)}
    {packetThreads : List (PacketThread ι)} {acceptCalls : List AcceptCall}
    {packetCalls : List PacketCall}
    (haccepts : acceptThreads.map AcceptThread.origin = s.acceptThreads.map AcceptThread.origin)
    (hpackets : packetThreads.map PacketThread.origin = s.packetThreads.map PacketThread.origin) :
    ({ s with
      acceptThreads := acceptThreads
      packetThreads := packetThreads
      acceptCalls := acceptCalls
      packetCalls := packetCalls } : SessionManager ι).ledger = s.ledger := by
  unfold ledger
  rw [haccepts, hpackets]

theorem follows_handler {action : Action ι} (hs : s.Follows t)
    (hstep : s.step action = some after) (haction : action.OfHandler) : after.Follows t := by
  obtain ⟨haccepts, hpackets⟩ := threads_step hstep
  have hnone : s.newAccepts action = [] ∧ s.newPackets action = [] := by
    cases action with
    | recv | complete | dequeue | iocpTask | tick => exact haction.elim
    | _ => exact ⟨rfl, rfl⟩
  rw [hnone.1] at haccepts
  rw [hnone.2] at hpackets
  have hfirst := haccepts.map_eq (f := AcceptThread.origin) fun _ _ h ↦ h.1
  have hsecond := hpackets.map_eq (f := PacketThread.origin) fun _ _ h ↦ h.1
  obtain ⟨_, _, _, _, rfl⟩ := handler_frame hstep haction
  rw [List.map_nil, List.append_nil] at hfirst hsecond
  exact hs.of_frame (ledger_of_threads hfirst hsecond) rfl (fun _ ↦ id) fun _ _ ↦ ⟨rfl, rfl⟩

omit [DecidableEq ι] in
theorem begun_dequeue (s : SessionManager ι) (w : ι) (c : Completion) : s.begun (.dequeue w c) =
    if c.succ = true then [.receive (s.remoteEndpoint c.chunk) c.datagram] else [] :=
  rfl

omit [DecidableEq ι] in
theorem begun_tick (s : SessionManager ι) :
    s.begun .tick = if s.tick.asleep = true then [.tick] else [] :=
  rfl

/-- The next iteration begins. -/
theorem follows_dequeue {w : ι} {c : Completion} (hs : s.Follows t) (hbuffers : s.Buffers)
    (hidle : s.Idle) (hasleep : s.tick.asleep = true) (hstep : s.dequeue w c = some after) :
    after.Follows ((s.begun (.dequeue w c)).foldl SessionTable.step t) := by
  obtain ⟨hpc, hmem, ⟨hshort, rfl⟩ | ⟨⟨hsucc, hlength⟩, rfl⟩⟩ := dequeue_cases hstep
  · have hsame : (s.begun (.dequeue w c)).foldl SessionTable.step t = t := by
      rw [begun_dequeue]
      by_cases hsucc : c.succ = true
      · have hfew : c.datagram.length < 4 := by
          by_contra hlong
          exact hshort ⟨hsucc, by omega⟩
        rw [if_pos hsucc]
        change t.receive _ _ = t
        rw [SessionTable.receive, if_pos hfew, ite_self]
      · rw [if_neg hsucc]
        rfl
    rw [hsame]
    exact hs.of_frame rfl rfl (fun _ ↦ id) fun _ _ ↦ ⟨rfl, rfl⟩
  · have hshows := hs.shows hidle hasleep
    have hdelivered := hbuffers.completedBytes c hmem
    obtain ⟨hsize, htype⟩ := hdelivered.header hlength
    have hreceived : (s.begun (.dequeue w c)).foldl SessionTable.step t =
        t.serve (s.remoteEndpoint c.chunk) c.datagram (Branch.ofDatagram c.datagram) := by
      have hshort := hdelivered.2
      rw [begun_dequeue, if_pos hsucc]
      change t.receive _ _ = _
      rw [SessionTable.receive, if_neg (by omega), if_neg (by omega)]
    rw [hreceived, hsize, htype]
    refine follows_of_held (fun v _ ↦ hidle v) hasleep rfl rfl rfl (Branch.holds_pc _) hshows
      (Worker.placed_of_pc rfl fun hsyn ↦ (branch_eq_syn_iff.mp hsyn).1) ?_
    symm
    exact Worker.rest_of_pc (b := Branch.ofDatagram c.datagram) rfl _ _ _

theorem follows_step {action : Action ι} (hs : s.Follows t) (hbuffers : s.Buffers)
    (hserial : s.Serial action) (hstep : s.step action = some after) :
    after.Follows ((s.begun action).foldl SessionTable.step t) := by
  cases action with
  | recv w chunk =>
    obtain ⟨⟨hpc, hfresh⟩, rfl⟩ := recv_eq_some.mp hstep
    refine hs.of_frame rfl rfl (fun v hv ↦ ?_) fun v hv ↦ ?_
    · change ¬ (Function.update s.worker w { s.worker w with pc := .waiting } v).pc.Holds
      by_cases hvw : v = w
      · rw [hvw, Function.update_self]
        exact show ¬ Pc.waiting.Holds by decide
      · rwa [Function.update_of_ne hvw]
    · have hvw : v ≠ w := by
        rintro rfl
        rcases hpc with hpc | hpc
        · exact hv.1 hpc
        · exact hv.2.2 hpc
      have hworker : (({ s with
          live := chunk :: s.live
          posted := chunk :: s.posted
          remoteEndpoint := Function.update s.remoteEndpoint chunk ⟨0, 0⟩ } : SessionManager ι).goto w
            .waiting).worker v = s.worker v :=
        Function.update_of_ne hvw _ _
      have hchunk : (s.worker v).readIoData ≠ chunk := by
        rintro rfl
        exact hfresh (hbuffers.heldLive v hv)
      refine ⟨hworker, ?_⟩
      rw [source, hworker]
      exact Function.update_of_ne hchunk _ _
  | complete chunk succ endpoint datagram =>
    obtain ⟨⟨hposted, -⟩, rfl⟩ := complete_eq_some.mp hstep
    refine hs.of_frame rfl rfl (fun _ ↦ id) fun v hv ↦ ⟨rfl, Function.update_of_ne ?_ _ _⟩
    intro hsame
    exact hbuffers.heldFlight v hv (hsame ▸ List.mem_append_left _ hposted)
  | dequeue w c => exact follows_dequeue hs hbuffers hserial.1 hserial.2 hstep
  | loadPending | callAccept | loadSession | loadReadIoData | readHeader | readBody | callPacket =>
    exact follows_handler hs hstep trivial
  | iocpTask w =>
    have hiocp := iocpStep_of_iocpTask hstep
    cases hs with
    | ticking hidle => exact absurd hiocp.holds (hidle w)
    | @serving shown v hholds hother hasleep hshows hplaced hrest =>
      have hself : w = v := by
        by_contra hne
        exact hother w hne hiocp.holds
      subst hself
      rw [hrest]
      exact follows_iocpStep hother hasleep hshows hplaced (hbuffers.heldBytes w hholds).1 hiocp
  | tick =>
    have htick := tickStep_of_runTick hstep
    cases hasleep : s.tick.asleep with
    | false =>
      rw [begun_tick, if_neg (by rw [hasleep]; decide)]
      cases hs with
      | ticking hidle hshows hplaced halike =>
        exact follows_tickStep hidle hshows hplaced halike hasleep htick
      | serving hholds => exact absurd hholds (hserial _)
    | true =>
      have hshows := hs.shows hserial hasleep
      rw [begun_tick, if_pos hasleep]
      cases htick with
      | wake hsleeping => exact follows_wake hserial hsleeping hshows
      | swept hother | decrement hother | disconnect hother | retain hother | drained hother
      | expire hother | keep hother | notify hother | delete hother =>
        rw [hother] at hasleep
        cases hasleep

omit [DecidableEq ι] in
theorem follows_initial : (initial ι).Follows SessionTable.initial := by
  have hidle : (initial ι).Idle := fun w ↦ show ¬ Pc.starting.Holds by decide
  have hshows : (initial ι).ledger.Shows (initial ι).tick.kept SessionTable.initial := {
    created := fun _ ↦ (Nat.count_zero _).symm
    isAlive := fun x hx ↦ absurd hx (Nat.not_lt_zero x)
    pendingSessions := List.Perm.nil
    sessions := List.Perm.nil
    disconnected := List.Perm.nil
    replied := rfl
    accepted := rfl
    delivered := rfl
    disconnects := List.Perm.nil
    pendingKeys := fun _ hnode ↦ absurd hnode List.not_mem_nil
    keys := fun _ hnode ↦ absurd hnode List.not_mem_nil
    known := fun _ hx ↦ absurd hx List.not_mem_nil }
  exact .ticking hidle hshows trivial (.refl _)

omit [DecidableEq ι] in
theorem tableActions_cons (s : SessionManager ι) (action : Action ι)
    (history : List (SessionManager ι × Action ι)) :
    tableActions ((s, action) :: history) = tableActions history ++ s.begun action := by
  simp [tableActions]

/-- In a serial run the session manager is on its way to the table all the time. -/
theorem follows_of_serial {history : List (SessionManager ι × Action ι)}
    (hrun : (system ι).Run history s) (hserial : System.Obeys Serial history) :
    s.Buffers ∧ s.Follows (SessionTable.run (tableActions history)) := by
  induction hrun with
  | start hinit =>
    subst hinit
    exact ⟨buffers_initial, follows_initial⟩
  | next hbefore hstep ih =>
    rw [System.obeys_cons] at hserial
    obtain ⟨hbuffers, hfollows⟩ := ih hserial.2
    refine ⟨buffers_step hbuffers (receiveStep_of_step hstep), ?_⟩
    rw [tableActions_cons, SessionTable.run, List.foldl_append]
    exact follows_step hfollows hbuffers hserial.1 hstep

/-- **Serial refinement.** Whenever nothing is going on in a serial run, the session manager shows the
table after the datagrams and ticks of the run: its sessions, the replies sent and what the handlers
were started for. -/
theorem shows_of_serial {history : List (SessionManager ι × Action ι)}
    (hrun : (system ι).Run history s) (hserial : System.Obeys Serial history) (hidle : s.Idle)
    (hasleep : s.tick.asleep = true) :
    s.ledger.Shows s.tick.kept (SessionTable.run (tableActions history)) :=
  (follows_of_serial hrun hserial).2.shows hidle hasleep

omit [DecidableEq ι] in
instance [Fintype ι] : Decidable s.Idle :=
  inferInstanceAs (Decidable (∀ w, ¬ (s.worker w).pc.Holds))

omit [DecidableEq ι] in
instance [Fintype ι] (action : Action ι) : Decidable (s.Serial action) :=
  match action with
  | .dequeue _ _ => inferInstanceAs (Decidable (s.Idle ∧ s.tick.asleep = true))
  | .tick => inferInstanceAs (Decidable s.Idle)
  | .recv _ _ | .complete _ _ _ _ | .iocpTask _ | .loadPending _ _ | .callAccept _
  | .loadSession _ _ | .loadReadIoData _ _ | .readHeader _ | .readBody _ | .callPacket _ =>
    isTrue trivial

/-- A client connects, is ticked once and sends a packet. -/
def inTurn : List (Action (Fin 1)) :=
  handshake ⟨1, 1⟩ ++ [.iocpTask 0] ++ List.replicate 5 .tick ++ [.recv 0 0] ++
    served ⟨1, 1⟩ [1, 0, 0, 0, 65] 4

/-- The main theorem applied to a run with a handshake, a tick and a packet. -/
theorem shows_of_serial_applies :
    ∃ history s, (system (Fin 1)).Run history s ∧ s.acceptThreads ≠ [] ∧ s.packetThreads ≠ [] ∧
      s.ledger.Shows s.tick.kept (SessionTable.run (tableActions history)) := by
  have hreplay : (System.replay
      (fun s action ↦ if s.Serial action then s.step action else none)
      (initial (Fin 1)) inTurn).map
      (fun s ↦ decide (s.Idle ∧ s.tick.asleep = true ∧ s.acceptThreads ≠ [] ∧
        s.packetThreads ≠ [])) = some true := by decide +kernel
  obtain ⟨history, s, hrun, htest⟩ := System.exists_run_of_replay
    (fun s ↦ s = initial (Fin 1)) rfl hreplay
  obtain ⟨hidle, hasleep, haccepts, hpackets⟩ := of_decide_eq_true htest
  obtain ⟨hrun, hserial⟩ := hrun.of_tested
  exact ⟨history, s, hrun, haccepts, hpackets, shows_of_serial hrun hserial hidle hasleep⟩

end SessionManager

/-! ## One client -/

namespace TableEvent

variable {β : Type} {f : TableEvent → Option β} {client : β → Endpoint} {event : TableEvent}

theorem endpoint_of_replied {reply : Endpoint × Packet} (h : event.replied = some reply) :
    event.endpoint = reply.1 := by
  cases event with
  | reply => exact congrArg Prod.fst (Option.some.inj h)
  | accept | packet | disconnect => cases h

theorem endpoint_of_accepted {session : SessionId} (h : event.accepted = some session) :
    event.endpoint = session.endpoint := by
  cases event with
  | accept => exact congrArg SessionId.endpoint (Option.some.inj h)
  | reply | packet | disconnect => cases h

theorem endpoint_of_delivered {content : SessionId × Packet} (h : event.delivered = some content) :
    event.endpoint = content.1.endpoint := by
  cases event with
  | packet => exact congrArg (fun d : SessionId × Packet ↦ d.1.endpoint) (Option.some.inj h)
  | reply | accept | disconnect => cases h

theorem endpoint_of_disconnected {session : SessionId} (h : event.disconnected = some session) :
    event.endpoint = session.endpoint := by
  cases event with
  | disconnect => exact congrArg SessionId.endpoint (Option.some.inj h)
  | reply | accept | packet => cases h

/-- What the events of one endpoint say is what all of them say about it. -/
theorem filter_filterMap (h : ∀ {event value}, f event = some value → event.endpoint = client value)
    (events : List TableEvent) (endpoint : Endpoint) :
    ((events.filterMap f).filter fun value ↦ client value = endpoint) =
      (events.filter fun event ↦ event.endpoint = endpoint).filterMap f := by
  rw [List.filter_filterMap, List.filterMap_filter]
  congr 1
  funext event
  cases hvalue : f event with
  | none => simp
  | some value => simp [Option.filter, h hvalue]

end TableEvent

namespace Ledger

variable {l other : Ledger} {vector vector' : List ℕ} {t u : SessionTable} {endpoint : Endpoint}

/-- Two ledgers, with their vectors `disconnected`, agree on a client: on its sessions, on the replies
sent to it, on what the handlers were started for and on the sessions disconnected. -/
structure AgreeOn (endpoint : Endpoint) (l : Ledger) (vector : List ℕ) (other : Ledger)
    (vector' : List ℕ) : Prop where
  created : l.created endpoint = other.created endpoint
  isAlive : ∀ x < l.numSessions, ∀ y < other.numSessions, l.endpoint x = endpoint →
    l.sessionId x = other.sessionId y → l.isAlive x = other.isAlive y
  pending : (l.pendingSessions.find endpoint).map l.sessionId =
    (other.pendingSessions.find endpoint).map other.sessionId
  established : (l.sessions.find endpoint).map l.sessionId =
    (other.sessions.find endpoint).map other.sessionId
  disconnected : ((vector.map l.sessionId).filter fun x ↦ x.endpoint = endpoint).Perm
    ((vector'.map other.sessionId).filter fun x ↦ x.endpoint = endpoint)
  replies : (l.replies.filter fun reply ↦ reply.1 = endpoint) =
    other.replies.filter fun reply ↦ reply.1 = endpoint
  accepts : ((l.accepts.map l.sessionId).filter fun x ↦ x.endpoint = endpoint) =
    (other.accepts.map other.sessionId).filter fun x ↦ x.endpoint = endpoint
  packets : ((l.packets.map l.delivery).filter fun delivery ↦ delivery.1.endpoint = endpoint) =
    (other.packets.map other.delivery).filter fun delivery ↦ delivery.1.endpoint = endpoint
  disconnects : ((l.disconnects.map l.sessionId).filter fun x ↦ x.endpoint = endpoint).Perm
    ((other.disconnects.map other.sessionId).filter fun x ↦ x.endpoint = endpoint)

/-- Ledgers agree on a client that the tables show the same view. -/
theorem Shows.agreeOn (h : l.Shows vector t) (h' : other.Shows vector' u)
    (hview : t.view endpoint = u.view endpoint) : AgreeOn endpoint l vector other vector' := by
  have hevents {β : Type} {f : TableEvent → Option β} {client : β → Endpoint}
      (hf : ∀ {event value}, f event = some value → event.endpoint = client value) :
      ((t.events.filterMap f).filter fun value ↦ client value = endpoint) =
        (u.events.filterMap f).filter fun value ↦ client value = endpoint := by
    rw [TableEvent.filter_filterMap hf, TableEvent.filter_filterMap hf]
    exact congrArg (List.filterMap f) (congrArg ClientView.events hview)
  have hpending : t.pendingSessions.find endpoint = u.pendingSessions.find endpoint :=
    congrArg ClientView.pending hview
  have hestablished : t.sessions.find endpoint = u.sessions.find endpoint :=
    congrArg ClientView.established hview
  exact {
    created := by
      rw [← h.created, ← h'.created]
      exact congrArg ClientView.created hview
    isAlive := by
      intro x hx y hy hendpoint hname
      have halive := congrFun (congrArg ClientView.isAlive hview) (l.sessionId x).index
      have hx' : (⟨endpoint, (l.sessionId x).index⟩ : SessionId) = l.sessionId x := by
        rw [← hendpoint]
        rfl
      change t.isAlive ⟨endpoint, _⟩ = u.isAlive ⟨endpoint, _⟩ at halive
      rw [hx', h.isAlive x hx, hname, h'.isAlive y hy] at halive
      exact halive
    pending := by rw [← h.pendingSessions.find, ← h'.pendingSessions.find, hpending]
    established := by rw [← h.sessions.find, ← h'.sessions.find, hestablished]
    disconnected := by
      have hfilter : (t.disconnected.filter fun x ↦ x.endpoint = endpoint) =
          u.disconnected.filter fun x ↦ x.endpoint = endpoint :=
        congrArg ClientView.disconnected hview
      refine (h.disconnected.filter _).symm.trans ?_
      rw [hfilter]
      exact h'.disconnected.filter _
    replies := by
      have hreplied := hevents TableEvent.endpoint_of_replied
      rwa [h.replied, h'.replied] at hreplied
    accepts := by
      have haccepted := hevents TableEvent.endpoint_of_accepted
      rw [h.accepted, h'.accepted, List.filter_reverse, List.filter_reverse] at haccepted
      exact List.reverse_injective haccepted
    packets := by
      have hdelivered := hevents TableEvent.endpoint_of_delivered
      rw [h.delivered, h'.delivered, List.filter_reverse, List.filter_reverse] at hdelivered
      exact List.reverse_injective hdelivered
    disconnects := by
      have hcalls := hevents TableEvent.endpoint_of_disconnected
      refine (h.disconnects.filter _).symm.trans ?_
      rw [hcalls]
      exact h'.disconnects.filter _ }

end Ledger

namespace SessionManager

variable {ι κ : Type} [DecidableEq ι] [DecidableEq κ] {s : SessionManager ι} {other : SessionManager κ}

/-- **Client isolation of serial runs.** Two serial runs, perhaps with other numbers of workers, that
begin the same datagrams of a client and the same ticks, in the same order, agree on the client whenever
nothing is going on. -/
theorem agreeOn_of_serial {history : List (SessionManager ι × Action ι)}
    {history' : List (SessionManager κ × Action κ)} (endpoint : Endpoint)
    (hrun : (system ι).Run history s) (hrun' : (system κ).Run history' other)
    (hserial : System.Obeys Serial history) (hserial' : System.Obeys Serial history')
    (hidle : s.Idle) (hidle' : other.Idle) (hasleep : s.tick.asleep = true)
    (hasleep' : other.tick.asleep = true)
    (hsame : ((tableActions history).filter fun action ↦ action.Concerns endpoint) =
      (tableActions history').filter fun action ↦ action.Concerns endpoint) :
    Ledger.AgreeOn endpoint s.ledger s.tick.kept other.ledger other.tick.kept := by
  have hshows := (follows_of_serial hrun hserial).2.shows hidle hasleep
  have hshows' := (follows_of_serial hrun' hserial').2.shows hidle' hasleep'
  refine hshows.agreeOn hshows' ?_
  rw [SessionTable.view_run, SessionTable.view_run, hsame]

/-- The only worker serves the handshake of one client. -/
def alone : List (Action (Fin 1)) :=
  handshake ⟨1, 1⟩ ++ [.iocpTask 0]

/-- Two workers serve the handshake of the client, and the SYN of another one. -/
def amongOthers : List (Action (Fin 2)) :=
  [.recv 0 0, .recv 1 1, .complete 1 true ⟨2, 1⟩ SessionTable.synDatagram,
    .complete 0 true ⟨1, 1⟩ SessionTable.synDatagram,
    .dequeue 1 ⟨1, true, SessionTable.synDatagram⟩] ++ List.replicate 4 (.iocpTask 1) ++
  [.dequeue 0 ⟨0, true, SessionTable.synDatagram⟩] ++ List.replicate 4 (.iocpTask 0) ++
  [.recv 1 1, .complete 1 true ⟨1, 1⟩ SessionTable.ackDatagram,
    .dequeue 1 ⟨1, true, SessionTable.ackDatagram⟩] ++ List.replicate 5 (.iocpTask 1)

/-- What the client sends in both. -/
def handshakeActions : List TableAction :=
  [.receive ⟨1, 1⟩ SessionTable.synDatagram, .receive ⟨1, 1⟩ SessionTable.ackDatagram]

/-- Isolation applied to a client alone and among others. -/
theorem agreeOn_of_serial_applies :
    ∃ (history : List (SessionManager (Fin 1) × Action (Fin 1))) (s : SessionManager (Fin 1))
      (history' : List (SessionManager (Fin 2) × Action (Fin 2))) (other : SessionManager (Fin 2)),
      s.acceptThreads ≠ [] ∧ s.numSessions = 1 ∧ other.numSessions = 2 ∧
        tableActions history ≠ tableActions history' ∧
        Ledger.AgreeOn ⟨1, 1⟩ s.ledger s.tick.kept other.ledger other.tick.kept := by
  have htraced : (System.traced
      (fun s action ↦ if s.Serial action then s.step action else none) [] (initial (Fin 1))
      alone).map (fun found ↦ decide (found.2.Idle ∧ found.2.tick.asleep = true ∧
        found.2.acceptThreads ≠ [] ∧ found.2.numSessions = 1 ∧
        tableActions found.1 = handshakeActions)) = some true := by decide +kernel
  have htraced' : (System.traced
      (fun s action ↦ if s.Serial action then s.step action else none) [] (initial (Fin 2))
      amongOthers).map (fun found ↦ decide (found.2.Idle ∧ found.2.tick.asleep = true ∧
        found.2.numSessions = 2 ∧ tableActions found.1 =
          .receive ⟨2, 1⟩ SessionTable.synDatagram :: handshakeActions)) = some true := by
    decide +kernel
  obtain ⟨history, s, hrun, htest⟩ := System.exists_run_of_traced
    (fun s ↦ s = initial (Fin 1)) rfl htraced
  obtain ⟨history', other, hrun', htest'⟩ := System.exists_run_of_traced
    (fun s ↦ s = initial (Fin 2)) rfl htraced'
  obtain ⟨hidle, hasleep, haccepts, hone, hactions⟩ := of_decide_eq_true htest
  obtain ⟨hidle', hasleep', htwo, hactions'⟩ := of_decide_eq_true htest'
  obtain ⟨hrun, hserial⟩ := hrun.of_tested
  obtain ⟨hrun', hserial'⟩ := hrun'.of_tested
  have hsame : ((tableActions history).filter fun action ↦ action.Concerns ⟨1, 1⟩) =
      (tableActions history').filter fun action ↦ action.Concerns ⟨1, 1⟩ := by
    rw [hactions, hactions']
    decide
  refine ⟨history, s, history', other, haccepts, hone, htwo, ?_,
    agreeOn_of_serial ⟨1, 1⟩ hrun hrun' hserial hserial' hidle hidle' hasleep hasleep' hsame⟩
  rw [hactions, hactions']
  decide

end SessionManager

end ServerCore.UdpServer
