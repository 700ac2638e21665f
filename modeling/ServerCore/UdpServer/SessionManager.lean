import Mathlib.Logic.Function.Basic
import ServerCore.Foundation.TransitionSystem
import ServerCore.UdpServer.Datagram

/-!
# The session manager of the UDP server

`num_thread_` workers run `iocp_task`, a further thread runs the heartbeat ticks, and each accepted
session and each data datagram gets a detached handler thread. They interleave here at the steps the
code takes apart: the waits, the accesses to the maps under their locks, the atomic changes of
`is_alive_`, the starts of threads, the release of a receive buffer and the next receive.

A handler thread captures locals of the worker by reference. It reads the local while the block that
declares it is open; afterwards the reference dangles and any value may be read. Chunks of
`r_io_data_pool_` and sessions are numbered. A chunk taken by `Recv` is any that is not in use, the
most recently freed one in particular. The lookups take only the read side of a lock, which does not
keep them out of a tick (see the spinlock), so they are not held back by one; insertions are.

Completions of sends touch nothing modelled here and are left out, as is the destructor.
-/

namespace ServerCore.UdpServer

open Foundation

/-- Where a worker stands. Each point is named after what is done next. -/
inductive Pc
  | starting
  | waiting
  | construct
  | insertPending
  | reply
  | findPending
  | erasePending
  | insertSession
  | startAccept
  | findHeartbeat
  | incrementHeartbeat
  | findSession
  | incrementSession
  | startPacket
  | free
  | recv
  deriving DecidableEq, Repr

/-- The point at which the branch taken begins. -/
def Branch.pc : Branch → Pc
  | .syn => .construct
  | .ack => .findPending
  | .heartbeat => .findHeartbeat
  | .data => .findSession
  | .other => .free

/-- The locals of a worker. `datagram` is ghost state: the bytes the completion delivered. -/
structure Worker where
  pc : Pc
  readIoData : ℕ
  newSession : ℕ
  pendingSession : ℕ
  session : ℕ
  datagram : List UInt8
  deriving Repr

/-- Ghost state: what holds a session. -/
inductive Place (ι : Type)
  | unlisted
  | constructed (worker : ι)
  | pending
  | accepting (worker : ι)
  | established
  | disconnected
  | ended
  deriving DecidableEq, Repr

/-- A `Session`, with the ghost state that says what holds it. -/
structure Session (ι : Type) where
  endpoint : Endpoint
  isAlive : BitVec 16
  place : Place ι
  deriving Repr

/-- A receive that completed, with its flag and the bytes received. -/
structure Completion where
  chunk : ℕ
  succ : Bool
  datagram : List UInt8
  deriving DecidableEq, Repr

/-- The thread that calls `ahandler_`. `scope` is the worker whose locals it captures, while their
block is open; `origin` is ghost state, the session that the ACK established. -/
structure AcceptThread (ι : Type) where
  scope : Option ι
  origin : ℕ
  pendingSession : Option ℕ
  called : Bool
  deriving DecidableEq, Repr

/-- What a data datagram should deliver: the session found for it and its own bytes. -/
structure Delivery where
  session : ℕ
  datagram : List UInt8
  deriving DecidableEq, Repr

/-- The thread that calls `phandler_`, with what it has read so far. `origin` and `chunk` are ghost
state, the chunk being the one that the datagram arrived in. -/
structure PacketThread (ι : Type) where
  scope : Option ι
  origin : Delivery
  chunk : ℕ
  session : Option ℕ
  readIoData : Option ℕ
  header : Option (BitVec 16 × BitVec 16)
  body : Option (List UInt8)
  called : Bool
  deriving DecidableEq, Repr

/-- The worker leaves the block whose locals the thread captures. -/
def AcceptThread.leave {ι : Type} [DecidableEq ι] (t : AcceptThread ι) (w : ι) : AcceptThread ι :=
  if t.scope = some w then { t with scope := none } else t

def PacketThread.leave {ι : Type} [DecidableEq ι] (t : PacketThread ι) (w : ι) : PacketThread ι :=
  if t.scope = some w then { t with scope := none } else t

/-- The heartbeat thread. Each point carries the vector `disconnected` and what is left to visit. -/
inductive Tick
  | sleeping (disconnected : List ℕ)
  | sweeping (remaining disconnected : List ℕ)
  | testing (session : ℕ) (remaining disconnected : List ℕ)
  | draining (kept remaining : List ℕ)
  | notifying (kept : List ℕ) (session : ℕ) (remaining : List ℕ)
  | deleting (kept : List ℕ) (session : ℕ) (remaining : List ℕ)
  deriving DecidableEq, Repr

/-- The tick holds the write lock on `sessions_`. -/
def Tick.locked : Tick → Bool
  | .sweeping _ _ | .testing _ _ _ => true
  | .sleeping _ | .draining _ _ | .notifying _ _ _ | .deleting _ _ _ => false

/-- A call of a handler, with what the handler should have received. -/
structure AcceptCall where
  origin : ℕ
  session : ℕ
  deriving DecidableEq, Repr

structure PacketCall where
  origin : Delivery
  session : ℕ
  packet : Packet
  deriving DecidableEq, Repr

structure SessionManager (ι : Type) where
  worker : ι → Worker
  /-- `buffer` and `remote_endpoint` of the chunks of `r_io_data_pool_`. -/
  buffer : ℕ → ByteMemory
  remoteEndpoint : ℕ → Endpoint
  /-- The chunks in use, those the kernel may write to, and those whose receive has completed. -/
  live : List ℕ
  posted : List ℕ
  completed : List Completion
  session : ℕ → Session ι
  numSessions : ℕ
  pendingSessions : SessionMap
  sessions : SessionMap
  tick : Tick
  acceptThreads : List (AcceptThread ι)
  packetThreads : List (PacketThread ι)
  /-- What was sent and which handlers were called, latest first. -/
  replies : List (Endpoint × Packet)
  acceptCalls : List AcceptCall
  packetCalls : List PacketCall
  disconnectCalls : List ℕ

inductive Action (ι : Type)
  | recv (worker : ι) (chunk : ℕ)
  | complete (chunk : ℕ) (succ : Bool) (endpoint : Endpoint) (datagram : List UInt8)
  | dequeue (worker : ι) (completion : Completion)
  | iocpTask (worker : ι)
  | loadPending (thread value : ℕ)
  | callAccept (thread : ℕ)
  | loadSession (thread value : ℕ)
  | loadReadIoData (thread value : ℕ)
  | readHeader (thread : ℕ)
  | readBody (thread : ℕ)
  | callPacket (thread : ℕ)
  | tick
  deriving DecidableEq, Repr

namespace SessionManager

variable {ι : Type} [DecidableEq ι]

def initial (ι : Type) : SessionManager ι where
  worker _ := ⟨.starting, 0, 0, 0, 0, []⟩
  buffer _ _ := 0
  remoteEndpoint _ := ⟨0, 0⟩
  live := []
  posted := []
  completed := []
  session _ := ⟨⟨0, 0⟩, 0, .unlisted⟩
  numSessions := 0
  pendingSessions := []
  sessions := []
  tick := .sleeping []
  acceptThreads := []
  packetThreads := []
  replies := []
  acceptCalls := []
  packetCalls := []
  disconnectCalls := []

def setWorker (s : SessionManager ι) (w : ι) (locals : Worker) : SessionManager ι :=
  { s with worker := Function.update s.worker w locals }

def goto (s : SessionManager ι) (w : ι) (pc : Pc) : SessionManager ι :=
  s.setWorker w { s.worker w with pc := pc }

def setPlace (s : SessionManager ι) (session : ℕ) (place : Place ι) : SessionManager ι :=
  { s with session := Function.update s.session session { s.session session with place := place } }

/-- `InterlockedIncrement16` and `InterlockedDecrement16` of `is_alive_`. -/
def addAlive (s : SessionManager ι) (session : ℕ) (change : BitVec 16) : SessionManager ι :=
  { s with
    session := Function.update s.session session
      { s.session session with isAlive := (s.session session).isAlive + change } }

/-! ## The socket -/

/-- `Socket::Recv`, the first one of a worker and the one at the end of each iteration. -/
def recv (s : SessionManager ι) (w : ι) (chunk : ℕ) : Option (SessionManager ι) :=
  if ((s.worker w).pc = .starting ∨ (s.worker w).pc = .recv) ∧ chunk ∉ s.live then
    some ({ s with
      live := chunk :: s.live
      posted := chunk :: s.posted
      remoteEndpoint := Function.update s.remoteEndpoint chunk ⟨0, 0⟩ }.goto w .waiting)
  else none

/-- A posted receive completes, successfully or not. -/
def complete (s : SessionManager ι) (chunk : ℕ) (succ : Bool) (endpoint : Endpoint)
    (datagram : List UInt8) : Option (SessionManager ι) :=
  if chunk ∈ s.posted ∧ datagram.length ≤ socketBufSize then
    some { s with
      posted := s.posted.erase chunk
      completed := ⟨chunk, succ, datagram⟩ :: s.completed
      buffer := Function.update s.buffer chunk ((s.buffer chunk).write 0 datagram)
      remoteEndpoint := Function.update s.remoteEndpoint chunk endpoint }
  else none

/-! ## The workers -/

/-- `GetQueuedCompletionStatus` returns, and the tests up to the choice of the branch are made. -/
def dequeue (s : SessionManager ι) (w : ι) (c : Completion) : Option (SessionManager ι) :=
  if (s.worker w).pc = .waiting ∧ c ∈ s.completed then
    let s := { s with completed := s.completed.erase c }
    if !c.succ then some s
    else if c.datagram.length < 4 then some s
    else
      let size := word ((s.buffer c.chunk).read 0 2)
      let type := word ((s.buffer c.chunk).read 2 2)
      some (s.setWorker w { s.worker w with
        pc := Branch.pc (branch size type c.datagram.length)
        readIoData := c.chunk
        datagram := c.datagram })
  else none

/-- SYN: the session is constructed, filed unless its endpoint is pending already, and answered. -/
def construct (s : SessionManager ι) (w : ι) : SessionManager ι :=
  { s with
    session := Function.update s.session s.numSessions
      ⟨s.remoteEndpoint (s.worker w).readIoData, 0, .constructed w⟩
    numSessions := s.numSessions + 1 }.setWorker w
      { s.worker w with newSession := s.numSessions, pc := .insertPending }

def insertPending (s : SessionManager ι) (w : ι) : SessionManager ι :=
  let session := (s.worker w).newSession
  let endpoint := (s.session session).endpoint
  if (s.pendingSessions.find endpoint).isSome then s.goto w .reply
  else ({ s with pendingSessions := s.pendingSessions.insert endpoint session }.setPlace session
    .pending).goto w .reply

def reply (s : SessionManager ι) (w : ι) : SessionManager ι :=
  { s with
    replies := ((s.session (s.worker w).newSession).endpoint,
      ⟨2, -2, (s.buffer (s.worker w).readIoData).read 4 2⟩) :: s.replies }.goto w .free

/-- ACK: the pending session is looked up, taken out of one map, put into the other and announced. -/
def findPending (s : SessionManager ι) (w : ι) : SessionManager ι :=
  match s.pendingSessions.find (s.remoteEndpoint (s.worker w).readIoData) with
  | none => s.goto w .waiting
  | some session => s.setWorker w { s.worker w with pendingSession := session, pc := .erasePending }

/-- Erasing through an iterator whose node is gone is undefined behaviour. -/
def erasePending (s : SessionManager ι) (w : ι) : Option (SessionManager ι) :=
  let session := (s.worker w).pendingSession
  if session ∈ s.pendingSessions.values then
    some (({ s with pendingSessions := s.pendingSessions.erase session }.setPlace session
      (.accepting w)).goto w .insertSession)
  else none

/-- The session stays out of the map, unlisted, if its endpoint has one already. -/
def insertSession (s : SessionManager ι) (w : ι) : Option (SessionManager ι) :=
  let session := (s.worker w).pendingSession
  let endpoint := (s.session session).endpoint
  if s.tick.locked then none
  else if (s.sessions.find endpoint).isSome then
    some ((s.setPlace session .unlisted).goto w .startAccept)
  else some (({ s with sessions := s.sessions.insert endpoint session }.setPlace session
    .established).goto w .startAccept)

def startAccept (s : SessionManager ι) (w : ι) : SessionManager ι :=
  let thread : AcceptThread ι := ⟨some w, (s.worker w).pendingSession, none, false⟩
  { s with acceptThreads := s.acceptThreads ++ [thread] }.goto w .free

/-- Heartbeats and data: the session is looked up. -/
def findSession (s : SessionManager ι) (w : ι) (next : Pc) : SessionManager ι :=
  match s.sessions.find (s.remoteEndpoint (s.worker w).readIoData) with
  | none => s.goto w .waiting
  | some session => s.setWorker w { s.worker w with session := session, pc := next }

def incrementHeartbeat (s : SessionManager ι) (w : ι) : SessionManager ι :=
  (s.addAlive (s.worker w).session 1).goto w .free

/-- The result of the increment, a signed number, decides whether the packet is delivered. -/
def incrementSession (s : SessionManager ι) (w : ι) : SessionManager ι :=
  let session := (s.worker w).session
  (s.addAlive session 1).goto w
    (if -2 < ((s.session session).isAlive + 1).toInt then .startPacket else .free)

def startPacket (s : SessionManager ι) (w : ι) : SessionManager ι :=
  let thread : PacketThread ι := ⟨some w, ⟨(s.worker w).session, (s.worker w).datagram⟩,
    (s.worker w).readIoData, none, none, none, none, false⟩
  { s with packetThreads := s.packetThreads ++ [thread] }.goto w .free

/-- The end of every branch, and `r_io_data_pool_.Free(read_io_data)`. -/
def free (s : SessionManager ι) (w : ι) : SessionManager ι :=
  { s with
    live := s.live.erase (s.worker w).readIoData
    acceptThreads := s.acceptThreads.map (AcceptThread.leave · w)
    packetThreads := s.packetThreads.map (PacketThread.leave · w) }.goto w .recv

/-- The body of `iocp_task` behind the choice of the branch, up to the next receive. -/
def iocpTask (s : SessionManager ι) (w : ι) : Option (SessionManager ι) :=
  match (s.worker w).pc with
  | .construct => some (s.construct w)
  | .insertPending => some (s.insertPending w)
  | .reply => some (s.reply w)
  | .findPending => some (s.findPending w)
  | .erasePending => s.erasePending w
  | .insertSession => s.insertSession w
  | .startAccept => some (s.startAccept w)
  | .findHeartbeat => some (s.findSession w .incrementHeartbeat)
  | .incrementHeartbeat => some (s.incrementHeartbeat w)
  | .findSession => some (s.findSession w .incrementSession)
  | .incrementSession => some (s.incrementSession w)
  | .startPacket => some (s.startPacket w)
  | .free => some (s.free w)
  | .starting | .waiting | .recv => none

/-! ## The handler threads -/

/-- A captured local may be read as `value`: its own value while its block is open. -/
def Captures (s : SessionManager ι) (scope : Option ι) (field : Worker → ℕ) (value : ℕ) : Prop :=
  ∀ w ∈ scope, field (s.worker w) = value

instance (s : SessionManager ι) (scope : Option ι) (field : Worker → ℕ) (value : ℕ) :
    Decidable (s.Captures scope field value) :=
  inferInstanceAs (Decidable (∀ w ∈ scope, _))

def setAccept (s : SessionManager ι) (i : ℕ) (t : AcceptThread ι) : SessionManager ι :=
  { s with acceptThreads := s.acceptThreads.set i t }

def setPacket (s : SessionManager ι) (i : ℕ) (t : PacketThread ι) : SessionManager ι :=
  { s with packetThreads := s.packetThreads.set i t }

def loadPending (s : SessionManager ι) (i value : ℕ) : Option (SessionManager ι) := do
  let t ← s.acceptThreads[i]?
  if t.pendingSession = none ∧ s.Captures t.scope Worker.pendingSession value then
    some (s.setAccept i { t with pendingSession := some value })
  else none

/-- The call of `ahandler_`. -/
def callAccept (s : SessionManager ι) (i : ℕ) : Option (SessionManager ι) := do
  let t ← s.acceptThreads[i]?
  let session ← t.pendingSession
  if t.called then none
  else some { s.setAccept i { t with called := true } with
    acceptCalls := AcceptCall.mk t.origin session :: s.acceptCalls }

def loadSession (s : SessionManager ι) (i value : ℕ) : Option (SessionManager ι) := do
  let t ← s.packetThreads[i]?
  if t.session = none ∧ s.Captures t.scope Worker.session value then
    some (s.setPacket i { t with session := some value })
  else none

def loadReadIoData (s : SessionManager ι) (i value : ℕ) : Option (SessionManager ι) := do
  let t ← s.packetThreads[i]?
  if t.readIoData = none ∧ s.Captures t.scope Worker.readIoData value then
    some (s.setPacket i { t with readIoData := some value })
  else none

/-- `Packet(const char*)` reads the size and the type. -/
def readHeader (s : SessionManager ι) (i : ℕ) : Option (SessionManager ι) := do
  let t ← s.packetThreads[i]?
  let chunk ← t.readIoData
  if t.header = none then
    some (s.setPacket i { t with
      header := some (word ((s.buffer chunk).read 0 2), word ((s.buffer chunk).read 2 2)) })
  else none

/-- `Packet(const char*)` copies the body. A `short` is never above `MAX_PACKET_SIZE`. A negative size,
or one that reaches beyond the buffer, is undefined behaviour. -/
def readBody (s : SessionManager ι) (i : ℕ) : Option (SessionManager ι) := do
  let t ← s.packetThreads[i]?
  let chunk ← t.readIoData
  let header ← t.header
  if t.body = none ∧ 0 ≤ header.1.toInt ∧ 4 + header.1.toNat ≤ socketBufSize then
    some (s.setPacket i { t with body := some ((s.buffer chunk).read 4 header.1.toNat) })
  else none

/-- The call of `phandler_`. -/
def callPacket (s : SessionManager ι) (i : ℕ) : Option (SessionManager ι) := do
  let t ← s.packetThreads[i]?
  let session ← t.session
  let header ← t.header
  let body ← t.body
  if t.called then none
  else some { s.setPacket i { t with called := true } with
    packetCalls := PacketCall.mk t.origin session ⟨header.1, header.2, body⟩ :: s.packetCalls }

/-! ## The heartbeat thread -/

/-- One step of the heartbeat thread. The sweep runs under the write lock of `sessions_`; its
decrement and its test of `is_alive_` are separate accesses, those of the drain are one. -/
def runTick (s : SessionManager ι) : Option (SessionManager ι) :=
  match s.tick with
  | .sleeping disconnected => some { s with tick := .sweeping s.sessions.values disconnected }
  | .sweeping [] disconnected => some { s with tick := .draining [] disconnected }
  | .sweeping (x :: remaining) disconnected =>
    some { s.addAlive x (-1) with tick := .testing x remaining disconnected }
  | .testing x remaining disconnected =>
    if x ∉ s.sessions.values then none
    else if (s.session x).isAlive.toInt < -1 then
      some { s.setPlace x .disconnected with
        sessions := s.sessions.erase x
        tick := .sweeping remaining (disconnected ++ [x]) }
    else some { s with tick := .sweeping remaining disconnected }
  | .draining kept [] => some { s with tick := .sleeping kept }
  | .draining kept (x :: remaining) =>
    let result := (s.session x).isAlive + (-1)
    some { s.addAlive x (-1) with
      tick := if result.toInt = -3 then .notifying kept x remaining
        else .draining (kept ++ [x]) remaining }
  | .notifying kept x remaining =>
    some { s with
      disconnectCalls := x :: s.disconnectCalls
      tick := .deleting kept x remaining }
  | .deleting kept x remaining =>
    some { s.setPlace x .ended with tick := .draining kept remaining }

def step (s : SessionManager ι) : Action ι → Option (SessionManager ι)
  | .recv w chunk => s.recv w chunk
  | .complete chunk succ endpoint datagram => s.complete chunk succ endpoint datagram
  | .dequeue w c => s.dequeue w c
  | .iocpTask w => s.iocpTask w
  | .loadPending i value => s.loadPending i value
  | .callAccept i => s.callAccept i
  | .loadSession i value => s.loadSession i value
  | .loadReadIoData i value => s.loadReadIoData i value
  | .readHeader i => s.readHeader i
  | .readBody i => s.readBody i
  | .callPacket i => s.callPacket i
  | .tick => s.runTick

/-- The session manager from the start of `Run` on, with one worker for each element of `ι`. -/
def system (ι : Type) [DecidableEq ι] : System (SessionManager ι) (Action ι) :=
  System.ofStep (fun s ↦ s = initial ι) step

/-- The only worker serves a datagram with `steps` steps of `iocp_task`. -/
def served (endpoint : Endpoint) (datagram : List UInt8) (steps : ℕ) : List (Action (Fin 1)) :=
  [.complete 0 true endpoint datagram, .dequeue 0 ⟨0, true, datagram⟩] ++
    List.replicate steps (.iocpTask 0)

/-- The only worker starts, and a client sends SYN and ACK. The accept handler is still to start. -/
def handshake (endpoint : Endpoint) : List (Action (Fin 1)) :=
  [.recv 0 0] ++ served endpoint [2, 0, 255, 255, 0, 0] 4 ++ [.recv 0 0] ++
    served endpoint [2, 0, 253, 255, 0, 0] 4

end SessionManager

end ServerCore.UdpServer
