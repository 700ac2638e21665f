import Mathlib.Logic.Function.Basic
import Mathlib.Order.Defs.LinearOrder
import Mathlib.Order.RelClasses
import ServerCore.Foundation.OrderedMap
import ServerCore.Foundation.TransitionSystem
import ServerCore.UdpServer.Datagram

/-!
# The session table, one datagram at a time

What `iocp_task` makes of a datagram and what a heartbeat tick does, each as one step, on the two maps
of sessions and the vector `disconnected`. A session is named by its `endpoint_` and by how many
sessions were constructed for that endpoint before: unlike an address, the name does not depend on
what other clients do.

A failed receive, in particular one of a datagram that does not fit into the buffer, and a datagram
of less than four bytes change nothing here.
-/

namespace ServerCore.UdpServer

open Foundation

namespace Endpoint

instance (lhs rep : Endpoint) : Decidable (lhs.Less rep) := by
  unfold Less
  infer_instance

theorem Less.trans {first second third : Endpoint} (h : first.Less second)
    (h' : second.Less third) : first.Less third := by
  unfold Less at *
  rcases h with h | ⟨haddr, hport⟩
  · rcases h' with h' | ⟨haddr', -⟩
    · exact Or.inl (BitVec.lt_trans h h')
    · exact Or.inl (haddr' ▸ h)
  · rcases h' with h' | ⟨haddr', hport'⟩
    · exact Or.inl (haddr ▸ h')
    · exact Or.inr ⟨haddr.trans haddr', BitVec.lt_trans hport hport'⟩

instance : IsStrictTotalOrder Endpoint Less where
  trichotomous first second h h' := (eq_iff_incomparable first second).mpr ⟨h, h'⟩
  irrefl first := ((eq_iff_incomparable first first).mp rfl).1
  trans _ _ _ := Less.trans

/-- The order of `std::map<Endpoint, Session*>`. -/
instance : LinearOrder Endpoint :=
  { partialOrderOfSO Less with
    le_total := (linearOrderOfSTO Less).le_total
    toDecidableLE := fun lhs rep ↦ inferInstanceAs (Decidable (lhs = rep ∨ lhs.Less rep))
    toDecidableEq := inferInstance }

end Endpoint

/-- A `Session`, told apart by its `endpoint_` and its number among the sessions of that endpoint. -/
structure SessionId where
  endpoint : Endpoint
  index : ℕ
  deriving DecidableEq, Repr

/-- What a client or a handler sees. `entry` is ghost state: what `sessions_` has at the endpoint of
the session when `ahandler_` is started. -/
inductive TableEvent
  | reply (endpoint : Endpoint) (packet : Packet)
  | accept (session : SessionId) (entry : Option SessionId)
  | packet (session : SessionId) (packet : Packet)
  | disconnect (session : SessionId)
  deriving DecidableEq, Repr

/-- The sessions and what holds them. `created`, `deleted` and `events`, latest first, are ghost
state. -/
structure SessionTable where
  isAlive : SessionId → BitVec 16
  created : Endpoint → ℕ
  pendingSessions : OrderedMap Endpoint SessionId
  sessions : OrderedMap Endpoint SessionId
  disconnected : List SessionId
  deleted : List SessionId
  events : List TableEvent

inductive TableAction
  | receive (endpoint : Endpoint) (datagram : List UInt8)
  | tick
  deriving DecidableEq, Repr

namespace SessionTable

def initial : SessionTable where
  isAlive _ := 0
  created _ := 0
  pendingSessions := .empty
  sessions := .empty
  disconnected := []
  deleted := []
  events := []

/-- `InterlockedIncrement16` and `InterlockedDecrement16` of `is_alive_`. -/
def addAlive (s : SessionTable) (x : SessionId) (change : BitVec 16) : SessionTable :=
  { s with isAlive := Function.update s.isAlive x (s.isAlive x + change) }

/-- SYN: a session is constructed, filed unless its endpoint is pending already, and answered. -/
def syn (s : SessionTable) (endpoint : Endpoint) (datagram : List UInt8) : SessionTable :=
  let newSession : SessionId := ⟨endpoint, s.created endpoint⟩
  { s with
    isAlive := Function.update s.isAlive newSession 0
    created := Function.update s.created endpoint (s.created endpoint + 1)
    pendingSessions := s.pendingSessions.insert newSession.endpoint newSession
    events := .reply newSession.endpoint ⟨2, -2, (datagram.drop 4).take 2⟩ :: s.events }

/-- ACK: the pending session goes over to the other map, unless its endpoint is there already, and is
announced. -/
def ack (s : SessionTable) (endpoint : Endpoint) : SessionTable :=
  match s.pendingSessions.find endpoint with
  | none => s
  | some pendingSession =>
    let sessions := s.sessions.insert pendingSession.endpoint pendingSession
    { s with
      pendingSessions := s.pendingSessions.erase endpoint
      sessions := sessions
      events := .accept pendingSession (sessions.find pendingSession.endpoint) :: s.events }

def heartbeat (s : SessionTable) (endpoint : Endpoint) : SessionTable :=
  match s.sessions.find endpoint with
  | none => s
  | some session => s.addAlive session 1

/-- Data: the result of the increment, a signed number, decides whether the packet is delivered. -/
def data (s : SessionTable) (endpoint : Endpoint) (datagram : List UInt8) : SessionTable :=
  match s.sessions.find endpoint with
  | none => s
  | some session =>
    if -2 < (s.isAlive session + 1).toInt then
      { s.addAlive session 1 with
        events := .packet session (Packet.ofDatagram datagram) :: s.events }
    else s.addAlive session 1

/-- The branch that the datagram has chosen. -/
def serve (s : SessionTable) (endpoint : Endpoint) (datagram : List UInt8) : Branch → SessionTable
  | .syn => s.syn endpoint datagram
  | .ack => s.ack endpoint
  | .heartbeat => s.heartbeat endpoint
  | .data => s.data endpoint datagram
  | .other => s

/-- One iteration of `iocp_task` for a datagram. -/
def receive (s : SessionTable) (endpoint : Endpoint) (datagram : List UInt8) : SessionTable :=
  if socketBufSize < datagram.length then s
  else if datagram.length < 4 then s
  else s.serve endpoint datagram (Branch.ofDatagram datagram)

/-- One round of the loop over `sessions_`. -/
def sweepSession (s : SessionTable) (node : Endpoint × SessionId) : SessionTable :=
  if (s.isAlive node.2 + (-1)).toInt < -1 then
    { s.addAlive node.2 (-1) with
      disconnected := s.disconnected ++ [node.2]
      sessions := s.sessions.erase node.1 }
  else s.addAlive node.2 (-1)

def sweep (s : SessionTable) : SessionTable :=
  s.sessions.nodes.foldl sweepSession s

/-- One round of the loop over `disconnected`, which collects the sessions that stay in it. -/
def drainSession (s : SessionTable) (x : SessionId) : SessionTable :=
  if (s.isAlive x + (-1)).toInt = -3 then
    { s.addAlive x (-1) with
      events := .disconnect x :: s.events
      deleted := x :: s.deleted }
  else { s.addAlive x (-1) with disconnected := s.disconnected ++ [x] }

def drain (s : SessionTable) : SessionTable :=
  s.disconnected.foldl drainSession { s with disconnected := [] }

/-- One round of the heartbeat thread. -/
def tick (s : SessionTable) : SessionTable :=
  s.sweep.drain

def step (s : SessionTable) : TableAction → SessionTable
  | .receive endpoint datagram => s.receive endpoint datagram
  | .tick => s.tick

/-- Any sequence of datagrams and ticks. -/
def system : System SessionTable TableAction where
  init s := s = initial
  step s action after := s.step action = after

/-- The state after a sequence of datagrams and ticks. -/
def run (actions : List TableAction) : SessionTable :=
  actions.foldl step initial

theorem exists_run_of_foldl {history : List (SessionTable × TableAction)} {s : SessionTable}
    (hrun : system.Run history s) (actions : List TableAction) :
    ∃ longer, system.Run longer (actions.foldl step s) := by
  induction actions generalizing history s with
  | nil => exact ⟨history, hrun⟩
  | cons action rest ih => exact ih (hrun.next rfl)

theorem exists_run (actions : List TableAction) : ∃ history, system.Run history (run actions) :=
  exists_run_of_foldl (.start rfl) actions

/-! ## The kinds of datagrams -/

def synDatagram : List UInt8 := [2, 0, 255, 255, 0, 0]

def ackDatagram : List UInt8 := [2, 0, 253, 255, 0, 0]

/-- The datagram is received and taken for one of this kind. -/
def IsA (branch : Branch) (datagram : List UInt8) : Prop :=
  datagram.length ≤ socketBufSize ∧ 4 ≤ datagram.length ∧ Branch.ofDatagram datagram = branch

instance (branch : Branch) (datagram : List UInt8) : Decidable (IsA branch datagram) := by
  unfold IsA
  infer_instance

variable {s after : SessionTable} {endpoint : Endpoint} {datagram : List UInt8} {x : SessionId}

/-- What is neither SYN nor ACK: a session may be kept alive and a packet be delivered. -/
structure Quiet (s after : SessionTable) : Prop where
  created : after.created = s.created
  pendingSessions : after.pendingSessions = s.pendingSessions
  sessions : after.sessions = s.sessions
  disconnected : after.disconnected = s.disconnected
  deleted : after.deleted = s.deleted
  events : after.events = s.events ∨ ∃ x packet, after.events = .packet x packet :: s.events

theorem Quiet.refl (s : SessionTable) : s.Quiet s :=
  ⟨rfl, rfl, rfl, rfl, rfl, Or.inl rfl⟩

theorem quiet_heartbeat : s.Quiet (s.heartbeat endpoint) := by
  unfold heartbeat
  split
  · exact .refl s
  · exact ⟨rfl, rfl, rfl, rfl, rfl, Or.inl rfl⟩

theorem quiet_data : s.Quiet (s.data endpoint datagram) := by
  unfold data
  split
  · exact .refl s
  · split
    · exact ⟨rfl, rfl, rfl, rfl, rfl, Or.inr ⟨_, _, rfl⟩⟩
    · exact ⟨rfl, rfl, rfl, rfl, rfl, Or.inl rfl⟩

theorem IsA.unique {first second : Branch} (h : IsA first datagram) (h' : IsA second datagram) :
    first = second :=
  h.2.2.symm.trans h'.2.2

theorem receive_of_isA {branch : Branch} (h : IsA branch datagram) :
    s.receive endpoint datagram = s.serve endpoint datagram branch := by
  obtain ⟨hlong, hshort, rfl⟩ := h
  unfold receive
  rw [if_neg (by omega), if_neg (by omega)]

theorem receive_of_not_isA (h : ∀ branch, ¬ IsA branch datagram) :
    s.receive endpoint datagram = s := by
  unfold receive
  split
  · rfl
  · split
    · rfl
    · exact absurd ⟨by omega, by omega, rfl⟩ (h (Branch.ofDatagram datagram))

/-- What a datagram does. -/
theorem receive_cases (s : SessionTable) (endpoint : Endpoint) (datagram : List UInt8) :
    (IsA .syn datagram ∧ s.receive endpoint datagram = s.syn endpoint datagram) ∨
      (IsA .ack datagram ∧ s.receive endpoint datagram = s.ack endpoint) ∨
      (¬ IsA .syn datagram ∧ ¬ IsA .ack datagram ∧ s.Quiet (s.receive endpoint datagram)) := by
  by_cases hkind : ∃ branch, IsA branch datagram
  · obtain ⟨branch, hbranch⟩ := hkind
    have hne (kind : Branch) (hdiff : kind ≠ branch) : ¬ IsA kind datagram :=
      fun h ↦ hdiff (h.unique hbranch)
    rw [receive_of_isA hbranch]
    cases branch with
    | syn => exact Or.inl ⟨hbranch, rfl⟩
    | ack => exact Or.inr (Or.inl ⟨hbranch, rfl⟩)
    | heartbeat => exact Or.inr (Or.inr ⟨hne _ (by decide), hne _ (by decide), quiet_heartbeat⟩)
    | data => exact Or.inr (Or.inr ⟨hne _ (by decide), hne _ (by decide), quiet_data⟩)
    | other => exact Or.inr (Or.inr ⟨hne _ (by decide), hne _ (by decide), .refl s⟩)
  · have hnone (branch : Branch) : ¬ IsA branch datagram := fun h ↦ hkind ⟨branch, h⟩
    rw [receive_of_not_isA hnone]
    exact Or.inr (Or.inr ⟨hnone _, hnone _, .refl s⟩)

/-! ## The loops of a tick -/

/-- Every round of the sweep is about a session in the map, under its own key. -/
theorem sweep_induction (motive : SessionTable → Prop) (hstart : motive s)
    (hround : ∀ s key x, motive s → s.sessions.find key = some x →
      motive (s.sweepSession (key, x))) : motive s.sweep := by
  suffices hloop : ∀ (nodes : List (Endpoint × SessionId)) (s : SessionTable),
      (nodes.map Prod.fst).Nodup → (∀ node ∈ nodes, s.sessions.find node.1 = some node.2) →
      motive s → motive (nodes.foldl sweepSession s) from
    hloop s.sessions.nodes s s.sessions.nodup_keys
      (fun _ hnode ↦ OrderedMap.find_eq_some.mpr hnode) hstart
  intro nodes
  induction nodes with
  | nil =>
    intro s _ _ hs
    exact hs
  | cons node rest ih =>
    intro s hnodup hfound hs
    rw [List.map_cons, List.nodup_cons] at hnodup
    rw [List.foldl_cons]
    apply ih (s.sweepSession node) hnodup.2
    · intro other hother
      have hne : other.1 ≠ node.1 := by
        intro heq
        exact hnodup.1 (heq ▸ List.mem_map_of_mem hother)
      have hbefore := hfound other (List.mem_cons_of_mem _ hother)
      unfold sweepSession
      split
      · simpa [hne] using hbefore
      · exact hbefore
    · exact hround s node.1 node.2 hs (hfound node List.mem_cons_self)

/-- The rounds of the drain take the sessions off the vector one by one. -/
theorem drain_induction (motive : List SessionId → SessionTable → Prop)
    (hstart : motive s.disconnected { s with disconnected := [] })
    (hround : ∀ x rest s, motive (x :: rest) s → motive rest (s.drainSession x)) :
    motive [] s.drain := by
  suffices hloop : ∀ (remaining : List SessionId) (s : SessionTable), motive remaining s →
      motive [] (remaining.foldl drainSession s) from
    hloop s.disconnected { s with disconnected := [] } hstart
  intro remaining
  induction remaining with
  | nil =>
    intro s hs
    exact hs
  | cons x rest ih =>
    intro s hs
    rw [List.foldl_cons]
    exact ih _ (hround x rest s hs)

end SessionTable

end ServerCore.UdpServer
