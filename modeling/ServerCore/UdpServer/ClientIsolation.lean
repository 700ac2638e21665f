import ServerCore.Foundation.Projection
import ServerCore.UdpServer.SessionOwnership

/-!
# Isolation of clients

The server from the point of view of one endpoint is a small machine of its own: at most one pending
and one established session, the sessions queued for disconnection, and what was sent and called for
them. `SessionTable.view` cuts this machine out of the table. Every datagram of another endpoint
leaves the view alone, and what a datagram of the endpoint or a tick does to the view depends on the
view only. So two runs that have the same datagrams of the endpoint and the same ticks show it the same.
-/

namespace ServerCore.UdpServer

open Foundation

/-- The endpoint that an event is about. -/
def TableEvent.endpoint : TableEvent → Endpoint
  | .reply endpoint _ => endpoint
  | .accept session _ | .packet session _ | .disconnect session => session.endpoint

/-- What concerns one endpoint. `isAlive` is indexed by the number of the session among those of the
endpoint. -/
@[ext]
structure ClientView where
  isAlive : ℕ → BitVec 16
  created : ℕ
  pending : Option SessionId
  established : Option SessionId
  disconnected : List SessionId
  events : List TableEvent

namespace ClientView

variable (endpoint : Endpoint)

def addAlive (c : ClientView) (x : SessionId) (change : BitVec 16) : ClientView :=
  { c with isAlive := Function.update c.isAlive x.index (c.isAlive x.index + change) }

def syn (c : ClientView) (datagram : List UInt8) : ClientView :=
  { c with
    isAlive := Function.update c.isAlive c.created 0
    created := c.created + 1
    pending := c.pending.or (some ⟨endpoint, c.created⟩)
    events := .reply endpoint ⟨2, -2, (datagram.drop 4).take 2⟩ :: c.events }

def ack (c : ClientView) : ClientView :=
  match c.pending with
  | none => c
  | some x =>
    { c with
      pending := none
      established := c.established.or (some x)
      events := .accept x (c.established.or (some x)) :: c.events }

def heartbeat (c : ClientView) : ClientView :=
  match c.established with
  | none => c
  | some x => c.addAlive x 1

def data (c : ClientView) (datagram : List UInt8) : ClientView :=
  match c.established with
  | none => c
  | some x =>
    if -2 < (c.isAlive x.index + 1).toInt then
      { c.addAlive x 1 with events := .packet x (Packet.ofDatagram datagram) :: c.events }
    else c.addAlive x 1

def serve (c : ClientView) (datagram : List UInt8) : Branch → ClientView
  | .syn => c.syn endpoint datagram
  | .ack => c.ack
  | .heartbeat => c.heartbeat
  | .data => c.data datagram
  | .other => c

def receive (c : ClientView) (datagram : List UInt8) : ClientView :=
  if socketBufSize < datagram.length then c
  else if datagram.length < 4 then c
  else c.serve endpoint datagram (Branch.ofDatagram datagram)

def sweepSession (c : ClientView) (x : SessionId) : ClientView :=
  if (c.isAlive x.index + (-1)).toInt < -1 then
    { c.addAlive x (-1) with disconnected := c.disconnected ++ [x], established := none }
  else c.addAlive x (-1)

def drainSession (c : ClientView) (x : SessionId) : ClientView :=
  if (c.isAlive x.index + (-1)).toInt = -3 then
    { c.addAlive x (-1) with events := .disconnect x :: c.events }
  else { c.addAlive x (-1) with disconnected := c.disconnected ++ [x] }

def drain (c : ClientView) : ClientView :=
  c.disconnected.foldl drainSession { c with disconnected := [] }

def tick (c : ClientView) : ClientView :=
  (c.established.toList.foldl sweepSession c).drain

def step (c : ClientView) : TableAction → ClientView
  | .receive _ datagram => c.receive endpoint datagram
  | .tick => c.tick

end ClientView

/-- A tick, or a datagram from the endpoint. -/
def TableAction.Concerns (endpoint : Endpoint) : TableAction → Prop
  | .receive other _ => other = endpoint
  | .tick => True

instance (endpoint : Endpoint) (action : TableAction) : Decidable (action.Concerns endpoint) := by
  unfold TableAction.Concerns
  split <;> infer_instance

namespace SessionTable

variable {s : SessionTable} {endpoint other : Endpoint} {datagram : List UInt8} {x : SessionId}

def view (s : SessionTable) (endpoint : Endpoint) : ClientView where
  isAlive index := s.isAlive ⟨endpoint, index⟩
  created := s.created endpoint
  pending := s.pendingSessions.find endpoint
  established := s.sessions.find endpoint
  disconnected := s.disconnected.filter fun x ↦ x.endpoint = endpoint
  events := s.events.filter fun event ↦ event.endpoint = endpoint

/-! ## Datagrams -/

theorem view_addAlive {change : BitVec 16} :
    (s.addAlive x change).view x.endpoint = (s.view x.endpoint).addAlive x change := by
  ext : 1
  case isAlive =>
    funext index
    by_cases heq : index = x.index
    · subst heq
      simp [view, addAlive, ClientView.addAlive]
    · have hne : (⟨x.endpoint, index⟩ : SessionId) ≠ x :=
        fun h ↦ heq (congrArg SessionId.index h)
      simp [view, addAlive, ClientView.addAlive, heq, hne]
  all_goals rfl

theorem view_addAlive_of_ne {change : BitVec 16} (hne : x.endpoint ≠ endpoint) :
    (s.addAlive x change).view endpoint = s.view endpoint := by
  ext : 1
  case isAlive =>
    funext index
    have hother : (⟨endpoint, index⟩ : SessionId) ≠ x :=
      fun h ↦ hne (congrArg SessionId.endpoint h.symm)
    simp [view, addAlive, hother]
  all_goals rfl

theorem view_syn :
    (s.syn endpoint datagram).view endpoint = (s.view endpoint).syn endpoint datagram := by
  ext : 1
  case isAlive =>
    funext index
    by_cases heq : index = s.created endpoint
    · subst heq
      simp [view, syn, ClientView.syn]
    · simp [view, syn, ClientView.syn, heq]
  case pending => exact OrderedMap.find_insert_same
  all_goals simp [view, syn, ClientView.syn, TableEvent.endpoint]

theorem view_syn_of_ne (hne : other ≠ endpoint) :
    (s.syn other datagram).view endpoint = s.view endpoint := by
  ext : 1
  case pending => exact OrderedMap.find_insert_of_ne (Ne.symm hne)
  all_goals simp [view, syn, TableEvent.endpoint, hne, Ne.symm hne]

theorem view_ack (hs : s.SessionsFiled) : (s.ack endpoint).view endpoint = (s.view endpoint).ack := by
  cases hfind : s.pendingSessions.find endpoint with
  | none =>
    rw [ack_of_none hfind]
    simp [ClientView.ack, view, hfind]
  | some x =>
    have hkey := hs.pendingKey endpoint x hfind
    subst hkey
    rw [ack_of_some hfind]
    ext : 1
    all_goals simp [view, accepted, ClientView.ack, hfind, OrderedMap.find_insert_same,
      TableEvent.endpoint]

theorem view_ack_of_ne (hs : s.SessionsFiled) (hne : other ≠ endpoint) :
    (s.ack other).view endpoint = s.view endpoint := by
  cases hfind : s.pendingSessions.find other with
  | none => rw [ack_of_none hfind]
  | some x =>
    have hkey := hs.pendingKey other x hfind
    subst hkey
    rw [ack_of_some hfind]
    ext : 1
    all_goals simp [view, accepted, OrderedMap.find_insert_of_ne (Ne.symm hne), TableEvent.endpoint,
      hne, Ne.symm hne]

theorem view_heartbeat (hs : s.SessionsFiled) :
    (s.heartbeat endpoint).view endpoint = (s.view endpoint).heartbeat := by
  unfold heartbeat ClientView.heartbeat
  cases hfind : s.sessions.find endpoint with
  | none => simp [view, hfind]
  | some x =>
    have hkey := hs.key endpoint x hfind
    subst hkey
    have hview : (s.view x.endpoint).established = some x := hfind
    rw [hview]
    exact view_addAlive

theorem view_heartbeat_of_ne (hs : s.SessionsFiled) (hne : other ≠ endpoint) :
    (s.heartbeat other).view endpoint = s.view endpoint := by
  unfold heartbeat
  cases hfind : s.sessions.find other with
  | none => rfl
  | some x => exact view_addAlive_of_ne (hs.key other x hfind ▸ hne)

/-- An event at an endpoint. -/
theorem view_event {event : TableEvent} :
    ({ s with events := event :: s.events } : SessionTable).view endpoint =
      if event.endpoint = endpoint then
        { s.view endpoint with events := event :: (s.view endpoint).events }
      else s.view endpoint := by
  split
  all_goals
    rename_i h
    ext : 1
    all_goals simp [view, h]

theorem view_data (hs : s.SessionsFiled) :
    (s.data endpoint datagram).view endpoint = (s.view endpoint).data datagram := by
  unfold data ClientView.data
  cases hfind : s.sessions.find endpoint with
  | none => simp [view, hfind]
  | some x =>
    have hkey := hs.key endpoint x hfind
    subst hkey
    have hview : (s.view x.endpoint).established = some x := hfind
    rw [hview]
    by_cases halive : -2 < (s.isAlive x + 1).toInt
    · have hdelivered : -2 < ((s.view x.endpoint).isAlive x.index + 1).toInt := halive
      simp only [if_pos halive, if_pos hdelivered, ← view_addAlive]
      exact (view_event (s := s.addAlive x 1)).trans (if_pos rfl)
    · have hdropped : ¬ -2 < ((s.view x.endpoint).isAlive x.index + 1).toInt := halive
      simp only [if_neg halive, if_neg hdropped]
      exact view_addAlive

theorem view_data_of_ne (hs : s.SessionsFiled) (hne : other ≠ endpoint) :
    (s.data other datagram).view endpoint = s.view endpoint := by
  unfold data
  cases hfind : s.sessions.find other with
  | none => rfl
  | some x =>
    have hkey : x.endpoint ≠ endpoint := hs.key other x hfind ▸ hne
    simp only
    split
    · calc
        _ = if x.endpoint = endpoint then _ else (s.addAlive x 1).view endpoint :=
          view_event (s := s.addAlive x 1)
        _ = (s.addAlive x 1).view endpoint := if_neg hkey
        _ = s.view endpoint := view_addAlive_of_ne hkey
    · exact view_addAlive_of_ne hkey

theorem view_serve (hs : s.SessionsFiled) (branch : Branch) :
    (s.serve endpoint datagram branch).view endpoint =
      (s.view endpoint).serve endpoint datagram branch := by
  cases branch with
  | syn => exact view_syn
  | ack => exact view_ack hs
  | heartbeat => exact view_heartbeat hs
  | data => exact view_data hs
  | other => rfl

theorem view_serve_of_ne (hs : s.SessionsFiled) (hne : other ≠ endpoint) (branch : Branch) :
    (s.serve other datagram branch).view endpoint = s.view endpoint := by
  cases branch with
  | syn => exact view_syn_of_ne hne
  | ack => exact view_ack_of_ne hs hne
  | heartbeat => exact view_heartbeat_of_ne hs hne
  | data => exact view_data_of_ne hs hne
  | other => rfl

theorem view_receive (hs : s.SessionsFiled) :
    (s.receive endpoint datagram).view endpoint = (s.view endpoint).receive endpoint datagram := by
  unfold receive ClientView.receive
  split
  · rfl
  · split
    · rfl
    · exact view_serve hs _

theorem view_receive_of_ne (hs : s.SessionsFiled) (hne : other ≠ endpoint) :
    (s.receive other datagram).view endpoint = s.view endpoint := by
  unfold receive
  split
  · rfl
  · split
    · rfl
    · exact view_serve_of_ne hs hne _

/-! ## Ticks -/

theorem view_sweepSession :
    (s.sweepSession (x.endpoint, x)).view x.endpoint = (s.view x.endpoint).sweepSession x := by
  unfold sweepSession ClientView.sweepSession
  by_cases hgone : (s.isAlive x + (-1)).toInt < -1
  · have hviewed : ((s.view x.endpoint).isAlive x.index + (-1)).toInt < -1 := hgone
    simp only [if_pos hgone, if_pos hviewed, ← view_addAlive]
    ext : 1
    all_goals simp [view, addAlive]
  · have hviewed : ¬ ((s.view x.endpoint).isAlive x.index + (-1)).toInt < -1 := hgone
    simp only [if_neg hgone, if_neg hviewed]
    exact view_addAlive

theorem view_sweepSession_of_ne (hne : x.endpoint ≠ endpoint) :
    (s.sweepSession (x.endpoint, x)).view endpoint = s.view endpoint := by
  have hlost : (s.addAlive x (-1)).view endpoint = s.view endpoint := view_addAlive_of_ne hne
  unfold sweepSession
  dsimp only
  split
  · rw [← hlost]
    ext : 1
    all_goals simp [view, addAlive, hne, Ne.symm hne]
  · exact hlost

/-- The sweep meets the one session of the endpoint, if there is one. -/
theorem view_sweep (hs : s.SessionsFiled) : s.sweep.view endpoint =
    (s.view endpoint).established.toList.foldl ClientView.sweepSession (s.view endpoint) := by
  have hfiled : ∀ node ∈ s.sessions.nodes, node.1 = node.2.endpoint :=
    fun node hnode ↦ hs.key node.1 node.2 (OrderedMap.find_eq_some.mpr hnode)
  have hprojects : Projects (fun _ ↦ True) (fun node : Endpoint × SessionId ↦ node.1 = endpoint)
      (fun s ↦ view s endpoint) sweepSession (fun c node ↦ c.sweepSession node.2)
      s.sessions.nodes := by
    refine ⟨fun _ _ _ _ ↦ trivial, ?_, ?_⟩
    · rintro s ⟨key, x⟩ hnode - hown
      obtain rfl : key = x.endpoint := hfiled _ hnode
      obtain rfl : x.endpoint = endpoint := hown
      exact view_sweepSession
    · rintro s ⟨key, x⟩ hnode - hother
      obtain rfl : key = x.endpoint := hfiled _ hnode
      exact view_sweepSession_of_ne hother
  calc
    s.sweep.view endpoint = (s.sessions.nodes.filter fun node ↦ node.1 = endpoint).foldl
        (fun c node ↦ c.sweepSession node.2) (s.view endpoint) := hprojects.view_foldl trivial
    _ = _ := by
      rw [OrderedMap.filter_key, List.foldl_map]
      rfl

theorem view_drainSession :
    (s.drainSession x).view x.endpoint = (s.view x.endpoint).drainSession x := by
  unfold drainSession ClientView.drainSession
  by_cases hgone : (s.isAlive x + (-1)).toInt = -3
  · have hviewed : ((s.view x.endpoint).isAlive x.index + (-1)).toInt = -3 := hgone
    simp only [if_pos hgone, if_pos hviewed, ← view_addAlive]
    ext : 1
    all_goals simp [view, addAlive, TableEvent.endpoint]
  · have hviewed : ¬ ((s.view x.endpoint).isAlive x.index + (-1)).toInt = -3 := hgone
    simp only [if_neg hgone, if_neg hviewed, ← view_addAlive]
    ext : 1
    all_goals simp [view, addAlive]

theorem view_drainSession_of_ne (hne : x.endpoint ≠ endpoint) :
    (s.drainSession x).view endpoint = s.view endpoint := by
  have hlost : (s.addAlive x (-1)).view endpoint = s.view endpoint := view_addAlive_of_ne hne
  unfold drainSession
  rw [← hlost]
  split
  · ext : 1
    all_goals simp [view, addAlive, TableEvent.endpoint, hne]
  · ext : 1
    all_goals simp [view, addAlive, hne]

theorem view_drain : s.drain.view endpoint = (s.view endpoint).drain := by
  have hprojects : Projects (fun _ ↦ True) (fun x : SessionId ↦ x.endpoint = endpoint)
      (fun s ↦ view s endpoint) drainSession ClientView.drainSession s.disconnected := by
    refine ⟨fun _ _ _ _ ↦ trivial, ?_, ?_⟩
    · rintro s x - - rfl
      exact view_drainSession
    · rintro s x - - hother
      exact view_drainSession_of_ne hother
  have hloop : (s.disconnected.foldl drainSession { s with disconnected := [] }).view endpoint =
      (s.disconnected.filter fun x ↦ x.endpoint = endpoint).foldl ClientView.drainSession
        (view { s with disconnected := [] } endpoint) := hprojects.view_foldl trivial
  exact hloop

theorem view_tick (hs : s.SessionsFiled) : s.tick.view endpoint = (s.view endpoint).tick := by
  unfold tick ClientView.tick
  rw [view_drain, view_sweep hs]

/-! ## Runs -/

theorem projects_step (endpoint : Endpoint) (actions : List TableAction) :
    Projects SessionsFiled (TableAction.Concerns endpoint) (fun s ↦ view s endpoint) step
      (ClientView.step endpoint) actions := by
  refine ⟨fun s action _ hs ↦ sessionsFiled_step hs, ?_, ?_⟩
  · rintro s action - hs hown
    cases action with
    | receive other datagram =>
      obtain rfl : other = endpoint := hown
      exact view_receive hs
    | tick => exact view_tick hs
  · rintro s action - hs hother
    cases action with
    | receive other datagram => exact view_receive_of_ne hs hother
    | tick => exact absurd trivial hother

/-- The view after a run is what the machine of the endpoint makes of the datagrams of the endpoint
and the ticks. -/
theorem view_run (actions : List TableAction) (endpoint : Endpoint) :
    (run actions).view endpoint = (actions.filter fun action ↦ action.Concerns endpoint).foldl
      (ClientView.step endpoint) (initial.view endpoint) :=
  (projects_step endpoint actions).view_foldl sessionsFiled_initial

/-- **Client isolation.** After two sequences of datagrams and ticks that have the same datagrams of an
endpoint and the same ticks, in the same order, the state of the endpoint is the same, and so is what
was sent to it and which handlers were called for it. -/
theorem view_run_eq_of_concerns_eq (first second : List TableAction) (endpoint : Endpoint)
    (h : (first.filter fun action ↦ action.Concerns endpoint) =
      second.filter fun action ↦ action.Concerns endpoint) :
    (run first).view endpoint = (run second).view endpoint := by
  rw [view_run, view_run, h]

/-- A client that connects and is timed out does not notice that another one connects meanwhile. -/
theorem view_run_eq_of_concerns_eq_applies :
    (run [.receive ⟨1, 1⟩ synDatagram, .receive ⟨2, 1⟩ synDatagram, .receive ⟨2, 1⟩ ackDatagram,
        .receive ⟨1, 1⟩ ackDatagram, .tick, .receive ⟨2, 1⟩ synDatagram, .tick]).view ⟨1, 1⟩ =
      (run [.receive ⟨1, 1⟩ synDatagram, .receive ⟨1, 1⟩ ackDatagram, .tick, .tick]).view ⟨1, 1⟩ :=
  view_run_eq_of_concerns_eq _ _ _ (by decide)

end SessionTable

end ServerCore.UdpServer
