import Mathlib.Data.Nat.Count
import ServerCore.UdpServer.SessionManager
import ServerCore.UdpServer.TableRounds

/-!
# The session manager and the session table, side by side

A session of the manager is numbered, one of the table is named after its endpoint. `Ledger` is what of
the manager the table shows, and `Ledger.Shows` relates the two: the maps hold the same sessions under
the same keys, the counters agree, and the events of the table are the replies sent and what the handler
threads were started for. A lemma for each thing that the manager does to its ledger says what the table
has to do to keep up.
-/

namespace ServerCore.UdpServer

open Foundation

namespace SessionMap

variable {m : SessionMap} {name other : ℕ → SessionId} {o : OrderedMap Endpoint SessionId}
  {endpoint : Endpoint} {x : ℕ}

/-- The nodes of the ordered map are those of the map, under the names of the sessions. -/
def Files (m : SessionMap) (name : ℕ → SessionId) (o : OrderedMap Endpoint SessionId) : Prop :=
  o.nodes.Perm (m.map fun node ↦ (node.1, name node.2))

theorem mem_of_find (h : m.find endpoint = some x) : (endpoint, x) ∈ m := by
  obtain ⟨node, hnode, rfl⟩ := Option.map_eq_some_iff.mp h
  have hkey := List.find?_some hnode
  rw [decide_eq_true_eq] at hkey
  rw [← hkey]
  exact List.mem_of_find?_eq_some hnode

theorem not_mem_of_find (h : m.find endpoint = none) : (endpoint, x) ∉ m := by
  intro hmem
  rw [find, Option.map_eq_none_iff, List.find?_eq_none] at h
  exact h _ hmem (by simp)

theorem Files.find (h : m.Files name o) : o.find endpoint = (m.find endpoint).map name := by
  cases hfind : m.find endpoint with
  | none =>
    rw [Option.map_none, OrderedMap.find_eq_none]
    intro value hmem
    obtain ⟨node, hnode, heq⟩ := List.mem_map.mp (h.mem_iff.mp hmem)
    obtain ⟨rfl, -⟩ := Prod.mk.inj heq
    exact not_mem_of_find hfind hnode
  | some x =>
    rw [Option.map_some, OrderedMap.find_eq_some]
    exact h.mem_iff.mpr (List.mem_map_of_mem (mem_of_find hfind))

theorem Files.congr (h : m.Files name o) (hname : ∀ x ∈ m.values, name x = other x) :
    m.Files other o := by
  have hsame : m.map (fun node ↦ (node.1, name node.2)) = m.map fun node ↦ (node.1, other node.2) :=
    List.map_congr_left fun node hnode ↦ by rw [hname _ (List.mem_map_of_mem hnode)]
  unfold Files at h ⊢
  rwa [← hsame]

theorem Files.insert (h : m.Files name o) :
    (m.insert endpoint x).Files name (o.insert endpoint (name x)) := by
  unfold SessionMap.insert
  cases hfind : m.find endpoint with
  | none =>
    have hnone : o.find endpoint = none := by rw [h.find, hfind, Option.map_none]
    exact (OrderedMap.perm_insert hnone).trans (h.cons _)
  | some y =>
    have hsome : o.find endpoint = some (name y) := by rw [h.find, hfind, Option.map_some]
    rw [OrderedMap.insert_of_find hsome]
    exact h

theorem forall_mem_insert {p : Endpoint × ℕ → Prop} (h : ∀ node ∈ m, p node) (hnew : p (endpoint, x)) :
    ∀ node ∈ m.insert endpoint x, p node := by
  unfold SessionMap.insert
  split
  · exact h
  · exact List.forall_mem_cons.mpr ⟨hnew, h⟩

theorem Files.erase (h : m.Files name o) (hkey : ∀ node ∈ m, node.2 = x ↔ node.1 = endpoint) :
    (m.erase x).Files name (o.erase endpoint) := by
  have hfilter : m.erase x = m.filter fun node ↦ node.1 ≠ endpoint :=
    List.filter_congr fun node hnode ↦ by simp [hkey node hnode]
  have hperm := h.filter fun node ↦ node.1 ≠ endpoint
  rw [List.filter_map] at hperm
  unfold Files
  rw [hfilter]
  exact hperm

theorem Files.nodup_keys (h : m.Files name o) : (m.map Prod.fst).Nodup := by
  have hkeys := (h.map Prod.fst).nodup_iff.mp o.nodup_keys
  rwa [List.map_map] at hkeys

end SessionMap

/-- What of the session manager the table shows. `accepts` and `packets` say what the handler threads
were started for. -/
structure Ledger where
  endpoint : ℕ → Endpoint
  isAlive : ℕ → BitVec 16
  numSessions : ℕ
  pendingSessions : SessionMap
  sessions : SessionMap
  replies : List (Endpoint × Packet)
  accepts : List ℕ
  packets : List Delivery
  disconnects : List ℕ

namespace Ledger

/-- The name of a session in the table. -/
def sessionId (l : Ledger) (x : ℕ) : SessionId where
  endpoint := l.endpoint x
  index := Nat.count (fun y ↦ l.endpoint y = l.endpoint x) x

def node (l : Ledger) (x : ℕ) : Endpoint × SessionId :=
  (l.endpoint x, l.sessionId x)

/-- How many sessions were constructed for the endpoint. -/
def created (l : Ledger) (endpoint : Endpoint) : ℕ :=
  Nat.count (fun y ↦ l.endpoint y = endpoint) l.numSessions

/-- What a packet thread was started for, in the words of the table. -/
def delivery (l : Ledger) (d : Delivery) : SessionId × Packet :=
  (l.sessionId d.session, Packet.ofDatagram d.datagram)

/-- The sessions that the ledger and the vector name. -/
def mentioned (l : Ledger) (vector : List ℕ) : List ℕ :=
  l.pendingSessions.values ++ l.sessions.values ++ vector ++ l.accepts ++
    l.packets.map Delivery.session ++ l.disconnects

variable {l after : Ledger} {vector : List ℕ} {t u : SessionTable} {x y : ℕ}

theorem sessionId_inj (h : l.sessionId x = l.sessionId y) : x = y := by
  obtain ⟨hendpoint, hindex⟩ := SessionId.mk.inj h
  rw [hendpoint] at hindex
  exact Nat.count_injective (p := fun z ↦ l.endpoint z = l.endpoint y) hendpoint rfl hindex

/-! ## A session is constructed -/

/-- The ledger with one more session. -/
def constructed (l : Ledger) (endpoint : Endpoint) : Ledger :=
  { l with
    endpoint := Function.update l.endpoint l.numSessions endpoint
    isAlive := Function.update l.isAlive l.numSessions 0
    numSessions := l.numSessions + 1 }

theorem endpoint_constructed_self (endpoint : Endpoint) :
    (l.constructed endpoint).endpoint l.numSessions = endpoint :=
  Function.update_self _ _ _

theorem endpoint_constructed_of_lt (endpoint : Endpoint) (hx : x < l.numSessions) :
    (l.constructed endpoint).endpoint x = l.endpoint x :=
  Function.update_of_ne (Nat.ne_of_lt hx) _ _

theorem count_constructed (endpoint e : Endpoint) {n : ℕ} (hn : n ≤ l.numSessions) :
    Nat.count (fun y ↦ (l.constructed endpoint).endpoint y = e) n =
      Nat.count (fun y ↦ l.endpoint y = e) n := by
  apply le_antisymm
  · apply Nat.count_mono_left
    intro y hy hsame
    rwa [endpoint_constructed_of_lt endpoint (by omega)] at hsame
  · apply Nat.count_mono_left
    intro y hy hsame
    rwa [endpoint_constructed_of_lt endpoint (by omega)]

/-- Sessions constructed before keep their names. -/
theorem sessionId_constructed_of_lt (endpoint : Endpoint) (hx : x < l.numSessions) :
    (l.constructed endpoint).sessionId x = l.sessionId x := by
  unfold sessionId
  rw [endpoint_constructed_of_lt endpoint hx, count_constructed endpoint _ hx.le]

theorem sessionId_constructed_self (endpoint : Endpoint) :
    (l.constructed endpoint).sessionId l.numSessions = ⟨endpoint, l.created endpoint⟩ := by
  unfold sessionId
  rw [endpoint_constructed_self, count_constructed endpoint _ (le_refl _)]
  rfl

/-- The table shows the ledger, and `vector` is the vector `disconnected`. -/
structure Shows (l : Ledger) (vector : List ℕ) (t : SessionTable) : Prop where
  created : ∀ endpoint, t.created endpoint = l.created endpoint
  isAlive : ∀ x < l.numSessions, t.isAlive (l.sessionId x) = l.isAlive x
  pendingSessions : l.pendingSessions.Files l.sessionId t.pendingSessions
  sessions : l.sessions.Files l.sessionId t.sessions
  disconnected : t.disconnected.Perm (vector.map l.sessionId)
  replied : t.events.filterMap TableEvent.replied = l.replies
  accepted : t.events.filterMap TableEvent.accepted = (l.accepts.map l.sessionId).reverse
  delivered : t.events.filterMap TableEvent.delivered = (l.packets.map l.delivery).reverse
  disconnects : (t.events.filterMap TableEvent.disconnected).Perm (l.disconnects.map l.sessionId)
  pendingKeys : ∀ node ∈ l.pendingSessions, node.1 = l.endpoint node.2
  keys : ∀ node ∈ l.sessions, node.1 = l.endpoint node.2
  known : ∀ x ∈ l.mentioned vector, x < l.numSessions

/-- In a map with these keys a session and its endpoint stand for the same node. -/
theorem key_iff {m : SessionMap} {name : ℕ → SessionId} {o : OrderedMap Endpoint SessionId}
    (hfiles : m.Files name o) (hkeys : ∀ node ∈ m, node.1 = l.endpoint node.2)
    (hx : x ∈ m.values) : ∀ node ∈ m, node.2 = x ↔ node.1 = l.endpoint x := by
  intro node hnode
  constructor
  · rintro rfl
    exact hkeys node hnode
  · intro hkey
    obtain ⟨found, hfound, rfl⟩ := List.mem_map.mp hx
    rw [← hkeys found hfound] at hkey
    rw [List.inj_on_of_nodup_map hfiles.nodup_keys hnode hfound hkey]

namespace Shows

theorem of_alike (h : l.Shows vector u) (halike : t.Alike u) : l.Shows vector t where
  created endpoint := (congrFun halike.created endpoint).trans (h.created endpoint)
  isAlive x hx := (congrFun halike.isAlive _).trans (h.isAlive x hx)
  pendingSessions := by
    rw [halike.pendingSessions]
    exact h.pendingSessions
  sessions := by
    rw [halike.sessions]
    exact h.sessions
  disconnected := halike.disconnected.trans h.disconnected
  replied := halike.replied.trans h.replied
  accepted := halike.accepted.trans h.accepted
  delivered := halike.delivered.trans h.delivered
  disconnects := halike.disconnects.trans h.disconnects
  pendingKeys := h.pendingKeys
  keys := h.keys
  known := h.known

theorem known_pending (h : l.Shows vector t) (hx : x ∈ l.pendingSessions.values) :
    x < l.numSessions :=
  h.known x (by simp [mentioned, hx])

theorem known_session (h : l.Shows vector t) (hx : x ∈ l.sessions.values) :
    x < l.numSessions :=
  h.known x (by simp [mentioned, hx])

theorem known_vector (h : l.Shows vector t) (hx : x ∈ vector) : x < l.numSessions :=
  h.known x (by simp [mentioned, hx])

theorem known_accept (h : l.Shows vector t) (hx : x ∈ l.accepts) : x < l.numSessions :=
  h.known x (by simp [mentioned, hx])

theorem known_packet (h : l.Shows vector t) {d : Delivery} (hd : d ∈ l.packets) :
    d.session < l.numSessions :=
  h.known d.session (by simp [mentioned, List.mem_map_of_mem hd])

theorem known_disconnect (h : l.Shows vector t) (hx : x ∈ l.disconnects) : x < l.numSessions :=
  h.known x (by simp [mentioned, hx])

/-! ## What a step does to both -/

/-- A session is constructed. -/
theorem construct (h : l.Shows vector t) (endpoint : Endpoint) :
    (l.constructed endpoint).Shows vector { t with
      isAlive := Function.update t.isAlive ⟨endpoint, t.created endpoint⟩ 0
      created := Function.update t.created endpoint (t.created endpoint + 1) } := by
  have hmap (xs : List ℕ) (hxs : ∀ x ∈ xs, x < l.numSessions) :
      xs.map l.sessionId = xs.map (l.constructed endpoint).sessionId :=
    List.map_congr_left fun x hx ↦ (sessionId_constructed_of_lt endpoint (hxs x hx)).symm
  have hdelivery : l.packets.map l.delivery = l.packets.map (l.constructed endpoint).delivery :=
    List.map_congr_left fun d hd ↦
      Prod.ext (sessionId_constructed_of_lt endpoint (h.known_packet hd)).symm rfl
  exact {
    created := by
      intro e
      change Function.update t.created endpoint _ e = Nat.count _ (l.numSessions + 1)
      rw [Nat.count_succ, count_constructed endpoint e (le_refl _)]
      by_cases he : e = endpoint
      · rw [he, Function.update_self, if_pos (endpoint_constructed_self endpoint), h.created]
        rfl
      · rw [Function.update_of_ne he, if_neg, h.created]
        · rfl
        · rw [endpoint_constructed_self]
          exact Ne.symm he
    isAlive := by
      intro x hx
      change Function.update t.isAlive _ 0 _ = Function.update l.isAlive _ 0 x
      rw [h.created, ← sessionId_constructed_self]
      by_cases hnew : x = l.numSessions
      · rw [hnew, Function.update_self, Function.update_self]
      · have hlt : x < l.numSessions := lt_of_le_of_ne (Nat.le_of_lt_succ hx) hnew
        rw [Function.update_of_ne hnew, Function.update_of_ne fun hsame ↦ hnew (sessionId_inj hsame),
          sessionId_constructed_of_lt endpoint hlt, h.isAlive x hlt]
    pendingSessions := h.pendingSessions.congr fun x hx ↦
      (sessionId_constructed_of_lt endpoint (h.known_pending hx)).symm
    sessions := h.sessions.congr fun x hx ↦
      (sessionId_constructed_of_lt endpoint (h.known_session hx)).symm
    disconnected := by
      rw [← hmap vector fun _ ↦ h.known_vector]
      exact h.disconnected
    replied := h.replied
    accepted := by
      change _ = (l.accepts.map _).reverse
      rw [← hmap l.accepts fun _ ↦ h.known_accept]
      exact h.accepted
    delivered := by
      change _ = (l.packets.map _).reverse
      rw [← hdelivery]
      exact h.delivered
    disconnects := by
      change List.Perm _ (l.disconnects.map _)
      rw [← hmap l.disconnects fun _ ↦ h.known_disconnect]
      exact h.disconnects
    pendingKeys := fun node hnode ↦ (h.pendingKeys node hnode).trans
      (endpoint_constructed_of_lt endpoint (h.known_pending (List.mem_map_of_mem hnode))).symm
    keys := fun node hnode ↦ (h.keys node hnode).trans
      (endpoint_constructed_of_lt endpoint (h.known_session (List.mem_map_of_mem hnode))).symm
    known := fun x hx ↦ Nat.lt_succ_of_lt (h.known x hx) }

theorem addAlive (h : l.Shows vector t) (hx : x < l.numSessions) (change : BitVec 16) :
    { l with isAlive := Function.update l.isAlive x (l.isAlive x + change) }.Shows vector
      (t.addAlive (l.sessionId x) change) :=
  { h with
    isAlive := by
      intro y hy
      change Function.update t.isAlive _ _ (l.sessionId y) = Function.update l.isAlive _ _ y
      by_cases hyx : y = x
      · rw [hyx, Function.update_self, Function.update_self, h.isAlive x hx]
      · rw [Function.update_of_ne hyx, Function.update_of_ne fun hsame ↦ hyx (sessionId_inj hsame)]
        exact h.isAlive y hy }

theorem isAlive_addAlive (h : l.Shows vector t) (hx : x < l.numSessions) (change : BitVec 16) :
    (t.addAlive (l.sessionId x) change).isAlive (l.sessionId x) = l.isAlive x + change := by
  have hself : (t.addAlive (l.sessionId x) change).isAlive (l.sessionId x) =
      t.isAlive (l.sessionId x) + change :=
    Function.update_self _ _ _
  rw [hself, h.isAlive x hx]

theorem insertPending (h : l.Shows vector t) (hx : x < l.numSessions) :
    { l with pendingSessions := l.pendingSessions.insert (l.endpoint x) x }.Shows vector { t with
      pendingSessions := t.pendingSessions.insert (l.endpoint x) (l.sessionId x) } :=
  { h with
    pendingSessions := h.pendingSessions.insert
    pendingKeys := SessionMap.forall_mem_insert h.pendingKeys rfl
    known := by
      intro y hy
      have hvalues := @SessionMap.mem_values_insert l.pendingSessions (l.endpoint x) x y
      have hold := h.known y
      simp only [mentioned, List.mem_append] at hy hold
      grind }

theorem insertSession (h : l.Shows vector t) (hx : x < l.numSessions) :
    { l with sessions := l.sessions.insert (l.endpoint x) x }.Shows vector { t with
      sessions := t.sessions.insert (l.endpoint x) (l.sessionId x) } :=
  { h with
    sessions := h.sessions.insert
    keys := SessionMap.forall_mem_insert h.keys rfl
    known := by
      intro y hy
      have hvalues := @SessionMap.mem_values_insert l.sessions (l.endpoint x) x y
      have hold := h.known y
      simp only [mentioned, List.mem_append] at hy hold
      grind }

theorem erasePending (h : l.Shows vector t) (hx : x ∈ l.pendingSessions.values) :
    { l with pendingSessions := l.pendingSessions.erase x }.Shows vector { t with
      pendingSessions := t.pendingSessions.erase (l.endpoint x) } :=
  { h with
    pendingSessions := h.pendingSessions.erase (key_iff h.pendingSessions h.pendingKeys hx)
    pendingKeys := fun node hnode ↦ h.pendingKeys node (List.mem_of_mem_filter hnode)
    known := by
      intro y hy
      have hold := h.known y
      simp only [mentioned, List.mem_append, SessionMap.mem_values_erase] at hy hold
      grind }

/-- A session goes from the map to the vector. -/
theorem disconnect (h : l.Shows vector t) (hx : x ∈ l.sessions.values) :
    { l with sessions := l.sessions.erase x }.Shows (vector ++ [x]) { t with
      disconnected := t.disconnected ++ [l.sessionId x]
      sessions := t.sessions.erase (l.endpoint x) } :=
  { h with
    sessions := h.sessions.erase (key_iff h.sessions h.keys hx)
    disconnected := by
      rw [List.map_append]
      exact h.disconnected.append_right _
    keys := fun node hnode ↦ h.keys node (List.mem_of_mem_filter hnode)
    known := by
      intro y hy
      have hold := h.known y
      have hlt := h.known_session hx
      simp only [mentioned, List.mem_append, SessionMap.mem_values_erase, List.mem_singleton] at hy hold
      grind }

/-- The vector is emptied. -/
theorem empty (h : l.Shows vector t) : l.Shows [] { t with disconnected := [] } :=
  { h with
    disconnected := List.Perm.refl _
    known := by
      intro y hy
      have hold := h.known y
      simp only [mentioned, List.mem_append] at hy hold
      grind }

/-- A session stays in the vector. -/
theorem keep (h : l.Shows vector t) (hx : x < l.numSessions) :
    l.Shows (vector ++ [x]) { t with disconnected := t.disconnected ++ [l.sessionId x] } :=
  { h with
    disconnected := by
      rw [List.map_append]
      exact h.disconnected.append_right _
    known := by
      intro y hy
      have hold := h.known y
      simp only [mentioned, List.mem_append, List.mem_singleton] at hy hold
      grind }

/-! ## What is seen of the sessions -/

theorem reply (h : l.Shows vector t) (endpoint : Endpoint) (packet : Packet) :
    { l with replies := (endpoint, packet) :: l.replies }.Shows vector { t with
      events := .reply endpoint packet :: t.events } :=
  { h with replied := congrArg ((endpoint, packet) :: ·) h.replied }

theorem accept (h : l.Shows vector t) (hx : x < l.numSessions) (entry : Option SessionId) :
    { l with accepts := l.accepts ++ [x] }.Shows vector { t with
      events := .accept (l.sessionId x) entry :: t.events } :=
  { h with
    accepted := by
      rw [List.map_append, List.reverse_append]
      exact congrArg (l.sessionId x :: ·) h.accepted
    known := by
      intro y hy
      have hold := h.known y
      simp only [mentioned, List.mem_append, List.mem_singleton] at hy hold
      grind }

theorem packet (h : l.Shows vector t) {d : Delivery} (hd : d.session < l.numSessions) :
    { l with packets := l.packets ++ [d] }.Shows vector { t with
      events := .packet (l.sessionId d.session) (Packet.ofDatagram d.datagram) :: t.events } :=
  { h with
    delivered := by
      rw [List.map_append, List.reverse_append]
      exact congrArg (l.delivery d :: ·) h.delivered
    known := by
      intro y hy
      have hold := h.known y
      simp only [mentioned, List.mem_append, List.map_append, List.map_singleton,
        List.mem_singleton] at hy hold
      grind }

theorem ended (h : l.Shows vector t) (hx : x < l.numSessions) :
    { l with disconnects := x :: l.disconnects }.Shows vector { t with
      events := .disconnect (l.sessionId x) :: t.events
      deleted := l.sessionId x :: t.deleted } :=
  { h with
    disconnects := h.disconnects.cons _
    known := by
      intro y hy
      have hold := h.known y
      simp only [mentioned, List.mem_append, List.mem_cons] at hy hold
      grind }

end Shows

end Ledger

end ServerCore.UdpServer
