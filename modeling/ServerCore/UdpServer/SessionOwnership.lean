import Mathlib.Data.List.Count
import Mathlib.Tactic.Ring
import ServerCore.UdpServer.SessionTable

/-!
# Who holds a session

A session that was constructed and not deleted should be held by one of the two maps or by the vector
`disconnected`. Ticks only pass sessions on. The handshake loses them: SYN constructs a session that
`insert` ignores when the endpoint is pending, and ACK takes a session out of one map that the other
one ignores when the endpoint is established. The main theorem says that these are the only leaks.
-/

namespace ServerCore.UdpServer

open Foundation

namespace SessionTable

variable {s after : SessionTable} {endpoint : Endpoint} {datagram : List UInt8} {x : SessionId}

def Constructed (s : SessionTable) (x : SessionId) : Prop :=
  x.index < s.created x.endpoint

/-- How many times the two maps and the vector hold a session. -/
def holders (s : SessionTable) (x : SessionId) : ℕ :=
  s.pendingSessions.values.count x + s.sessions.values.count x + s.disconnected.count x

/-- Sessions are filed under their own endpoints, and each one that was constructed and not deleted is
held once. -/
structure SessionsHeld (s : SessionTable) : Prop where
  pendingKey : ∀ key x, s.pendingSessions.find key = some x → key = x.endpoint
  key : ∀ key x, s.sessions.find key = some x → key = x.endpoint
  held : ∀ x, s.Constructed x → x ∉ s.deleted → s.holders x = 1

/-- No SYN from an endpoint that is pending, and no ACK that would establish an endpoint twice. -/
def HandshakeOnce (s : SessionTable) : TableAction → Prop
  | .receive endpoint datagram =>
    (IsA .syn datagram → s.pendingSessions.find endpoint = none) ∧
      (IsA .ack datagram → s.pendingSessions.find endpoint ≠ none →
        s.sessions.find endpoint = none)
  | .tick => True

/-- How many times a session is held or was deleted. -/
def total (s : SessionTable) (x : SessionId) : ℕ :=
  s.holders x + s.deleted.count x

/-- Sessions are filed under their own endpoints, and held or deleted once at most. -/
structure SessionsFiled (s : SessionTable) : Prop where
  pendingKey : ∀ key x, s.pendingSessions.find key = some x → key = x.endpoint
  key : ∀ key x, s.sessions.find key = some x → key = x.endpoint
  once : ∀ x, s.total x ≤ 1
  constructed : ∀ x, s.total x ≠ 0 → s.Constructed x

theorem sessionsFiled_initial : initial.SessionsFiled where
  pendingKey := by simp [initial, OrderedMap.find, OrderedMap.empty]
  key := by simp [initial, OrderedMap.find, OrderedMap.empty]
  once := by simp [total, holders, initial, OrderedMap.values, OrderedMap.empty]
  constructed := by simp [total, holders, initial, OrderedMap.values, OrderedMap.empty]

/-- With the invariant, being held once means not to have been lost. -/
theorem sessionsHeld_iff (hs : s.SessionsFiled) :
    s.SessionsHeld ↔ ∀ x, s.Constructed x → s.total x = 1 := by
  constructor
  · intro hheld x hx
    have honce := hs.once x
    unfold total at honce ⊢
    by_cases hdeleted : x ∈ s.deleted
    · have hpos := List.count_pos_iff.mpr hdeleted
      omega
    · have hholders := hheld.held x hx hdeleted
      omega
  · intro htotal
    refine ⟨hs.pendingKey, hs.key, ?_⟩
    intro x hx hdeleted
    have hsum := htotal x hx
    rw [total, List.count_eq_zero.mpr hdeleted] at hsum
    exact hsum

/-! ## SYN -/

/-- The session that a SYN constructs. -/
def newSession (s : SessionTable) (endpoint : Endpoint) : SessionId :=
  ⟨endpoint, s.created endpoint⟩

theorem constructed_syn :
    (s.syn endpoint datagram).Constructed x ↔ x = s.newSession endpoint ∨ s.Constructed x := by
  obtain ⟨other, index⟩ := x
  unfold Constructed syn newSession
  by_cases hother : other = endpoint
  · subst hother
    simp only [Function.update_self, SessionId.mk.injEq, true_and]
    omega
  · simp [hother]

theorem total_newSession (hs : s.SessionsFiled) : s.total (s.newSession endpoint) = 0 := by
  by_contra hne
  have hlt := hs.constructed _ hne
  simp [Constructed, newSession] at hlt

theorem total_syn_of_none (hnone : s.pendingSessions.find endpoint = none) :
    (s.syn endpoint datagram).total x =
      s.total x + if s.newSession endpoint = x then 1 else 0 := by
  calc
    (s.syn endpoint datagram).total x =
        (s.pendingSessions.insert endpoint (s.newSession endpoint)).values.count x +
          s.sessions.values.count x + s.disconnected.count x + s.deleted.count x := rfl
    _ = (s.pendingSessions.values.count x + if s.newSession endpoint = x then 1 else 0) +
          s.sessions.values.count x + s.disconnected.count x + s.deleted.count x := by
      rw [OrderedMap.count_values_insert hnone]
    _ = s.total x + if s.newSession endpoint = x then 1 else 0 := by
      rw [total, holders]
      ring

theorem total_syn_of_some {found : SessionId} (hsome : s.pendingSessions.find endpoint = some found) :
    (s.syn endpoint datagram).total x = s.total x := by
  change ((s.pendingSessions.insert endpoint _).values.count x + _ + _) + _ = _
  rw [OrderedMap.insert_of_find hsome]
  rfl

theorem sessionsFiled_syn (hs : s.SessionsFiled) : (s.syn endpoint datagram).SessionsFiled := by
  cases hfind : s.pendingSessions.find endpoint with
  | none =>
    refine ⟨?_, hs.key, ?_, ?_⟩
    · intro key x hx
      change (s.pendingSessions.insert endpoint _).find key = some x at hx
      rw [OrderedMap.find_insert hfind] at hx
      split at hx
      · rename_i heq
        rw [heq, ← Option.some.inj hx]
      · exact hs.pendingKey key x hx
    · intro x
      rw [total_syn_of_none hfind]
      split
      · rename_i heq
        rw [← heq, total_newSession hs]
      · exact hs.once x
    · intro x hx
      rw [total_syn_of_none hfind] at hx
      rw [constructed_syn]
      split at hx
      · rename_i heq
        exact Or.inl heq.symm
      · exact Or.inr (hs.constructed x hx)
  | some found =>
    refine ⟨?_, hs.key, ?_, ?_⟩
    · intro key x hx
      change (s.pendingSessions.insert endpoint _).find key = some x at hx
      rw [OrderedMap.insert_of_find hfind] at hx
      exact hs.pendingKey key x hx
    · intro x
      rw [total_syn_of_some hfind]
      exact hs.once x
    · intro x hx
      rw [total_syn_of_some hfind] at hx
      exact constructed_syn.mpr (Or.inr (hs.constructed x hx))

/-- A SYN loses its session exactly if the endpoint is pending. -/
theorem sessionsHeld_syn_iff (hs : s.SessionsFiled) (hheld : s.SessionsHeld) :
    (s.syn endpoint datagram).SessionsHeld ↔ s.pendingSessions.find endpoint = none := by
  rw [sessionsHeld_iff (sessionsFiled_syn hs)]
  rw [sessionsHeld_iff hs] at hheld
  constructor
  · intro hafter
    by_contra hsome
    obtain ⟨found, hfound⟩ := Option.ne_none_iff_exists'.mp hsome
    have hnew := hafter (s.newSession endpoint) (constructed_syn.mpr (Or.inl rfl))
    rw [total_syn_of_some hfound, total_newSession hs] at hnew
    cases hnew
  · intro hnone x hx
    rw [total_syn_of_none hnone]
    rcases constructed_syn.mp hx with rfl | hold
    · rw [total_newSession hs, if_pos rfl]
    · have hne : s.newSession endpoint ≠ x := by
        rintro rfl
        simp [Constructed, newSession] at hold
      rw [if_neg hne, hheld x hold]

/-! ## ACK -/

theorem ack_of_none (hnone : s.pendingSessions.find endpoint = none) : s.ack endpoint = s := by
  unfold ack
  rw [hnone]

/-- The state after an ACK that has found a session. -/
def accepted (s : SessionTable) (endpoint : Endpoint) (x : SessionId) : SessionTable :=
  { s with
    pendingSessions := s.pendingSessions.erase endpoint
    sessions := s.sessions.insert x.endpoint x
    events := .accept x ((s.sessions.insert x.endpoint x).find x.endpoint) :: s.events }

theorem ack_of_some (hsome : s.pendingSessions.find endpoint = some x) :
    s.ack endpoint = s.accepted endpoint x := by
  unfold ack
  rw [hsome]
  rfl

theorem total_accepted_of_none {y : SessionId} (hsome : s.pendingSessions.find endpoint = some x)
    (hnone : s.sessions.find x.endpoint = none) :
    (s.accepted endpoint x).total y = s.total y := by
  have herase := OrderedMap.count_values_erase hsome y
  have hinsert : (s.sessions.insert x.endpoint x).values.count y = _ :=
    OrderedMap.count_values_insert hnone y
  unfold total holders accepted
  simp only
  omega

theorem total_accepted_of_some {y found : SessionId}
    (hsome : s.pendingSessions.find endpoint = some x)
    (hfound : s.sessions.find x.endpoint = some found) :
    s.total y = (s.accepted endpoint x).total y + if x = y then 1 else 0 := by
  have herase := OrderedMap.count_values_erase hsome y
  unfold total holders accepted
  simp only
  rw [OrderedMap.insert_of_find hfound]
  omega

theorem sessionsFiled_accepted (hs : s.SessionsFiled)
    (hsome : s.pendingSessions.find endpoint = some x) :
    (s.accepted endpoint x).SessionsFiled := by
  have hle (y : SessionId) : (s.accepted endpoint x).total y ≤ s.total y := by
    cases hfind : s.sessions.find x.endpoint with
    | none => rw [total_accepted_of_none hsome hfind]
    | some found =>
      have htotal := total_accepted_of_some (y := y) hsome hfind
      omega
  refine ⟨?_, ?_, ?_, ?_⟩
  · intro key y hy
    change (s.pendingSessions.erase endpoint).find key = some y at hy
    rw [OrderedMap.find_erase] at hy
    split at hy
    · cases hy
    · exact hs.pendingKey key y hy
  · intro key y hy
    change (s.sessions.insert x.endpoint x).find key = some y at hy
    cases hfind : s.sessions.find x.endpoint with
    | none =>
      rw [OrderedMap.find_insert hfind] at hy
      split at hy
      · rename_i heq
        rw [heq, ← Option.some.inj hy]
      · exact hs.key key y hy
    | some found =>
      rw [OrderedMap.insert_of_find hfind] at hy
      exact hs.key key y hy
  · intro y
    exact (hle y).trans (hs.once y)
  · intro y hy
    have hbefore := hle y
    exact hs.constructed y (by omega)

/-- An ACK loses the pending session exactly if the endpoint is established. -/
theorem sessionsHeld_accepted_iff (hs : s.SessionsFiled) (hheld : s.SessionsHeld)
    (hsome : s.pendingSessions.find endpoint = some x) :
    (s.accepted endpoint x).SessionsHeld ↔ s.sessions.find x.endpoint = none := by
  rw [sessionsHeld_iff (sessionsFiled_accepted hs hsome)]
  rw [sessionsHeld_iff hs] at hheld
  constructor
  · intro hafter
    by_contra hne
    obtain ⟨found, hfound⟩ := Option.ne_none_iff_exists'.mp hne
    have htotal := total_accepted_of_some (y := x) hsome hfound
    rw [if_pos rfl] at htotal
    have hconstructed : s.Constructed x := hs.constructed x (by omega)
    have hbefore := hheld x hconstructed
    have hlater := hafter x hconstructed
    omega
  · intro hnone y hy
    rw [total_accepted_of_none hsome hnone]
    exact hheld y hy

/-! ## Ticks -/

/-- A tick passes sessions on and drops none. -/
structure PassedOn (s after : SessionTable) : Prop where
  created : after.created = s.created
  pendingSessions : after.pendingSessions = s.pendingSessions
  sessions : ∀ key x, after.sessions.find key = some x → s.sessions.find key = some x
  total : ∀ x, after.total x = s.total x

theorem PassedOn.refl (s : SessionTable) : s.PassedOn s :=
  ⟨rfl, rfl, fun _ _ h ↦ h, fun _ ↦ rfl⟩

theorem PassedOn.trans {middle : SessionTable} (h : s.PassedOn middle)
    (h' : middle.PassedOn after) : s.PassedOn after :=
  ⟨h'.created.trans h.created, h'.pendingSessions.trans h.pendingSessions,
    fun key x hx ↦ h.sessions key x (h'.sessions key x hx),
    fun x ↦ (h'.total x).trans (h.total x)⟩

theorem passedOn_sweepSession {key : Endpoint} (hfind : s.sessions.find key = some x) :
    s.PassedOn (s.sweepSession (key, x)) := by
  unfold sweepSession
  split
  · refine ⟨rfl, rfl, ?_, ?_⟩
    · intro other y hy
      change (s.sessions.erase key).find other = some y at hy
      rw [OrderedMap.find_erase] at hy
      split at hy
      · cases hy
      · exact hy
    · intro y
      have herase := OrderedMap.count_values_erase hfind y
      simp only [SessionTable.total, holders, addAlive, List.count_append, List.count_singleton,
        beq_iff_eq]
      omega
  · exact ⟨rfl, rfl, fun _ _ h ↦ h, fun _ ↦ rfl⟩

theorem passedOn_sweep : s.PassedOn s.sweep :=
  sweep_induction (s.PassedOn ·) (.refl s) fun _ _ _ hs hfind ↦
    hs.trans (passedOn_sweepSession hfind)

/-- A round of the drain loses none of the sessions that are still to be drained either. -/
theorem passedOn_drainSession {rest : List SessionId} :
    PassedOn { s with disconnected := s.disconnected ++ x :: rest }
      { s.drainSession x with disconnected := (s.drainSession x).disconnected ++ rest } := by
  unfold drainSession
  split
  · refine ⟨rfl, rfl, fun _ _ h ↦ h, ?_⟩
    intro y
    simp only [total, holders, addAlive, List.count_append, List.count_cons]
    omega
  · refine ⟨rfl, rfl, fun _ _ h ↦ h, ?_⟩
    intro y
    simp only [total, holders, addAlive, List.count_append, List.count_cons, List.count_nil]
    omega

theorem passedOn_drain : s.PassedOn s.drain := by
  have hdrained := drain_induction (s := s)
    (fun remaining t ↦ s.PassedOn { t with disconnected := t.disconnected ++ remaining })
    (.refl s) (fun _ _ _ h ↦ h.trans passedOn_drainSession)
  rw [List.append_nil] at hdrained
  exact hdrained

theorem passedOn_tick : s.PassedOn s.tick :=
  passedOn_sweep.trans passedOn_drain

theorem Quiet.passedOn (h : s.Quiet after) : s.PassedOn after where
  created := h.created
  pendingSessions := h.pendingSessions
  sessions := by
    rw [h.sessions]
    exact fun _ _ hx ↦ hx
  total := by
    intro x
    unfold SessionTable.total holders
    rw [h.pendingSessions, h.sessions, h.disconnected, h.deleted]

theorem PassedOn.sessionsFiled (h : s.PassedOn after) (hs : s.SessionsFiled) :
    after.SessionsFiled where
  pendingKey := by
    rw [h.pendingSessions]
    exact hs.pendingKey
  key := fun key x hx ↦ hs.key key x (h.sessions key x hx)
  once := by
    intro x
    rw [h.total x]
    exact hs.once x
  constructed := by
    intro x hx
    rw [h.total x] at hx
    unfold Constructed
    rw [h.created]
    exact hs.constructed x hx

theorem PassedOn.sessionsHeld (h : s.PassedOn after) (hs : s.SessionsFiled)
    (hheld : s.SessionsHeld) : after.SessionsHeld := by
  rw [sessionsHeld_iff (h.sessionsFiled hs)]
  rw [sessionsHeld_iff hs] at hheld
  intro x hx
  rw [h.total x]
  unfold Constructed at hx
  rw [h.created] at hx
  exact hheld x hx

/-! ## Runs -/

theorem sessionsFiled_step {action : TableAction} (hs : s.SessionsFiled) :
    (s.step action).SessionsFiled := by
  cases action with
  | tick => exact passedOn_tick.sessionsFiled hs
  | receive endpoint datagram =>
    change (s.receive endpoint datagram).SessionsFiled
    rcases receive_cases s endpoint datagram with ⟨-, heq⟩ | ⟨-, heq⟩ | ⟨-, -, hquiet⟩
    · rw [heq]
      exact sessionsFiled_syn hs
    · rw [heq]
      cases hfind : s.pendingSessions.find endpoint with
      | none =>
        rw [ack_of_none hfind]
        exact hs
      | some x =>
        rw [ack_of_some hfind]
        exact sessionsFiled_accepted hs hfind
    · exact hquiet.passedOn.sessionsFiled hs

/-- One step keeps every session held exactly if it meets the condition. -/
theorem sessionsHeld_step_iff {action : TableAction} (hs : s.SessionsFiled)
    (hheld : s.SessionsHeld) : (s.step action).SessionsHeld ↔ s.HandshakeOnce action := by
  cases action with
  | tick => exact iff_of_true (passedOn_tick.sessionsHeld hs hheld) trivial
  | receive endpoint datagram =>
    change (s.receive endpoint datagram).SessionsHeld ↔ _
    unfold HandshakeOnce
    rcases receive_cases s endpoint datagram with ⟨hsyn, heq⟩ | ⟨hack, heq⟩ | ⟨hsyn, hack, hquiet⟩
    · have hack : ¬ IsA .ack datagram := fun h ↦ absurd (h.unique hsyn) (by decide)
      rw [heq, sessionsHeld_syn_iff hs hheld]
      simp [hsyn, hack]
    · have hsyn : ¬ IsA .syn datagram := fun h ↦ absurd (h.unique hack) (by decide)
      rw [heq]
      cases hfind : s.pendingSessions.find endpoint with
      | none =>
        rw [ack_of_none hfind]
        exact iff_of_true hheld ⟨fun h ↦ absurd h hsyn, fun _ hne ↦ absurd hfind hne⟩
      | some x =>
        rw [ack_of_some hfind, sessionsHeld_accepted_iff hs hheld hfind,
          ← hs.pendingKey endpoint x hfind]
        simp [hsyn, hack, hfind]
    · exact iff_of_true (hquiet.passedOn.sessionsHeld hs hheld)
        ⟨fun h ↦ absurd h hsyn, fun h ↦ absurd h hack⟩

/-- **Session ownership.** In a run of datagrams and ticks every session that was constructed and not
deleted is always held by exactly one of the two maps and the vector, under its own endpoint, if and
only if no SYN comes from a pending endpoint and no ACK establishes an endpoint twice. -/
theorem sessionsHeld_visited_iff_handshakeOnce {history : List (SessionTable × TableAction)}
    (hrun : system.Run history s) :
    (∀ seen ∈ System.visited history s, seen.SessionsHeld) ↔
      System.Obeys HandshakeOnce history := by
  apply hrun.forall_visited_iff_obeys SessionsFiled
  · rintro state rfl
    refine ⟨sessionsFiled_initial, (sessionsHeld_iff sessionsFiled_initial).mpr ?_⟩
    intro x hx
    exact absurd hx (Nat.not_lt_zero _)
  · rintro state action after hs - rfl
    exact sessionsFiled_step hs
  · rintro state action after hs hheld rfl
    exact sessionsHeld_step_iff hs hheld

/-- The session of a second SYN is held by nobody. -/
theorem sessionsHeld_fails : ¬ ∀ history s, system.Run history s → s.SessionsHeld := by
  intro hclaim
  let actions : List TableAction :=
    [.receive ⟨1, 1⟩ synDatagram, .receive ⟨1, 1⟩ synDatagram]
  obtain ⟨history, hrun⟩ := exists_run actions
  have hlost : (run actions).Constructed ⟨⟨1, 1⟩, 1⟩ ∧ ⟨⟨1, 1⟩, 1⟩ ∉ (run actions).deleted ∧
      (run actions).holders ⟨⟨1, 1⟩, 1⟩ = 0 := by
    unfold Constructed
    decide
  have hheld := (hclaim history _ hrun).held _ hlost.1 hlost.2.1
  rw [hlost.2.2] at hheld
  cases hheld

/-- The characterisation applied to a client that connects and is timed out. -/
theorem sessionsHeld_visited_iff_handshakeOnce_applies :
    ∃ history s, system.Run history s ∧ s.deleted = [⟨⟨1, 1⟩, 0⟩] ∧
      ((∀ seen ∈ System.visited history s, seen.SessionsHeld) ↔
        System.Obeys HandshakeOnce history) := by
  obtain ⟨history, hrun⟩ := exists_run
    [.receive ⟨1, 1⟩ synDatagram, .receive ⟨1, 1⟩ ackDatagram, .tick, .tick]
  exact ⟨history, _, hrun, by decide, sessionsHeld_visited_iff_handshakeOnce hrun⟩

end SessionTable

end ServerCore.UdpServer
