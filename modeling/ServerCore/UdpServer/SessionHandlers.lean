import ServerCore.UdpServer.SessionOwnership

/-!
# Accepting and disconnecting

What the handlers are told against what the table says. A client that repeats its handshake while its
session is established is announced a second time with a session that the table does not have. One
that repeats it while its session waits in `disconnected` is announced again before the old session
is. A tick that moves a session to `disconnected` takes it out again at once unless its counter has
wrapped, so the second case needs a client that sends more than 32767 datagrams between two ticks.

The main theorem says that these are the only ways in which handlers and table disagree.
-/

namespace ServerCore.UdpServer

open Foundation

inductive HandlerCall
  | ahandler
  | dhandler
  deriving DecidableEq, Repr

/-- The call of a handler for the endpoint, if the event is one. -/
def TableEvent.call (endpoint : Endpoint) : TableEvent → Option HandlerCall
  | .accept session _ => if session.endpoint = endpoint then some .ahandler else none
  | .disconnect session => if session.endpoint = endpoint then some .dhandler else none
  | .reply _ _ | .packet _ _ => none

/-- The calls, latest first, alternate and start with `ahandler_`. -/
def Alternating : List HandlerCall → Prop
  | [] => True
  | .ahandler :: earlier => earlier.head? ≠ some .ahandler ∧ Alternating earlier
  | .dhandler :: earlier => earlier.head? = some .ahandler ∧ Alternating earlier

namespace SessionTable

variable {s after : SessionTable} {endpoint : Endpoint} {datagram : List UInt8} {x : SessionId}

/-- The calls of `ahandler_` and `dhandler_` for an endpoint, latest first. -/
def calls (s : SessionTable) (endpoint : Endpoint) : List HandlerCall :=
  s.events.filterMap (TableEvent.call endpoint)

/-- `ahandler_` was called with the session. -/
def Accepted (s : SessionTable) (x : SessionId) : Prop :=
  ∃ entry, .accept x entry ∈ s.events

/-- The session is the entry of its endpoint. -/
def listed (s : SessionTable) (x : SessionId) : ℕ :=
  if s.sessions.find x.endpoint = some x then 1 else 0

/-- An accepted session was the entry of its endpoint then, the calls alternate, and every accepted
session is the entry, queued for a call of `dhandler_`, or has had one. -/
structure HandlersAgree (s : SessionTable) : Prop where
  entry : ∀ x entry, .accept x entry ∈ s.events → entry = some x
  alternate : ∀ endpoint, Alternating (s.calls endpoint)
  settled : ∀ x, s.Accepted x →
    s.listed x + s.disconnected.count x + s.events.count (.disconnect x) = 1

/-- No ACK is accepted from an endpoint whose last session is still established or queued. -/
def AcceptedAnew (s : SessionTable) : TableAction → Prop
  | .receive endpoint datagram =>
    IsA .ack datagram → s.pendingSessions.find endpoint ≠ none →
      s.sessions.find endpoint = none ∧ ∀ x ∈ s.disconnected, x.endpoint ≠ endpoint
  | .tick => True

/-- The sessions of an endpoint that were announced and not yet called off. -/
def active (s : SessionTable) (endpoint : Endpoint) : List SessionId :=
  (s.sessions.find endpoint).toList ++ s.disconnected.filter fun x ↦ x.endpoint = endpoint

/-- At most one session of an endpoint is active, and one is exactly if the last call was that of
`ahandler_`. -/
structure HandlersSound (s : SessionTable) : Prop where
  agree : s.HandlersAgree
  filed : s.SessionsFiled
  deleted : ∀ x, s.deleted.count x = s.events.count (.disconnect x)
  accepted : ∀ x, x ∈ s.active x.endpoint → s.Accepted x
  active : ∀ endpoint, (s.active endpoint).length =
    if (s.calls endpoint).head? = some .ahandler then 1 else 0

theorem mem_active {endpoint : Endpoint} : x ∈ s.active endpoint ↔
    s.sessions.find endpoint = some x ∨ (x ∈ s.disconnected ∧ x.endpoint = endpoint) := by
  simp [SessionTable.active]

theorem active_eq_nil_iff : s.active endpoint = [] ↔
    s.sessions.find endpoint = none ∧ ∀ x ∈ s.disconnected, x.endpoint ≠ endpoint := by
  simp [SessionTable.active]

theorem calls_of_cons {event : TableEvent} (hevents : after.events = event :: s.events) :
    after.calls endpoint = (event.call endpoint).toList ++ s.calls endpoint := by
  rw [calls, hevents, List.filterMap_cons]
  cases event.call endpoint <;> rfl

/-- The last call of an endpoint with an active session was that of `ahandler_`. -/
theorem HandlersSound.last_iff (hs : s.HandlersSound) :
    (s.calls endpoint).head? = some .ahandler ↔ s.active endpoint ≠ [] := by
  have hlength := hs.active endpoint
  rw [← List.length_pos_iff, hlength]
  split <;> simp [*]

theorem handlersSound_initial : initial.HandlersSound where
  agree := {
    entry := by simp [initial]
    alternate := fun _ ↦ trivial
    settled := by simp [Accepted, initial] }
  filed := sessionsFiled_initial
  deleted := by simp [initial]
  accepted := by simp [mem_active, initial, OrderedMap.find, OrderedMap.empty]
  active := by simp [SessionTable.active, calls, initial, OrderedMap.find, OrderedMap.empty]

/-- An event that is no call of a handler is none of the handlers' business. -/
theorem HandlersSound.of_silent (hs : s.HandlersSound) (hfiled : after.SessionsFiled)
    (hsessions : after.sessions = s.sessions) (hdisconnected : after.disconnected = s.disconnected)
    (hdeleted : after.deleted = s.deleted)
    (hevents : after.events = s.events ∨ ∃ event, after.events = event :: s.events ∧
      ∀ endpoint, event.call endpoint = none) : after.HandlersSound := by
  have hcalls (endpoint : Endpoint) : after.calls endpoint = s.calls endpoint := by
    rcases hevents with heq | ⟨event, heq, hsilent⟩
    · rw [calls, heq, calls]
    · rw [calls_of_cons heq, hsilent endpoint]
      rfl
  have haccept (x : SessionId) (entry : Option SessionId) :
      .accept x entry ∈ after.events ↔ .accept x entry ∈ s.events := by
    rcases hevents with heq | ⟨event, heq, hsilent⟩
    · rw [heq]
    · have hne : .accept x entry ≠ event := by
        rintro rfl
        simpa [TableEvent.call] using hsilent x.endpoint
      simp [heq, hne]
  have hcount (x : SessionId) :
      after.events.count (.disconnect x) = s.events.count (.disconnect x) := by
    rcases hevents with heq | ⟨event, heq, hsilent⟩
    · rw [heq]
    · have hne : event ≠ .disconnect x := by
        rintro rfl
        simpa [TableEvent.call] using hsilent x.endpoint
      rw [heq, List.count_cons_of_ne hne]
  have hactive (endpoint : Endpoint) : after.active endpoint = s.active endpoint := by
    unfold SessionTable.active
    rw [hsessions, hdisconnected]
  have haccepted (x : SessionId) : after.Accepted x ↔ s.Accepted x :=
    exists_congr fun entry ↦ haccept x entry
  exact {
    agree := {
      entry := fun x entry hmem ↦ hs.agree.entry x entry ((haccept x entry).mp hmem)
      alternate := by
        intro endpoint
        rw [hcalls]
        exact hs.agree.alternate endpoint
      settled := by
        intro x hx
        rw [listed, hsessions, hdisconnected, hcount]
        exact hs.agree.settled x ((haccepted x).mp hx) }
    filed := hfiled
    deleted := by
      intro x
      rw [hdeleted, hcount]
      exact hs.deleted x
    accepted := by
      intro x hx
      rw [hactive] at hx
      exact (haccepted x).mpr (hs.accepted x hx)
    active := by
      intro endpoint
      rw [hactive, hcalls]
      exact hs.active endpoint }

/-! ## ACK -/

theorem count_values_of_find {m : OrderedMap Endpoint SessionId} {key : Endpoint}
    (h : m.find key = some x) : 0 < m.values.count x :=
  List.count_pos_iff.mpr (OrderedMap.mem_values.mpr ⟨key, h⟩)

/-- A pending session is held by nobody else and was never deleted. -/
theorem SessionsFiled.pending (hs : s.SessionsFiled)
    (hsome : s.pendingSessions.find endpoint = some x) :
    x.endpoint = endpoint ∧ s.sessions.find endpoint ≠ some x ∧ x ∉ s.disconnected ∧
      x ∉ s.deleted := by
  have honce := hs.once x
  have hpending := count_values_of_find hsome
  unfold total holders at honce
  refine ⟨(hs.pendingKey _ _ hsome).symm, ?_, ?_, ?_⟩
  · intro hfind
    have hpos := count_values_of_find hfind
    omega
  · intro hmem
    have hpos := List.count_pos_iff.mpr hmem
    omega
  · intro hmem
    have hpos := List.count_pos_iff.mpr hmem
    omega

/-- It has not been announced either. -/
theorem HandlersSound.not_accepted (hs : s.HandlersSound)
    (hsome : s.pendingSessions.find endpoint = some x) : ¬ s.Accepted x := by
  intro haccepted
  obtain ⟨hkey, hlisted, hqueued, hdeleted⟩ := hs.filed.pending hsome
  have hsettled := hs.agree.settled x haccepted
  rw [listed, hkey, if_neg hlisted, List.count_eq_zero.mpr hqueued, ← hs.deleted,
    List.count_eq_zero.mpr hdeleted] at hsettled
  cases hsettled

theorem calls_accepted (key : Endpoint) : (s.accepted x.endpoint x).calls key =
    if key = x.endpoint then .ahandler :: s.calls key else s.calls key := by
  rw [calls_of_cons (s := s) rfl, TableEvent.call]
  by_cases hkey : key = x.endpoint
  · rw [if_pos hkey.symm, if_pos hkey]
    rfl
  · rw [if_neg (Ne.symm hkey), if_neg hkey]
    rfl

theorem accepted_accepted {y : SessionId} :
    (s.accepted x.endpoint x).Accepted y ↔ y = x ∨ s.Accepted y := by
  constructor
  · rintro ⟨entry, hmem⟩
    rcases List.mem_cons.mp hmem with heq | hold
    · exact Or.inl (TableEvent.accept.inj heq).1
    · exact Or.inr ⟨entry, hold⟩
  · rintro (rfl | ⟨entry, hmem⟩)
    · exact ⟨_, List.mem_cons_self⟩
    · exact ⟨entry, List.mem_cons_of_mem _ hmem⟩

theorem find_accepted (hnone : s.sessions.find x.endpoint = none) (key : Endpoint) :
    (s.accepted x.endpoint x).sessions.find key =
      if key = x.endpoint then some x else s.sessions.find key :=
  OrderedMap.find_insert hnone

theorem active_accepted (hnone : s.sessions.find x.endpoint = none)
    (hqueue : ∀ y ∈ s.disconnected, y.endpoint ≠ x.endpoint) (key : Endpoint) :
    (s.accepted x.endpoint x).active key = if key = x.endpoint then [x] else s.active key := by
  rw [SessionTable.active, find_accepted hnone]
  change _ ++ s.disconnected.filter _ = _
  by_cases hkey : key = x.endpoint
  · have hnobody : (s.disconnected.filter fun y ↦ y.endpoint = key) = [] := by
      rw [hkey]
      simpa using hqueue
    rw [hnobody, if_pos hkey, if_pos hkey]
    rfl
  · rw [if_neg hkey, if_neg hkey]
    rfl

/-- The session that is announced takes the empty place of its endpoint. -/
theorem handlersSound_accepted (hs : s.HandlersSound)
    (hsome : s.pendingSessions.find endpoint = some x)
    (hnone : s.sessions.find endpoint = none) (hqueue : ∀ y ∈ s.disconnected, y.endpoint ≠ endpoint) :
    (s.accepted endpoint x).HandlersSound := by
  obtain ⟨rfl, -, hqueued, hdeleted⟩ := hs.filed.pending hsome
  have hnew := hs.not_accepted hsome
  have hidle : s.active x.endpoint = [] := active_eq_nil_iff.mpr ⟨hnone, hqueue⟩
  have hlast : (s.calls x.endpoint).head? ≠ some .ahandler := by
    rw [ne_eq, hs.last_iff, not_not]
    exact hidle
  have hcount (y : SessionId) : (s.accepted x.endpoint x).events.count (.disconnect y) =
      s.events.count (.disconnect y) :=
    List.count_cons_of_ne (by simp)
  exact {
    agree := {
      entry := by
        intro y entry hmem
        rcases List.mem_cons.mp hmem with heq | hold
        · obtain ⟨rfl, rfl⟩ := TableEvent.accept.inj heq
          exact OrderedMap.find_insert_self hnone
        · exact hs.agree.entry y entry hold
      alternate := by
        intro key
        rw [calls_accepted]
        split
        · rename_i heq
          subst heq
          exact ⟨hlast, hs.agree.alternate _⟩
        · exact hs.agree.alternate key
      settled := by
        intro y hy
        rw [hcount, listed, find_accepted hnone]
        change _ + s.disconnected.count y + _ = 1
        rcases accepted_accepted.mp hy with rfl | hold
        · rw [if_pos rfl, if_pos rfl, List.count_eq_zero.mpr hqueued, ← hs.deleted,
            List.count_eq_zero.mpr hdeleted]
        · have hne : y ≠ x := by
            rintro rfl
            exact hnew hold
          have hsettled := hs.agree.settled y hold
          rw [listed] at hsettled
          by_cases hkey : y.endpoint = x.endpoint
          · rw [hkey, hnone] at hsettled
            simpa [hkey, Ne.symm hne] using hsettled
          · simpa [hkey] using hsettled }
    filed := sessionsFiled_accepted hs.filed hsome
    deleted := by
      intro y
      rw [hcount]
      exact hs.deleted y
    accepted := by
      intro y hy
      rw [active_accepted hnone hqueue] at hy
      rw [accepted_accepted]
      split at hy
      · exact Or.inl (List.mem_singleton.mp hy)
      · exact Or.inr (hs.accepted y hy)
    active := by
      intro key
      rw [calls_accepted, active_accepted hnone hqueue]
      split
      · rfl
      · exact hs.active key }

/-- A second announcement while a session of the endpoint is active puts the handlers out of step. -/
theorem not_handlersAgree_accepted (hs : s.HandlersSound)
    (hsome : s.pendingSessions.find endpoint = some x) (hbusy : s.active endpoint ≠ []) :
    ¬ (s.accepted endpoint x).HandlersAgree := by
  obtain ⟨rfl, hlisted, -, -⟩ := hs.filed.pending hsome
  intro hagree
  cases hfind : s.sessions.find x.endpoint with
  | some found =>
    -- the entry is the session that is established already
    have hentry := hagree.entry x _ List.mem_cons_self
    rw [OrderedMap.insert_of_find hfind, hfind] at hentry
    exact hlisted (hfind.trans hentry)
  | none =>
    have halternate := hagree.alternate x.endpoint
    rw [calls_accepted, if_pos rfl] at halternate
    exact halternate.1 (hs.last_iff.mpr hbusy)

/-! ## Ticks -/

theorem handlersSound_sweepSession {key : Endpoint} (hs : s.HandlersSound)
    (hfind : s.sessions.find key = some x) : (s.sweepSession (key, x)).HandlersSound := by
  have hfiled := (passedOn_sweepSession hfind).sessionsFiled hs.filed
  obtain rfl := hs.filed.key key x hfind
  unfold sweepSession at hfiled ⊢
  split at hfiled
  · have hfound (other : Endpoint) : (s.sessions.erase x.endpoint).find other =
        if other = x.endpoint then none else s.sessions.find other :=
      OrderedMap.find_erase
    rename_i hdead
    rw [if_pos hdead]
    exact {
      agree := {
        entry := hs.agree.entry
        alternate := hs.agree.alternate
        settled := by
          intro y hy
          rw [← hs.agree.settled y hy]
          simp only [listed, hfound, addAlive, List.count_append, List.count_singleton, beq_iff_eq]
          by_cases heq : x = y
          · subst heq
            simp only [if_true, hfind, reduceCtorEq, if_false]
            omega
          · rw [if_neg heq]
            by_cases hkey : y.endpoint = x.endpoint
            · simp [hkey, hfind, heq]
            · simp [hkey] }
      filed := hfiled
      deleted := hs.deleted
      accepted := by
        intro y hy
        apply hs.accepted
        rcases mem_active.mp hy with hentry | ⟨hmem, -⟩
        · simp only [hfound] at hentry
          split at hentry
          · cases hentry
          · exact mem_active.mpr (Or.inl hentry)
        · rcases List.mem_append.mp hmem with hold | hnew
          · exact mem_active.mpr (Or.inr ⟨hold, rfl⟩)
          · rw [List.mem_singleton.mp hnew]
            exact mem_active.mpr (Or.inl hfind)
      active := by
        intro other
        refine Eq.trans ?_ (hs.active other)
        simp only [SessionTable.active, hfound, List.filter_append, List.length_append]
        by_cases hkey : other = x.endpoint
        · subst hkey
          simp [hfind]
          omega
        · simp [hkey, Ne.symm hkey] }
  · rename_i halive
    rw [if_neg halive]
    exact hs.of_silent hfiled rfl rfl rfl (Or.inl rfl)

/-- The drain takes a session out of the vector and calls `dhandler_`. -/
theorem handlersSound_disconnect (hs : s.HandlersSound) {kept rest : List SessionId}
    (hqueue : s.disconnected = kept ++ x :: rest) (hfiled : after.SessionsFiled)
    (hsessions : after.sessions = s.sessions) (hdisconnected : after.disconnected = kept ++ rest)
    (hevents : after.events = .disconnect x :: s.events)
    (hdeleted : after.deleted = x :: s.deleted) : after.HandlersSound := by
  have hmem : x ∈ s.active x.endpoint := mem_active.mpr (Or.inr ⟨by simp [hqueue], rfl⟩)
  have hlast := hs.last_iff.mpr (List.ne_nil_of_mem hmem)
  have hcalls (key : Endpoint) : after.calls key =
      if x.endpoint = key then .dhandler :: s.calls key else s.calls key := by
    rw [calls_of_cons hevents, TableEvent.call]
    split <;> rfl
  have haccept (y : SessionId) (entry : Option SessionId) :
      .accept y entry ∈ after.events ↔ .accept y entry ∈ s.events := by
    simp [hevents]
  have hcount (y : SessionId) : s.disconnected.count y =
      after.disconnected.count y + if x = y then 1 else 0 := by
    rw [hqueue, hdisconnected]
    simp only [List.count_append, List.count_cons, beq_iff_eq]
    omega
  have hcalled (y : SessionId) : after.events.count (.disconnect y) =
      s.events.count (.disconnect y) + if x = y then 1 else 0 := by
    simp [hevents, List.count_cons]
  exact {
    agree := {
      entry := fun y entry hmem ↦ hs.agree.entry y entry ((haccept y entry).mp hmem)
      alternate := by
        intro key
        rw [hcalls]
        split
        · rename_i hkey
          subst hkey
          exact ⟨hlast, hs.agree.alternate _⟩
        · exact hs.agree.alternate key
      settled := by
        rintro y ⟨entry, hentry⟩
        have hsettled := hs.agree.settled y ⟨entry, (haccept y entry).mp hentry⟩
        rw [hcount, listed] at hsettled
        rw [hcalled, listed, hsessions]
        omega }
    filed := hfiled
    deleted := by
      intro y
      have hbefore := hs.deleted y
      rw [hcalled, hdeleted, List.count_cons]
      simp only [beq_iff_eq]
      omega
    accepted := by
      intro y hy
      have hactive : y ∈ s.active y.endpoint := by
        rw [mem_active, hsessions, hdisconnected] at hy
        rw [mem_active, hqueue]
        exact hy.imp_right fun h ↦ ⟨by
          rcases List.mem_append.mp h.1 with hold | hold
          · exact List.mem_append_left _ hold
          · exact List.mem_append_right _ (List.mem_cons_of_mem _ hold), h.2⟩
      obtain ⟨entry, hentry⟩ := hs.accepted y hactive
      exact ⟨entry, (haccept y entry).mpr hentry⟩
    active := by
      intro key
      have hlength := hs.active key
      rw [hcalls]
      simp only [SessionTable.active, hqueue, hsessions, hdisconnected, List.filter_append,
        List.filter_cons, List.length_append] at hlength ⊢
      by_cases hkey : x.endpoint = key
      · subst hkey
        simp only [hlast, decide_true, if_true, List.length_cons] at hlength
        rw [if_pos rfl, if_neg (by simp)]
        omega
      · simp only [hkey, decide_false, Bool.false_eq_true, if_false] at hlength
        rw [if_neg hkey]
        exact hlength }

theorem handlersSound_drainSession {rest : List SessionId}
    (hs : HandlersSound { s with disconnected := s.disconnected ++ x :: rest }) :
    HandlersSound
      { s.drainSession x with disconnected := (s.drainSession x).disconnected ++ rest } := by
  have hfiled := (passedOn_drainSession (s := s) (x := x)).sessionsFiled hs.filed
  unfold drainSession at hfiled ⊢
  by_cases hdead : (s.isAlive x + (-1)).toInt = -3
  · rw [if_pos hdead] at hfiled ⊢
    exact handlersSound_disconnect hs rfl hfiled rfl rfl rfl rfl
  · rw [if_neg hdead] at hfiled ⊢
    exact hs.of_silent hfiled rfl (by simp) rfl (Or.inl rfl)

theorem handlersSound_tick (hs : s.HandlersSound) : s.tick.HandlersSound := by
  have hswept : s.sweep.HandlersSound :=
    sweep_induction HandlersSound hs fun _ _ _ hs hfind ↦ handlersSound_sweepSession hs hfind
  have hdrained := drain_induction (s := s.sweep)
    (fun remaining t ↦ HandlersSound { t with disconnected := t.disconnected ++ remaining })
    hswept (fun _ _ _ ht ↦ handlersSound_drainSession ht)
  rw [List.append_nil] at hdrained
  exact hdrained

/-! ## Runs -/

theorem handlersSound_step {action : TableAction} (hs : s.HandlersSound)
    (hanew : s.AcceptedAnew action) : (s.step action).HandlersSound := by
  cases action with
  | tick => exact handlersSound_tick hs
  | receive endpoint datagram =>
    change (s.receive endpoint datagram).HandlersSound
    have hfiled : (s.step (.receive endpoint datagram)).SessionsFiled :=
      sessionsFiled_step hs.filed
    change (s.receive endpoint datagram).SessionsFiled at hfiled
    rcases receive_cases s endpoint datagram with ⟨-, heq⟩ | ⟨hack, heq⟩ | ⟨-, -, hquiet⟩
    · rw [heq] at hfiled ⊢
      exact hs.of_silent hfiled rfl rfl rfl (Or.inr ⟨_, rfl, fun _ ↦ rfl⟩)
    · rw [heq]
      cases hfind : s.pendingSessions.find endpoint with
      | none =>
        rw [ack_of_none hfind]
        exact hs
      | some x =>
        rw [ack_of_some hfind]
        obtain ⟨hnone, hqueue⟩ := hanew hack (by simp [hfind])
        exact handlersSound_accepted hs hfind hnone hqueue
    · apply hs.of_silent hfiled hquiet.sessions hquiet.disconnected hquiet.deleted
      rcases hquiet.events with heq | ⟨x, packet, heq⟩
      · exact Or.inl heq
      · exact Or.inr ⟨_, heq, fun _ ↦ rfl⟩

theorem not_handlersAgree_step {action : TableAction} (hs : s.HandlersSound)
    (hagain : ¬ s.AcceptedAnew action) : ¬ (s.step action).HandlersAgree := by
  cases action with
  | tick => exact absurd trivial hagain
  | receive endpoint datagram =>
    unfold AcceptedAnew at hagain
    simp only [Classical.not_imp, not_and_or, not_forall, not_not] at hagain
    obtain ⟨hack, hpending, hbusy⟩ := hagain
    obtain ⟨x, hx⟩ := Option.ne_none_iff_exists'.mp hpending
    change ¬ (s.receive endpoint datagram).HandlersAgree
    rw [receive_of_isA hack]
    change ¬ (s.ack endpoint).HandlersAgree
    rw [ack_of_some hx]
    apply not_handlersAgree_accepted hs hx
    intro hidle
    obtain ⟨hnone, hqueue⟩ := active_eq_nil_iff.mp hidle
    rcases hbusy with hsome | ⟨y, hmem, hkey⟩
    · exact hsome hnone
    · exact hqueue y hmem hkey

/-- **Handlers and table.** In a run of datagrams and ticks the handlers agree with the table in every
state if and only if no ACK is accepted from an endpoint that is established or has a session queued
in `disconnected`. -/
theorem handlersAgree_visited_iff_acceptedAnew {history : List (SessionTable × TableAction)}
    (hrun : system.Run history s) :
    (∀ seen ∈ System.visited history s, seen.HandlersAgree) ↔
      System.Obeys AcceptedAnew history := by
  apply hrun.forall_visited_iff_obeys_of_sound HandlersSound
  · intro state hs
    exact hs.agree
  · rintro state rfl
    exact handlersSound_initial
  · rintro state action after hs hanew rfl
    exact handlersSound_step hs hanew
  · rintro state action after hs hagain rfl
    exact not_handlersAgree_step hs hagain

/-- A client that repeats its whole handshake is announced with a session that the table does not
have. -/
theorem handlersAgree_fails : ¬ ∀ history s, system.Run history s → s.HandlersAgree := by
  intro hclaim
  obtain ⟨history, hrun⟩ := exists_run
    [.receive ⟨1, 1⟩ synDatagram, .receive ⟨1, 1⟩ ackDatagram,
      .receive ⟨1, 1⟩ synDatagram, .receive ⟨1, 1⟩ ackDatagram]
  have hentry := (hclaim history _ hrun).entry ⟨⟨1, 1⟩, 1⟩ (some ⟨⟨1, 1⟩, 0⟩) (by decide)
  exact absurd hentry (by decide)

/-- The characterisation applied to a client that connects, is timed out and connects again. -/
theorem handlersAgree_visited_iff_acceptedAnew_applies :
    ∃ history s, system.Run history s ∧ s.calls ⟨1, 1⟩ = [.ahandler, .dhandler, .ahandler] ∧
      ((∀ seen ∈ System.visited history s, seen.HandlersAgree) ↔
        System.Obeys AcceptedAnew history) := by
  obtain ⟨history, hrun⟩ := exists_run
    [.receive ⟨1, 1⟩ synDatagram, .receive ⟨1, 1⟩ ackDatagram, .tick, .tick,
      .receive ⟨1, 1⟩ synDatagram, .receive ⟨1, 1⟩ ackDatagram]
  exact ⟨history, _, hrun, by decide, handlersAgree_visited_iff_acceptedAnew hrun⟩

end SessionTable

end ServerCore.UdpServer
