import ServerCore.Server.Callbacks
import ServerCore.Server.ReceiveToken

/-!
# The order of the handler calls

The first receive of a client is posted before its post-accept handler is called, a disconnect is
processed beside whatever else is outstanding, and `RemoveClient` destroys the client before the
post-disconnect handler is called. The main theorem says that the life cycle of every client is kept in
every run in which completions are dequeued in turn.
-/

namespace ServerCore.Server

open Foundation

theorem IoType.eq_disconnect_of_mem (t : IoType) :
    ∀ todo ∈ t.stages, .removeClient ∈ todo → t = .disconnect := by
  cases t <;> decide

namespace CallbackServer

variable {ι : Type} {isSet : Handler → Bool} {s after : CallbackServer ι} {w : ι}

/-- The context of an operation that is in flight or being processed. -/
def Open (s : CallbackServer ι) (c : IoContext) : Prop :=
  c ∈ s.server.inFlight ∨ ∃ w, s.Busy w ∧ (s.server.worker w).context = c

/-! ## The clients -/

/-- The clients of open contexts live, a disconnect is processed with nothing else of its client open,
and it destroys no client for which a handler is called afterwards. -/
structure Living (isSet : Handler → Bool) (s : CallbackServer ι) : Prop where
  staged : ∀ w, (s.server.worker w).todo ∈ (s.server.worker w).context.ioType.stages
  distinct : ∀ a b x, s.server.client a = some x → s.server.client b = some x → a = b
  numbered : ∀ a x, s.server.client a = some x → x < s.server.numClients
  buried : ∀ x, .destroyed x ∈ s.log → x < s.server.numClients ∧ ∀ a, s.server.client a ≠ some x
  live : ∀ c, s.Open c → s.server.client c.client = some c.incarnation
  closing : ∀ w, s.Busy w → (s.server.worker w).context.ioType = .disconnect →
    (∀ d ∈ s.server.inFlight, d.client ≠ (s.server.worker w).context.client) ∧
      ∀ v, v ≠ w → s.Busy v →
        (s.server.worker v).context.client ≠ (s.server.worker w).context.client
  unlisted : ∀ w, .removeClient ∈ (s.server.worker w).todo → isSet .postDisconnect = true →
    (s.server.worker w).context.client ∉ s.server.clients

/-- A worker goes on and destroys no client. It may have posted operations of its own client. -/
structure Advance (s after : CallbackServer ι) (w : ι) (new : List IoContext)
    (events : List ClientEvent) : Prop where
  busy : s.Busy w
  client : after.server.client = s.server.client
  numClients : after.server.numClients = s.server.numClients
  clients : ∀ a ∈ after.server.clients, a ∈ s.server.clients ∨
    (a = (s.server.worker w).context.client ∧ (s.server.worker w).context.ioType = .accept)
  inFlight : after.server.inFlight = new ++ s.server.inFlight
  posted : ∀ d ∈ new, d.client = (s.server.worker w).context.client ∧
    d.incarnation = (s.server.worker w).context.incarnation ∧
    (s.server.worker w).context.ioType ≠ .disconnect ∧
    (d.ioType.Receives → (s.server.worker w).context.ioType.Chained)
  context : ∀ v, (after.server.worker v).context = (s.server.worker v).context
  todo : ∀ v, v ≠ w → (after.server.worker v).todo = (s.server.worker v).todo
  due : ∀ v, v ≠ w → after.due v = s.due v
  log : after.log = events ++ s.log
  spares : ∀ x, .destroyed x ∉ events
  removes : .removeClient ∈ (after.server.worker w).todo → .removeClient ∈ (s.server.worker w).todo

theorem Advance.busy_of_busy {new : List IoContext} {events : List ClientEvent}
    (h : Advance s after w new events) {v : ι} (hv : after.Busy v) : s.Busy v := by
  by_cases hvw : v = w
  · rw [hvw]
    exact h.busy
  · rw [Busy, h.todo v hvw, h.due v hvw] at hv
    exact hv

theorem Advance.open_of_open {new : List IoContext} {events : List ClientEvent}
    (h : Advance s after w new events) {c : IoContext} (hc : after.Open c) : c ∈ new ∨ s.Open c := by
  rcases hc with hc | ⟨v, hv, rfl⟩
  · rw [h.inFlight] at hc
    exact (List.mem_append.mp hc).imp_right Or.inl
  · exact Or.inr (Or.inr ⟨v, h.busy_of_busy hv, (h.context v).symm⟩)

/-- The context of a busy worker is open. -/
theorem Busy.open (h : s.Busy w) : s.Open (s.server.worker w).context :=
  Or.inr ⟨w, h, rfl⟩

theorem living_advance {new : List IoContext} {events : List ClientEvent} (hs : s.Living isSet)
    (h : Advance s after w new events)
    (hstaged : (after.server.worker w).todo ∈ (after.server.worker w).context.ioType.stages) :
    after.Living isSet := by
  have hlive := hs.live _ h.busy.open
  refine ⟨?_, ?_, ?_, ?_, ?_, ?_, ?_⟩
  · intro v
    by_cases hvw : v = w
    · rw [hvw]
      exact hstaged
    · rw [h.todo v hvw, h.context v]
      exact hs.staged v
  · rw [h.client]
    exact hs.distinct
  · rw [h.client, h.numClients]
    exact hs.numbered
  · rw [h.client, h.numClients, h.log]
    intro x hx
    rcases List.mem_append.mp hx with hx | hx
    · exact absurd hx (h.spares x)
    · exact hs.buried x hx
  · rw [h.client]
    intro c hc
    rcases h.open_of_open hc with hc | hc
    · obtain ⟨hclient, hincarnation, -⟩ := h.posted c hc
      rw [hclient, hincarnation]
      exact hlive
    · exact hs.live c hc
  · intro v hv htype
    rw [h.context v] at htype ⊢
    obtain ⟨hflight, hworkers⟩ := hs.closing v (h.busy_of_busy hv) htype
    constructor
    · rw [h.inFlight]
      intro d hd
      rcases List.mem_append.mp hd with hd | hd
      · obtain ⟨hclient, -, hne, -⟩ := h.posted d hd
        have hvw : w ≠ v := by
          rintro rfl
          exact hne htype
        rw [hclient]
        exact hworkers w hvw h.busy
      · exact hflight d hd
    · intro u huv hu
      rw [h.context u]
      exact hworkers u huv (h.busy_of_busy hu)
  · intro v hv hset hmem
    rw [h.context v] at hmem
    have hremove : .removeClient ∈ (s.server.worker v).todo := by
      by_cases hvw : v = w
      · rw [hvw] at hv ⊢
        exact h.removes hv
      · rw [← h.todo v hvw]
        exact hv
    have hbusy : s.Busy v := Or.inl (List.ne_nil_of_mem hremove)
    have htype : (s.server.worker v).context.ioType = .disconnect :=
      IoType.eq_disconnect_of_mem _ _ (hs.staged v) hremove
    rcases h.clients _ hmem with hmem | ⟨hclient, haccept⟩
    · exact hs.unlisted v hremove hset hmem
    · -- the worker that lists the client would be processing an accept of it
      have hwv : w ≠ v := by
        rintro rfl
        rw [haccept] at htype
        cases htype
      exact (hs.closing v hbusy htype).2 w hwv h.busy hclient.symm

/-- A client is constructed in a chunk in which none lives, and its accept may be posted. -/
theorem living_newClient {a : ℕ} {accepted : Bool} {server : ServerState ι} (hs : s.Living isSet)
    (hstep : s.server.newClient a accepted = some server) :
    ({ s with server := server } : CallbackServer ι).Living isSet := by
  obtain ⟨⟨hfree, -⟩, hafter⟩ := Option.ite_none_right_eq_some.mp hstep
  rw [← Option.some.inj hafter]
  have hother (b x : ℕ) (hb : s.server.client b = some x) : b ≠ a := by
    rintro rfl
    rw [hfree] at hb
    cases hb
  have hkeep (b x : ℕ) (hb : s.server.client b = some x) :
      Function.update s.server.client a (some s.server.numClients) b = some x := by
    rw [Function.update_of_ne (hother b x hb)]
    exact hb
  have hcases (b x : ℕ)
      (hb : Function.update s.server.client a (some s.server.numClients) b = some x) :
      (b = a ∧ x = s.server.numClients) ∨ s.server.client b = some x := by
    by_cases hba : b = a
    · rw [hba, Function.update_self] at hb
      exact Or.inl ⟨hba, (Option.some.inj hb).symm⟩
    · rw [Function.update_of_ne hba] at hb
      exact Or.inr hb
  refine ⟨hs.staged, ?_, ?_, ?_, ?_, ?_, hs.unlisted⟩
  · intro b c x hb hc
    rcases hcases b x hb with ⟨hba, hnew⟩ | hbold
    · rcases hcases c x hc with ⟨hca, -⟩ | hcold
      · rw [hba, hca]
      · exact absurd (hs.numbered c x hcold) (by rw [hnew]; exact Nat.lt_irrefl _)
    · rcases hcases c x hc with ⟨-, hnew⟩ | hcold
      · exact absurd (hs.numbered b x hbold) (by rw [hnew]; exact Nat.lt_irrefl _)
      · exact hs.distinct b c x hbold hcold
  · intro b x hb
    rcases hcases b x hb with ⟨-, rfl⟩ | hb
    · exact Nat.lt_succ_self _
    · exact Nat.lt_succ_of_lt (hs.numbered b x hb)
  · intro x hx
    obtain ⟨hlt, hdead⟩ := hs.buried x hx
    refine ⟨Nat.lt_succ_of_lt hlt, fun b hb ↦ ?_⟩
    rcases hcases b x hb with ⟨-, rfl⟩ | hb
    · exact Nat.lt_irrefl _ hlt
    · exact hdead b hb
  · rintro c (hc | ⟨v, hv, rfl⟩)
    · rcases List.mem_append.mp hc with hc | hc
      · rw [ServerState.mem_ite_singleton hc]
        exact Function.update_self _ _ _
      · exact hkeep _ _ (hs.live c (Or.inl hc))
    · exact hkeep _ _ (hs.live _ (Busy.open hv))
  · intro v hv htype
    obtain ⟨hflight, hworkers⟩ := hs.closing v hv htype
    refine ⟨fun d hd ↦ ?_, hworkers⟩
    rcases List.mem_append.mp hd with hd | hd
    · rw [ServerState.mem_ite_singleton hd]
      exact (hother _ _ (hs.live _ (Busy.open hv))).symm
    · exact hflight d hd

/-- The application uses a client whose disconnect is not being processed. -/
theorem living_operate {ioType : IoType} {a : ℕ} {accepted : Bool} {server : ServerState ι}
    (hs : s.Living isSet) (hidle : ∀ v, ¬ s.Processing v .disconnect a)
    (hstep : s.server.operate ioType a accepted = some server) :
    ({ s with server := server } : CallbackServer ι).Living isSet := by
  obtain ⟨x, hx, rfl⟩ := Option.map_eq_some_iff.mp hstep
  refine ⟨hs.staged, hs.distinct, hs.numbered, hs.buried, ?_, ?_, hs.unlisted⟩
  · rintro c (hc | hc)
    · rcases List.mem_append.mp hc with hc | hc
      · rw [ServerState.mem_ite_singleton hc]
        exact hx
      · exact hs.live c (Or.inl hc)
    · exact hs.live c (Or.inr hc)
  · intro v hv htype
    obtain ⟨hflight, hworkers⟩ := hs.closing v hv htype
    refine ⟨fun d hd ↦ ?_, hworkers⟩
    rcases List.mem_append.mp hd with hd | hd
    · rw [ServerState.mem_ite_singleton hd]
      exact fun heq ↦ hidle v ⟨hv, htype, heq.symm⟩
    · exact hflight d hd

variable [DecidableEq ι]

/-- A worker has taken a completion, and `todo` and `due` are what it does for it. -/
structure Taken (s after : CallbackServer ι) (w : ι) (c : IoContext) : Prop where
  idle : ¬ s.Busy w
  mem : c ∈ s.server.inFlight
  client : after.server.client = s.server.client
  numClients : after.server.numClients = s.server.numClients
  clients : after.server.clients = s.server.clients
  inFlight : after.server.inFlight = s.server.inFlight.erase c
  context : (after.server.worker w).context = c
  worker : ∀ v, v ≠ w → after.server.worker v = s.server.worker v
  due : ∀ v, v ≠ w → after.due v = s.due v
  log : after.log = s.log

theorem taken_of_dequeue {c : IoContext} {failed : Bool}
    (hstep : s.dequeue isSet w c failed = some after) :
    Taken s after w c ∧ (after.server.worker w).todo = c.ioType.calls failed ∧
      after.due w = schedule isSet (c.ioType.handlerBefore failed) := by
  obtain ⟨hdue, hstep⟩ := Option.ite_none_right_eq_some.mp hstep
  obtain ⟨server, hserver, rfl⟩ := Option.map_eq_some_iff.mp hstep
  obtain ⟨⟨htodo, hmem⟩, hafter⟩ := Option.ite_none_right_eq_some.mp hserver
  have hworker : server.worker = Function.update s.server.worker w ⟨c, c.ioType.calls failed⟩ :=
    (congrArg ServerState.worker (Option.some.inj hafter)).symm
  have hself : server.worker w = ⟨c, c.ioType.calls failed⟩ := by
    rw [hworker, Function.update_self]
  refine ⟨⟨?_, hmem, ?_, ?_, ?_, ?_, ?_, ?_, ?_, rfl⟩, ?_, Function.update_self _ _ _⟩
  · rintro (h | h)
    · exact h htodo
    · exact h hdue
  · exact (congrArg ServerState.client (Option.some.inj hafter)).symm
  · exact (congrArg ServerState.numClients (Option.some.inj hafter)).symm
  · exact (congrArg ServerState.clients (Option.some.inj hafter)).symm
  · exact (congrArg ServerState.inFlight (Option.some.inj hafter)).symm
  · exact congrArg Worker.context hself
  · intro v hv
    change server.worker v = _
    rw [hworker, Function.update_of_ne hv]
  · exact fun v hv ↦ Function.update_of_ne hv _ _
  · exact congrArg Worker.todo hself

omit [DecidableEq ι] in
theorem Taken.busy_of_ne {c : IoContext} (h : Taken s after w c) {v : ι} (hvw : v ≠ w) :
    after.Busy v ↔ s.Busy v := by
  rw [Busy, Busy, h.worker v hvw, h.due v hvw]

omit [DecidableEq ι] in
theorem Taken.open_of_open {c d : IoContext} (h : Taken s after w c) (hd : after.Open d) :
    s.Open d := by
  rcases hd with hd | ⟨v, hv, rfl⟩
  · rw [h.inFlight] at hd
    exact Or.inl (List.mem_of_mem_erase hd)
  · by_cases hvw : v = w
    · rw [hvw, h.context]
      exact Or.inl h.mem
    · rw [h.worker v hvw]
      exact Or.inr ⟨v, (h.busy_of_ne hvw).mp hv, rfl⟩

theorem living_dequeue {c : IoContext} {failed : Bool} (hs : s.Living isSet)
    (hturn : s.InTurn isSet (.server (.dequeue w c failed)))
    (hstep : s.dequeue isSet w c failed = some after) : after.Living isSet := by
  obtain ⟨h, htodo, -⟩ := taken_of_dequeue hstep
  refine ⟨?_, ?_, ?_, ?_, ?_, ?_, ?_⟩
  · intro v
    by_cases hvw : v = w
    · rw [hvw, htodo, h.context]
      exact IoType.calls_mem_stages _ _
    · rw [h.worker v hvw]
      exact hs.staged v
  · rw [h.client]
    exact hs.distinct
  · rw [h.client, h.numClients]
    exact hs.numbered
  · rw [h.client, h.numClients, h.log]
    exact hs.buried
  · rw [h.client]
    exact fun d hd ↦ hs.live d (h.open_of_open hd)
  · intro v hv htype
    by_cases hvw : v = w
    · rw [hvw, h.context] at htype ⊢
      obtain ⟨hflight, hworkers, -⟩ := hturn.2 htype
      constructor
      · rw [h.inFlight]
        exact hflight
      · intro u huw hu
        rw [h.worker u huw]
        exact hworkers u ((h.busy_of_ne huw).mp hu)
    · rw [h.worker v hvw] at htype ⊢
      obtain ⟨hflight, hworkers⟩ := hs.closing v ((h.busy_of_ne hvw).mp hv) htype
      constructor
      · rw [h.inFlight]
        exact fun d hd ↦ hflight d (List.mem_of_mem_erase hd)
      · intro u huv hu
        by_cases huw : u = w
        · rw [huw, h.context]
          exact hflight c h.mem
        · rw [h.worker u huw]
          exact hworkers u huv ((h.busy_of_ne huw).mp hu)
  · intro v hv hset
    by_cases hvw : v = w
    · rw [hvw, htodo] at hv
      rw [hvw, h.context, h.clients]
      exact (hturn.2 (IoType.eq_disconnect_of_mem _ _ (IoType.calls_mem_stages _ _) hv)).2.2 hset
    · rw [h.worker v hvw] at hv ⊢
      rw [h.clients]
      exact hs.unlisted v hv hset

/-! ## The calls -/

/-- The client of a disconnect is destroyed, and the worker is through with it. -/
structure Destroyed (s after : CallbackServer ι) (w : ι) : Prop where
  type : (s.server.worker w).context.ioType = .disconnect
  mem : (s.server.worker w).context.client ∈ s.server.clients
  client : after.server.client =
    Function.update s.server.client (s.server.worker w).context.client none
  numClients : after.server.numClients = s.server.numClients
  clients : after.server.clients = s.server.clients.erase (s.server.worker w).context.client
  inFlight : after.server.inFlight = s.server.inFlight
  log : after.log = .destroyed (s.server.worker w).context.incarnation :: s.log

/-- What a call leaves the worker to do. -/
structure Called (isSet : Handler → Bool) (s after : CallbackServer ι) (w : ι) (c : ClientCall)
    (rest todo : List ClientCall) (flag : Bool) : Prop where
  idle : s.due w = none
  before : (s.server.worker w).todo = c :: rest
  posted : todo = rest ∨ ((c = .prepareReceive ∨ c = .receive) ∧ todo = rest ++ [.disconnect])
  worker : after.server.worker = (s.server.setTodo w todo).worker
  due : after.due = Function.update s.due w
    (schedule isSet (c.handlerAfter (s.server.worker w).context.ioType flag))

theorem Called.context {c : ClientCall} {rest todo : List ClientCall} {flag : Bool}
    (h : Called isSet s after w c rest todo flag) (v : ι) :
    (after.server.worker v).context = (s.server.worker v).context := by
  rw [h.worker]
  exact ServerState.context_setTodo w v todo

theorem Called.todo {c : ClientCall} {rest todo : List ClientCall} {flag : Bool}
    (h : Called isSet s after w c rest todo flag) (v : ι) :
    (after.server.worker v).todo = if v = w then todo else (s.server.worker v).todo := by
  rw [h.worker]
  exact ServerState.todo_setTodo w v todo

theorem Called.busy {c : ClientCall} {rest todo : List ClientCall} {flag : Bool}
    (h : Called isSet s after w c rest todo flag) : s.Busy w :=
  Or.inl (by rw [h.before]; exact List.cons_ne_nil _ _)

/-- What is left to do is a later stage, and it does not end with a call that removes the client. -/
theorem Called.stage {c : ClientCall} {rest todo : List ClientCall} {flag : Bool}
    (h : Called isSet s after w c rest todo flag) (hs : s.Living isSet) :
    todo ∈ (s.server.worker w).context.ioType.stages ∧ .removeClient ∉ todo := by
  have hnext : ∀ t : IoType, ∀ todo ∈ t.stages, ∀ c ∈ todo.head?,
      todo.tail ∈ t.stages ∧ .removeClient ∉ todo.tail ∧
        (c = .prepareReceive ∨ c = .receive → todo.tail ++ [.disconnect] ∈ t.stages) := by
    intro t
    cases t <;> decide
  have hnow := hnext _ _ (hs.staged w) c (by rw [h.before]; rfl)
  rw [h.before, List.tail_cons] at hnow
  obtain ⟨htail, hremove, hfailed⟩ := hnow
  rcases h.posted with rfl | ⟨hc, rfl⟩
  · exact ⟨htail, hremove⟩
  · exact ⟨hfailed hc, by simpa using hremove⟩

theorem Called.advance {c : ClientCall} {rest todo : List ClientCall} {flag : Bool}
    {new : List IoContext} (h : Called isSet s after w c rest todo flag) (hs : s.Living isSet)
    (hclient : after.server.client = s.server.client)
    (hnum : after.server.numClients = s.server.numClients)
    (hclients : ∀ a ∈ after.server.clients, a ∈ s.server.clients ∨
      (a = (s.server.worker w).context.client ∧ (s.server.worker w).context.ioType = .accept))
    (hflight : after.server.inFlight = new ++ s.server.inFlight)
    (hposted : ∀ d ∈ new, d.client = (s.server.worker w).context.client ∧
      d.incarnation = (s.server.worker w).context.incarnation ∧
      (s.server.worker w).context.ioType ≠ .disconnect ∧
      (d.ioType.Receives → (s.server.worker w).context.ioType.Chained))
    (hlog : after.log = s.log) : Advance s after w new [] where
  busy := h.busy
  client := hclient
  numClients := hnum
  clients := hclients
  inFlight := hflight
  posted := hposted
  context := h.context
  todo v hv := by rw [h.todo, if_neg hv]
  due v hv := by rw [h.due, Function.update_of_ne hv]
  log := hlog
  spares x := List.not_mem_nil
  removes hmem := by
    rw [h.todo, if_pos rfl] at hmem
    exact absurd hmem (h.stage hs).2

theorem call_cases {flag : Bool} (hs : s.Living isSet)
    (hstep : s.call isSet w flag = some after) : ∃ c rest todo,
      Called isSet s after w c rest todo flag ∧
        ((∃ new, Advance s after w new []) ∨
          (c = .removeClient ∧ Destroyed s after w)) := by
  obtain ⟨hdue, hstep⟩ := Option.ite_none_right_eq_some.mp hstep
  obtain ⟨server, hserver, rfl⟩ := Option.map_eq_some_iff.mp hstep
  cases htodo : (s.server.worker w).todo with
  | nil => simp [ServerState.call, htodo] at hserver
  | cons c rest =>
    have hnext := IoType.next_stage _ _ (hs.staged w) c (by rw [htodo]; rfl)
    have hlast := IoType.last_of_receive _ _ (hs.staged w) c (by rw [htodo]; rfl)
    obtain ⟨-, -, hremove, hadd, -⟩ := hnext
    have hcalled {todo : List ClientCall}
        (hposted : todo = rest ∨
          ((c = .prepareReceive ∨ c = .receive) ∧ todo = rest ++ [.disconnect]))
        (hworker : server.worker = (s.server.setTodo w todo).worker) :
        Called isSet s (s.proceed isSet w flag server) w c rest todo flag :=
      ⟨hdue, htodo, hposted, hworker, by rw [proceed, htodo]; rfl⟩
    have hlog (hc : ¬ (c = .removeClient ∧
        (s.server.worker w).context.client ∈ s.server.clients)) : s.destroys w ++ s.log = s.log := by
      rw [destroys, if_neg, List.nil_append]
      rintro ⟨hhead, hmem⟩
      rw [htodo] at hhead
      exact hc ⟨Option.some.inj hhead, hmem⟩
    -- a call that does nothing but post an operation
    have hpost {ioType : IoType} {todo : List ClientCall} (hc : c ≠ .removeClient)
        (hposted : todo = rest ∨
          ((c = .prepareReceive ∨ c = .receive) ∧ todo = rest ++ [.disconnect]))
        (hserver : (s.server.setTodo w todo).postOperation w ioType flag = server)
        (htype : ioType.Receives → (s.server.worker w).context.ioType.Chained) :
        Advance s (s.proceed isSet w flag server) w
          (if flag then [⟨ioType, (s.server.worker w).context.client,
            (s.server.worker w).context.incarnation⟩] else []) [] := by
      rw [ServerState.postOperation, ServerState.context_setTodo] at hserver
      subst hserver
      refine (hcalled hposted rfl).advance hs rfl rfl (fun a ↦ Or.inl) rfl ?_
        (hlog fun h ↦ hc h.1)
      intro d hd
      rw [ServerState.mem_ite_singleton hd]
      exact ⟨rfl, rfl, fun h ↦ hc (hremove.mpr h), htype⟩
    have hfailed (hc : c = .prepareReceive ∨ c = .receive) :
        (if flag then rest else rest ++ [.disconnect]) = rest ∨
          ((c = .prepareReceive ∨ c = .receive) ∧
            (if flag then rest else rest ++ [.disconnect]) = rest ++ [.disconnect]) := by
      cases flag with
      | true => exact Or.inl rfl
      | false => exact Or.inr ⟨hc, rfl⟩
    unfold ServerState.call at hserver
    rw [htodo] at hserver
    cases c with
    | addClient =>
      obtain rfl := Option.some.inj hserver
      have hall := hcalled (Or.inl rfl) rfl
      refine ⟨_, rest, rest, hall, Or.inl ⟨[], hall.advance hs rfl rfl ?_ rfl ?_ (hlog (by simp))⟩⟩
      · intro a ha
        rcases List.mem_append.mp ha with ha | ha
        · exact Or.inl ha
        · exact Or.inr ⟨List.mem_singleton.mp ha, hadd rfl⟩
      · exact fun d hd ↦ absurd hd List.not_mem_nil
    | postReceive | postSend =>
      obtain rfl := Option.some.inj hserver
      have hall := hcalled (Or.inl rfl) rfl
      refine ⟨_, rest, rest, hall, Or.inl ⟨[], hall.advance hs rfl rfl (fun a ↦ Or.inl) rfl ?_
        (hlog (by simp))⟩⟩
      exact fun d hd ↦ absurd hd List.not_mem_nil
    | disconnect =>
      have hserver := Option.some.inj hserver
      have hall := hcalled (Or.inl rfl) (congrArg ServerState.worker hserver).symm
      refine ⟨_, rest, rest, hall, Or.inl ⟨_, hpost (by decide) (Or.inl rfl) hserver ?_⟩⟩
      rintro (h | h) <;> cases h
    | prepareReceive | receive =>
      have hserver := Option.some.inj hserver
      have hposted := hfailed (by decide)
      have hall := hcalled hposted (congrArg ServerState.worker hserver).symm
      refine ⟨_, rest, _, hall, Or.inl ⟨_, hpost (by decide) hposted hserver ?_⟩⟩
      exact fun _ ↦ (hlast (by decide)).2
    | removeClient =>
      obtain rfl := Option.some.inj hserver
      have htype := hremove.mp rfl
      have hall := hcalled (Or.inl rfl) (by
        rw [ServerState.removeClient]
        split <;> rfl)
      refine ⟨_, rest, rest, hall, ?_⟩
      by_cases hmem : (s.server.worker w).context.client ∈ s.server.clients
      · right
        have hgone : (s.server.setTodo w rest).removeClient (s.server.worker w).context.client =
            { s.server.setTodo w rest with
              client := Function.update s.server.client (s.server.worker w).context.client none
              current := sub32 s.server.current 1
              clients := s.server.clients.erase (s.server.worker w).context.client } := if_pos hmem
        have hlive := hs.live _ hall.busy.open
        rw [hgone]
        refine ⟨rfl, htype, hmem, rfl, rfl, rfl, rfl, ?_⟩
        change s.destroys w ++ s.log = _
        rw [destroys, if_pos ⟨by rw [htodo]; rfl, hmem⟩, hlive]
        rfl
      · left
        have hsame : (s.server.setTodo w rest).removeClient (s.server.worker w).context.client =
            s.server.setTodo w rest := if_neg hmem
        rw [hsame] at hall ⊢
        refine ⟨[], hall.advance hs rfl rfl (fun a ↦ Or.inl) rfl ?_ (hlog fun h ↦ hmem h.2)⟩
        exact fun d hd ↦ absurd hd List.not_mem_nil

/-- After the client is destroyed there is nothing left to do for its disconnect. -/
theorem not_busy_of_destroyed {rest todo : List ClientCall} {flag : Bool} (hs : s.Living isSet)
    (hcalled : Called isSet s after w .removeClient rest todo flag) (h : Destroyed s after w) :
    ¬ after.Busy w := by
  have hlast : ∀ t : IoType, ∀ todo ∈ t.stages, todo.head? = some .removeClient →
      todo.tail = [] := by
    intro t
    cases t <;> decide
  have hrest := hlast _ _ (hs.staged w) (by rw [hcalled.before]; rfl)
  rw [hcalled.before, List.tail_cons] at hrest
  have htodo : todo = [] := by
    rcases hcalled.posted with h | ⟨h | h, -⟩
    · exact h.trans hrest
    all_goals cases h
  have hunset : isSet .postDisconnect ≠ true := fun hset ↦
    hs.unlisted w (by rw [hcalled.before]; exact List.mem_cons_self) hset h.mem
  rintro (hbusy | hbusy)
  · rw [hcalled.todo, if_pos rfl] at hbusy
    exact hbusy htodo
  · rw [hcalled.due, Function.update_self] at hbusy
    exact hbusy (if_neg (by simpa using hunset))

theorem Called.busy_of_ne {c : ClientCall} {rest todo : List ClientCall} {flag : Bool}
    (h : Called isSet s after w c rest todo flag) {v : ι} (hvw : v ≠ w) :
    after.Busy v ↔ s.Busy v := by
  rw [Busy, Busy, h.todo, if_neg hvw, h.due, Function.update_of_ne hvw]

/-- What is open after a client is destroyed was open before, and is of another client. -/
theorem Destroyed.open_of_open {rest todo : List ClientCall} {flag : Bool} {c : IoContext}
    (h : Destroyed s after w) (hs : s.Living isSet)
    (hcalled : Called isSet s after w .removeClient rest todo flag) (hc : after.Open c) :
    s.Open c ∧ c.client ≠ (s.server.worker w).context.client := by
  obtain ⟨hflight, hworkers⟩ := hs.closing w hcalled.busy h.type
  rcases hc with hc | ⟨v, hv, rfl⟩
  · rw [h.inFlight] at hc
    exact ⟨Or.inl hc, hflight c hc⟩
  · have hvw : v ≠ w := by
      rintro rfl
      exact not_busy_of_destroyed hs hcalled h hv
    have hbusy := (hcalled.busy_of_ne hvw).mp hv
    rw [hcalled.context]
    exact ⟨Busy.open hbusy, hworkers v hvw hbusy⟩

theorem living_destroyed {rest todo : List ClientCall} {flag : Bool} (hs : s.Living isSet)
    (hcalled : Called isSet s after w .removeClient rest todo flag) (h : Destroyed s after w) :
    after.Living isSet := by
  have hdead := not_busy_of_destroyed hs hcalled h
  have hlive := hs.live _ hcalled.busy.open
  have hold (b x : ℕ) (hb : after.server.client b = some x) :
      b ≠ (s.server.worker w).context.client ∧ s.server.client b = some x := by
    rw [h.client, Function.update_apply] at hb
    split at hb
    case isTrue => cases hb
    case isFalse hne => exact ⟨hne, hb⟩
  have hbusy {v : ι} (hv : after.Busy v) : v ≠ w ∧ s.Busy v := by
    have hvw : v ≠ w := by
      rintro rfl
      exact hdead hv
    exact ⟨hvw, (hcalled.busy_of_ne hvw).mp hv⟩
  refine ⟨?_, ?_, ?_, ?_, ?_, ?_, ?_⟩
  · intro v
    rw [hcalled.context, hcalled.todo]
    split
    case isTrue hvw =>
      rw [hvw]
      exact (hcalled.stage hs).1
    case isFalse => exact hs.staged v
  · exact fun a b x ha hb ↦ hs.distinct a b x (hold a x ha).2 (hold b x hb).2
  · rw [h.numClients]
    exact fun a x ha ↦ hs.numbered a x (hold a x ha).2
  · rw [h.numClients, h.log]
    intro x hx
    rcases List.mem_cons.mp hx with heq | hx
    · obtain rfl : x = _ := ClientEvent.destroyed.inj heq
      refine ⟨hs.numbered _ _ hlive, fun a ha ↦ ?_⟩
      obtain ⟨hne, ha⟩ := hold a _ ha
      exact hne (hs.distinct _ _ _ ha hlive)
    · exact ⟨(hs.buried x hx).1, fun a ha ↦ (hs.buried x hx).2 a (hold a x ha).2⟩
  · intro c hc
    obtain ⟨hopen, hne⟩ := h.open_of_open hs hcalled hc
    rw [h.client, Function.update_of_ne hne]
    exact hs.live c hopen
  · intro v hv htype
    rw [hcalled.context] at htype ⊢
    obtain ⟨hflight, hworkers⟩ := hs.closing v (hbusy hv).2 htype
    constructor
    · rw [h.inFlight]
      exact hflight
    · intro u huv hu
      rw [hcalled.context]
      exact hworkers u huv (hbusy hu).2
  · intro v hv hset hmem
    rw [hcalled.todo] at hv
    split at hv
    case isTrue => exact (hcalled.stage hs).2 hv
    case isFalse =>
      rw [hcalled.context, h.clients] at hmem
      exact hs.unlisted v hv hset (List.mem_of_mem_erase hmem)

theorem advance_callHandler {h : Handler} (hdue : s.due w = some (.pending h)) :
    Advance s { s with
      due := Function.update s.due w (some (.running h))
      log := .called h (s.server.worker w).context.incarnation :: s.log } w []
      [.called h (s.server.worker w).context.incarnation] where
  busy := Or.inr (by rw [hdue]; exact nofun)
  client := rfl
  numClients := rfl
  clients _ := Or.inl
  inFlight := rfl
  posted d hd := absurd hd List.not_mem_nil
  context _ := rfl
  todo _ _ := rfl
  due _ hv := Function.update_of_ne hv _ _
  log := rfl
  spares x := by simp
  removes := id

theorem advance_returnHandler {h : Handler} (hdue : s.due w = some (.running h)) :
    Advance s { s with
      due := Function.update s.due w none
      log := .returned h (s.server.worker w).context.incarnation :: s.log } w []
      [.returned h (s.server.worker w).context.incarnation] where
  busy := Or.inr (by rw [hdue]; exact nofun)
  client := rfl
  numClients := rfl
  clients _ := Or.inl
  inFlight := rfl
  posted d hd := absurd hd List.not_mem_nil
  context _ := rfl
  todo _ _ := rfl
  due _ hv := Function.update_of_ne hv _ _
  log := rfl
  spares x := by simp
  removes := id

/-! ## The disconnects -/

/-- Once the pre-disconnect handler is called for a client, nothing but its disconnect is open. -/
def Parted (s : CallbackServer ι) : Prop :=
  ∀ x, .called .preDisconnect x ∈ s.log → x < s.server.numClients ∧
    ∀ c, s.Open c → c.incarnation = x → c.ioType = .disconnect

omit [DecidableEq ι] in
/-- A worker goes on, and calls the pre-disconnect handler for a disconnect only. -/
theorem parted_advance {new : List IoContext} {events : List ClientEvent} (hs : s.Parted)
    (hliving : s.Living isSet) (h : Advance s after w new events)
    (hevents : ∀ x, .called .preDisconnect x ∈ events →
      x = (s.server.worker w).context.incarnation ∧
        (s.server.worker w).context.ioType = .disconnect) : after.Parted := by
  have hlive := hliving.live _ h.busy.open
  intro x hx
  rw [h.numClients]
  rw [h.log] at hx
  rcases List.mem_append.mp hx with hx | hx
  · obtain ⟨rfl, htype⟩ := hevents x hx
    refine ⟨hliving.numbered _ _ hlive, fun c hc hincarnation ↦ ?_⟩
    obtain ⟨hflight, hworkers⟩ := hliving.closing w h.busy htype
    rcases h.open_of_open hc with hc | hc
    · exact absurd htype (h.posted c hc).2.2.1
    · have hclient : c.client = (s.server.worker w).context.client := by
        have hother := hliving.live c hc
        rw [hincarnation] at hother
        exact hliving.distinct _ _ _ hother hlive
      rcases hc with hc | ⟨v, hv, rfl⟩
      · exact absurd hclient (hflight c hc)
      · by_cases hvw : v = w
        · rw [hvw]
          exact htype
        · exact absurd hclient (hworkers v hvw hv)
  · obtain ⟨hlt, hdisconnect⟩ := hs x hx
    refine ⟨hlt, fun c hc hincarnation ↦ ?_⟩
    rcases h.open_of_open hc with hc | hc
    · obtain ⟨-, hsame, hne, -⟩ := h.posted c hc
      exact absurd (hdisconnect _ h.busy.open (hsame ▸ hincarnation)) hne
    · exact hdisconnect c hc hincarnation

omit [DecidableEq ι] in
/-- Nothing is opened. -/
theorem Parted.of_open (hs : s.Parted) (hnum : after.server.numClients = s.server.numClients)
    (hlog : ∀ x, .called .preDisconnect x ∈ after.log → .called .preDisconnect x ∈ s.log)
    (hopen : ∀ c, after.Open c → s.Open c) : after.Parted := by
  intro x hx
  obtain ⟨hlt, hdisconnect⟩ := hs x (hlog x hx)
  rw [hnum]
  exact ⟨hlt, fun c hc ↦ hdisconnect c (hopen c hc)⟩

omit [DecidableEq ι] in
theorem parted_newClient {a : ℕ} {accepted : Bool} {server : ServerState ι} (hs : s.Parted)
    (hstep : s.server.newClient a accepted = some server) :
    ({ s with server := server } : CallbackServer ι).Parted := by
  obtain ⟨-, hafter⟩ := Option.ite_none_right_eq_some.mp hstep
  rw [← Option.some.inj hafter]
  intro x hx
  obtain ⟨hlt, hdisconnect⟩ := hs x hx
  refine ⟨Nat.lt_succ_of_lt hlt, fun c hc hincarnation ↦ ?_⟩
  rcases hc with hc | hc
  · rcases List.mem_append.mp hc with hc | hc
    · rw [ServerState.mem_ite_singleton hc] at hincarnation
      exact absurd hlt (by rw [← hincarnation]; exact Nat.lt_irrefl _)
    · exact hdisconnect c (Or.inl hc) hincarnation
  · exact hdisconnect c (Or.inr hc) hincarnation

omit [DecidableEq ι] in
theorem parted_operate {ioType : IoType} {a : ℕ} {accepted : Bool} {server : ServerState ι}
    (hs : s.Parted) (hfree : ∀ x ∈ s.server.client a, .called .preDisconnect x ∉ s.log)
    (hstep : s.server.operate ioType a accepted = some server) :
    ({ s with server := server } : CallbackServer ι).Parted := by
  obtain ⟨y, hy, rfl⟩ := Option.map_eq_some_iff.mp hstep
  intro x hx
  obtain ⟨hlt, hdisconnect⟩ := hs x hx
  refine ⟨hlt, fun c hc hincarnation ↦ ?_⟩
  rcases hc with hc | hc
  · rcases List.mem_append.mp hc with hc | hc
    · rw [ServerState.mem_ite_singleton hc] at hincarnation
      obtain rfl : y = x := hincarnation
      exact absurd hx (hfree y hy)
    · exact hdisconnect c (Or.inl hc) hincarnation
  · exact hdisconnect c (Or.inr hc) hincarnation

/-! ## The accepts -/

/-- The handlers for the accept of the client have returned, as far as they are set. -/
def Accepted (isSet : Handler → Bool) (s : CallbackServer ι) (x : ℕ) : Prop :=
  ∀ h, h = .preAccept ∨ h = .postAccept → isSet h = true → .returned h x ∈ s.log

/-- How far the accept of a client is when a worker stands where it does. -/
structure Stands (isSet : Handler → Bool) (s : CallbackServer ι) (w : ι) : Prop where
  typed : ∀ d, s.due w = some d → d.handler.ioType = (s.server.worker w).context.ioType
  first : ∀ d, s.due w = some d → d.handler = .preAccept →
    .prepareReceive ∈ (s.server.worker w).todo
  greeted : (s.server.worker w).context.ioType = .accept →
    (∀ d, s.due w = some d → d.handler ≠ .preAccept) → isSet .preAccept = true →
      .returned .preAccept (s.server.worker w).context.incarnation ∈ s.log
  accepted : (s.server.worker w).context.ioType = .accept →
    .prepareReceive ∉ (s.server.worker w).todo → s.due w = none →
      s.Accepted isSet (s.server.worker w).context.incarnation
  reading : (s.server.worker w).context.ioType = .recv →
    .postReceive ∈ (s.server.worker w).todo ∨ s.due w = some (.pending .postReceive) →
      s.Accepted isSet (s.server.worker w).context.incarnation

/-- While a receive is open, its client is accepted or its accept is being processed. -/
structure Accepting (isSet : Handler → Bool) (s : CallbackServer ι) : Prop where
  stands : ∀ w, s.Stands isSet w
  opened : ∀ c, s.Open c → c.ioType.Receives →
    s.Accepted isSet c.incarnation ∨ ∃ w, s.Processing w .accept c.client

omit [DecidableEq ι] in
theorem Accepted.mono {x : ℕ} (h : s.Accepted isSet x) (hlog : ∀ e ∈ s.log, e ∈ after.log) :
    after.Accepted isSet x :=
  fun a ha hset ↦ hlog _ (h a ha hset)

omit [DecidableEq ι] in
/-- A worker stands where it did, with a longer log. -/
theorem Stands.mono (h : s.Stands isSet w) (hworker : after.server.worker w = s.server.worker w)
    (hdue : after.due w = s.due w) (hlog : ∀ e ∈ s.log, e ∈ after.log) : after.Stands isSet w where
  typed := by
    rw [hdue, hworker]
    exact h.typed
  first := by
    rw [hdue, hworker]
    exact h.first
  greeted := by
    rw [hdue, hworker]
    exact fun htype hpast hset ↦ hlog _ (h.greeted htype hpast hset)
  accepted := by
    rw [hdue, hworker]
    exact fun htype hmem hnone ↦ (h.accepted htype hmem hnone).mono hlog
  reading := by
    rw [hdue, hworker]
    exact fun htype hread ↦ (h.reading htype hread).mono hlog

omit [DecidableEq ι] in
/-- A worker that is through with an accept has called its handlers. -/
theorem Stands.accepted_of_not_busy (h : s.Stands isSet w) (hidle : ¬ s.Busy w)
    (htype : (s.server.worker w).context.ioType = .accept) :
    s.Accepted isSet (s.server.worker w).context.incarnation := by
  have htodo : (s.server.worker w).todo = [] := by
    by_contra hne
    exact hidle (Or.inl hne)
  have hdue : s.due w = none := by
    by_contra hne
    exact hidle (Or.inr hne)
  exact h.accepted htype (by rw [htodo]; exact List.not_mem_nil) hdue

omit [DecidableEq ι] in
theorem accepting_advance {new : List IoContext} {events : List ClientEvent}
    (hs : s.Accepting isSet) (hliving : s.Living isSet) (h : Advance s after w new events)
    (hstands : after.Stands isSet w) : after.Accepting isSet := by
  have hlog (e : ClientEvent) (he : e ∈ s.log) : e ∈ after.log := by
    rw [h.log]
    exact List.mem_append_right _ he
  have hlive := hliving.live _ h.busy.open
  have hcontext := h.context w
  -- the accept that this worker may be processing
  have haccept (htype : (s.server.worker w).context.ioType = .accept) :
      after.Accepted isSet (s.server.worker w).context.incarnation ∨
        ∃ v, after.Processing v .accept (s.server.worker w).context.client := by
    by_cases hbusy : after.Busy w
    · exact Or.inr ⟨w, hbusy, by rw [hcontext]; exact htype, by rw [hcontext]⟩
    · left
      rw [← hcontext] at htype ⊢
      exact hstands.accepted_of_not_busy hbusy htype
  have hold (c : IoContext) (hc : s.Open c) (htype : c.ioType.Receives) :
      after.Accepted isSet c.incarnation ∨ ∃ v, after.Processing v .accept c.client := by
    rcases hs.opened c hc htype with hdone | ⟨v, hv, haccepts, hclient⟩
    · exact Or.inl (hdone.mono hlog)
    · by_cases hvw : v = w
      · rw [hvw] at haccepts hclient
        have hincarnation : c.incarnation = (s.server.worker w).context.incarnation := by
          have hother := hliving.live c hc
          rw [← hclient, hlive] at hother
          exact (Option.some.inj hother).symm
        rw [hincarnation, ← hclient]
        exact haccept haccepts
      · refine Or.inr ⟨v, ?_, ?_, ?_⟩
        · rw [Busy, h.todo v hvw, h.due v hvw]
          exact hv
        · rw [h.context]
          exact haccepts
        · rw [h.context]
          exact hclient
  refine ⟨fun v ↦ ?_, fun c hc htype ↦ ?_⟩
  · by_cases hvw : v = w
    · rw [hvw]
      exact hstands
    · have hworker : after.server.worker v = s.server.worker v := by
        have hcv := h.context v
        have htv := h.todo v hvw
        cases hx : after.server.worker v
        cases hy : s.server.worker v
        rw [hx, hy] at hcv htv
        simp only at hcv htv
        rw [hcv, htv]
      exact (hs.stands v).mono hworker (h.due v hvw) hlog
  · rcases h.open_of_open hc with hc | hc
    · obtain ⟨hclient, hincarnation, -, hchained⟩ := h.posted c hc
      rw [hclient, hincarnation]
      rcases hchained htype with htype | htype
      · exact haccept htype
      · exact hold _ h.busy.open htype
    · exact hold c hc htype

omit [DecidableEq ι] in
theorem schedule_eq_some {h : Option Handler} {d : HandlerCall} (hd : schedule isSet h = some d) :
    ∃ handler, h = some handler ∧ d = .pending handler := by
  cases h with
  | none => cases hd
  | some handler =>
    obtain ⟨-, hd⟩ := Option.ite_none_right_eq_some.mp hd
    exact ⟨handler, rfl, (Option.some.inj hd).symm⟩

omit [DecidableEq ι] in
theorem not_set_of_schedule {h : Handler} (hnone : schedule isSet (some h) = none) : isSet h ≠ true := by
  intro hset
  rw [schedule, if_pos (Or.inr hset)] at hnone
  cases hnone

theorem stands_call {c : ClientCall} {rest todo : List ClientCall} {flag : Bool}
    (hs : s.Stands isSet w) (hliving : s.Living isSet)
    (hcalled : Called isSet s after w c rest todo flag) (hlog : ∀ e ∈ s.log, e ∈ after.log) :
    after.Stands isSet w := by
  have hhandler : ∀ t : IoType, ∀ todo ∈ t.stages, ∀ c ∈ todo.head?, ∀ flag,
      ∀ h ∈ c.handlerAfter t flag, h.ioType = t ∧ h ≠ .preAccept ∧
        (h = .postReceive → c = .postReceive) := by
    intro t
    cases t <;> decide
  have haccept : ∀ todo ∈ IoType.accept.stages, ∀ c ∈ todo.head?,
      .prepareReceive ∈ todo.tail ∨ c = .prepareReceive ∨ .prepareReceive ∉ todo := by
    decide
  have hstage := hliving.staged w
  have hhead : c ∈ (s.server.worker w).todo.head? := by
    rw [hcalled.before]
    rfl
  have hdue : after.due w =
      schedule isSet (c.handlerAfter (s.server.worker w).context.ioType flag) := by
    rw [hcalled.due, Function.update_self]
  have htodo : (after.server.worker w).todo = todo := by rw [hcalled.todo, if_pos rfl]
  have hgreeted (htype : (s.server.worker w).context.ioType = .accept)
      (hset : isSet .preAccept = true) :
      .returned .preAccept (s.server.worker w).context.incarnation ∈ after.log := by
    refine hlog _ (hs.greeted htype ?_ hset)
    rw [hcalled.idle]
    exact nofun
  have hmem (call : ClientCall) (hne : call ≠ .disconnect) (h : call ∈ todo) :
      call ∈ (s.server.worker w).todo := by
    rw [hcalled.before]
    rcases hcalled.posted with rfl | ⟨-, rfl⟩
    · exact List.mem_cons_of_mem _ h
    · rcases List.mem_append.mp h with h | h
      · exact List.mem_cons_of_mem _ h
      · exact absurd (List.mem_singleton.mp h) hne
  refine ⟨?_, ?_, ?_, ?_, ?_⟩
  · rw [hdue, hcalled.context]
    intro d hd
    obtain ⟨h, hafter, rfl⟩ := schedule_eq_some hd
    exact (hhandler _ _ hstage c hhead flag h hafter).1
  · rw [hdue]
    intro d hd hfirst
    obtain ⟨h, hafter, rfl⟩ := schedule_eq_some hd
    exact absurd hfirst (hhandler _ _ hstage c hhead flag h hafter).2.1
  · rw [hcalled.context]
    exact fun htype _ hset ↦ hgreeted htype hset
  · rw [hcalled.context, htodo, hdue]
    intro htype hnot hnone
    have hcases := haccept _ (htype ▸ hstage) c hhead
    rw [hcalled.before, List.tail_cons] at hcases
    rcases hcases with hin | rfl | hout
    · rcases hcalled.posted with rfl | ⟨-, rfl⟩
      · exact absurd hin hnot
      · exact absurd (List.mem_append_left _ hin) hnot
    · rw [htype] at hnone
      have hunset : isSet .postAccept ≠ true := not_set_of_schedule hnone
      rintro h (rfl | rfl) hset
      · exact hgreeted htype hset
      · exact absurd hset hunset
    · refine (hs.accepted htype ?_ hcalled.idle).mono hlog
      rw [hcalled.before]
      exact hout
  · rw [hcalled.context, htodo, hdue]
    intro htype hread
    refine (hs.reading htype (Or.inl ?_)).mono hlog
    rcases hread with hread | hread
    · exact hmem _ nofun hread
    · obtain ⟨h, hafter, heq⟩ := schedule_eq_some hread
      obtain rfl : h = .postReceive := (HandlerCall.pending.inj heq).symm
      rw [hcalled.before, (hhandler _ _ hstage c hhead flag _ hafter).2.2 rfl]
      exact List.mem_cons_self

theorem stands_callHandler {h : Handler} (hs : s.Stands isSet w)
    (hdue : s.due w = some (.pending h)) :
    ({ s with
      due := Function.update s.due w (some (.running h))
      log := .called h (s.server.worker w).context.incarnation :: s.log } :
        CallbackServer ι).Stands isSet w := by
  have hlog (e : ClientEvent) (he : e ∈ s.log) :
      e ∈ ClientEvent.called h (s.server.worker w).context.incarnation :: s.log :=
    List.mem_cons_of_mem _ he
  have hself : Function.update s.due w (some (.running h)) w = some (.running h) :=
    Function.update_self _ _ _
  have hrunning (d : HandlerCall)
      (hd : Function.update s.due w (some (.running h)) w = some d) : d = .running h :=
    Option.some.inj (hd.symm.trans hself)
  refine ⟨?_, ?_, ?_, ?_, ?_⟩
  · intro d hd
    rw [hrunning d hd]
    exact hs.typed (.pending h) hdue
  · intro d hd hfirst
    rw [hrunning d hd] at hfirst
    exact hs.first (.pending h) hdue hfirst
  · intro htype hpast hset
    refine hlog _ (hs.greeted htype ?_ hset)
    intro d hd
    rw [Option.some.inj (hd.symm.trans hdue)]
    exact hpast (.running h) hself
  · intro _ _ hnone
    cases hself.symm.trans hnone
  · intro htype hread
    rcases hread with hread | hread
    · exact (hs.reading htype (Or.inl hread)).mono hlog
    · cases hself.symm.trans hread

theorem stands_returnHandler {h : Handler} (hs : s.Stands isSet w)
    (hdue : s.due w = some (.running h)) :
    ({ s with
      due := Function.update s.due w none
      log := .returned h (s.server.worker w).context.incarnation :: s.log } :
        CallbackServer ι).Stands isSet w := by
  have hlog (e : ClientEvent) (he : e ∈ s.log) :
      e ∈ ClientEvent.returned h (s.server.worker w).context.incarnation :: s.log :=
    List.mem_cons_of_mem _ he
  have hself : Function.update s.due w none w = none := Function.update_self _ _ _
  have hgreeted (htype : (s.server.worker w).context.ioType = .accept)
      (hset : isSet .preAccept = true) :
      ClientEvent.returned .preAccept (s.server.worker w).context.incarnation ∈
        ClientEvent.returned h (s.server.worker w).context.incarnation :: s.log := by
    by_cases hfirst : h = .preAccept
    · rw [hfirst]
      exact List.mem_cons_self
    · refine hlog _ (hs.greeted htype ?_ hset)
      intro d hd
      obtain rfl := Option.some.inj (hdue.symm.trans hd)
      exact hfirst
  refine ⟨?_, ?_, ?_, ?_, ?_⟩
  · intro d hd
    cases hself.symm.trans hd
  · intro d hd
    cases hself.symm.trans hd
  · exact fun htype _ hset ↦ hgreeted htype hset
  · intro htype hnot _
    rintro a (rfl | rfl) hset
    · exact hgreeted htype hset
    · -- the handler that has returned is not the one before the accept, so it is the one after it
      have htyped : h.ioType = .accept := (hs.typed _ hdue).trans htype
      have hlast : h = .postAccept := by
        cases h with
        | postAccept => rfl
        | preAccept => exact absurd (hs.first _ hdue rfl) hnot
        | _ => cases htyped
      rw [hlast]
      exact List.mem_cons_self
  · intro htype hread
    rcases hread with hread | hread
    · exact (hs.reading htype (Or.inl hread)).mono hlog
    · cases hself.symm.trans hread

omit [DecidableEq ι] in
/-- No receive is opened, and every accept goes on. -/
theorem Accepting.of_open (hs : s.Accepting isSet) (hstands : ∀ v, after.Stands isSet v)
    (hlog : ∀ e ∈ s.log, e ∈ after.log)
    (hopen : ∀ c, after.Open c → c.ioType.Receives → s.Open c)
    (hkeep : ∀ v a, s.Processing v .accept a → after.Processing v .accept a) :
    after.Accepting isSet := by
  refine ⟨hstands, fun c hc htype ↦ ?_⟩
  rcases hs.opened c (hopen c hc htype) htype with hdone | ⟨v, hv⟩
  · exact Or.inl (hdone.mono hlog)
  · exact Or.inr ⟨v, hkeep v _ hv⟩

theorem stands_dequeue {c : IoContext} {failed : Bool} (hs : s.Accepting isSet)
    (hturn : s.InTurn isSet (.server (.dequeue w c failed)))
    (hstep : s.dequeue isSet w c failed = some after) : after.Stands isSet w := by
  obtain ⟨h, htodo, hdue⟩ := taken_of_dequeue hstep
  have hbefore : ∀ t : IoType, ∀ failed, ∀ h ∈ t.handlerBefore failed,
      h.ioType = t ∧ h ≠ .postReceive ∧ (h = .preAccept → t = .accept) := by
    intro t
    cases t <;> decide
  refine ⟨?_, ?_, ?_, ?_, ?_⟩
  · rw [hdue, h.context]
    intro d hd
    obtain ⟨handler, hfirst, rfl⟩ := schedule_eq_some hd
    exact (hbefore _ _ handler hfirst).1
  · rw [hdue, htodo]
    intro d hd heq
    obtain ⟨handler, hfirst, rfl⟩ := schedule_eq_some hd
    rw [(hbefore _ _ handler hfirst).2.2 heq]
    exact List.mem_cons_of_mem _ List.mem_cons_self
  · rw [hdue, h.context]
    intro htype hpast hset
    rw [htype] at hpast
    exact absurd rfl (hpast (.pending .preAccept) (if_pos (Or.inr hset)))
  · rw [htodo, h.context]
    intro htype hnot
    rw [htype] at hnot
    exact absurd (List.mem_cons_of_mem _ List.mem_cons_self) hnot
  · rw [htodo, hdue, h.context]
    intro htype hread
    have hfailed : failed = false := by
      rcases hread with hread | hread
      · rw [htype] at hread
        cases failed with
        | false => rfl
        | true => simp [IoType.calls] at hread
      · rw [htype] at hread
        cases hread
    rcases hs.opened c (Or.inl h.mem) (Or.inr htype) with hdone | ⟨v, hv⟩
    · exact hdone.mono fun e he ↦ h.log ▸ he
    · exact absurd hv (hturn.1 htype hfailed v)

theorem accepting_dequeue {c : IoContext} {failed : Bool} (hs : s.Accepting isSet)
    (hturn : s.InTurn isSet (.server (.dequeue w c failed)))
    (hstep : s.dequeue isSet w c failed = some after) : after.Accepting isSet := by
  obtain ⟨h, -⟩ := taken_of_dequeue hstep
  have hlog (e : ClientEvent) (he : e ∈ s.log) : e ∈ after.log := h.log ▸ he
  refine hs.of_open ?_ hlog (fun d hd _ ↦ h.open_of_open hd) ?_
  · intro v
    by_cases hvw : v = w
    · rw [hvw]
      exact stands_dequeue hs hturn hstep
    · exact (hs.stands v).mono (h.worker v hvw) (h.due v hvw) hlog
  · rintro v a ⟨hbusy, hprocessing⟩
    have hvw : v ≠ w := by
      rintro rfl
      exact h.idle hbusy
    refine ⟨(h.busy_of_ne hvw).mpr hbusy, ?_⟩
    rw [h.worker v hvw]
    exact hprocessing

theorem accepting_destroyed {rest todo : List ClientCall} {flag : Bool} (hs : s.Accepting isSet)
    (hliving : s.Living isSet) (hcalled : Called isSet s after w .removeClient rest todo flag)
    (h : Destroyed s after w) : after.Accepting isSet := by
  have hlog (e : ClientEvent) (he : e ∈ s.log) : e ∈ after.log := by
    rw [h.log]
    exact List.mem_cons_of_mem _ he
  refine hs.of_open ?_ hlog (fun d hd _ ↦ (h.open_of_open hliving hcalled hd).1) ?_
  · intro v
    by_cases hvw : v = w
    · rw [hvw]
      exact stands_call (hs.stands w) hliving hcalled hlog
    · refine (hs.stands v).mono ?_ (by rw [hcalled.due, Function.update_of_ne hvw]) hlog
      rw [hcalled.worker]
      exact Function.update_of_ne hvw _ _
  · rintro v a ⟨hbusy, hprocessing⟩
    have hvw : v ≠ w := by
      rintro rfl
      have htype := hprocessing.1
      rw [h.type] at htype
      cases htype
    refine ⟨(hcalled.busy_of_ne hvw).mpr hbusy, ?_⟩
    rw [hcalled.context]
    exact hprocessing

omit [DecidableEq ι] in
/-- The server posts operations that are no receives. -/
theorem accepting_of_posted {new : List IoContext} {server : ServerState ι}
    (hs : s.Accepting isSet) (hworker : server.worker = s.server.worker)
    (hflight : server.inFlight = new ++ s.server.inFlight)
    (hnew : ∀ c ∈ new, ¬ c.ioType.Receives) :
    ({ s with server := server } : CallbackServer ι).Accepting isSet := by
  refine hs.of_open (fun v ↦ ?_) (fun e ↦ id) ?_ ?_
  · exact (hs.stands v).mono (congrFun hworker v) rfl fun e ↦ id
  · rintro c (hc | ⟨v, hv, rfl⟩) htype
    · change c ∈ server.inFlight at hc
      rw [hflight] at hc
      rcases List.mem_append.mp hc with hc | hc
      · exact absurd htype (hnew c hc)
      · exact Or.inl hc
    · simp only [Busy, hworker] at hv ⊢
      exact Busy.open hv
  · intro v a hv
    simp only [Processing, Busy, hworker]
    exact hv

/-! ## The life cycle -/

structure Sound (isSet : Handler → Bool) (s : CallbackServer ι) : Prop where
  living : s.Living isSet
  parted : s.Parted
  accepting : s.Accepting isSet
  lifeCycle : Respects (LifeCycle isSet) s.log

omit [DecidableEq ι] in
theorem sound_initial : (initial ι).Sound isSet := by
  have hidle (w : ι) : ¬ (initial ι).Busy w := by
    simp [Busy, initial, ServerState.initial]
  have hopen (c : IoContext) : ¬ (initial ι).Open c := by
    rintro (hc | ⟨w, hw, -⟩)
    · exact List.not_mem_nil hc
    · exact hidle w hw
  refine ⟨⟨?_, ?_, ?_, ?_, ?_, ?_, ?_⟩, ?_, ⟨?_, ?_⟩, respects_nil⟩
  · intro w
    change [] ∈ IoType.stages .disconnect
    decide
  · intro a b x ha
    cases ha
  · intro a x ha
    cases ha
  · exact fun x hx ↦ absurd hx List.not_mem_nil
  · exact fun c hc ↦ absurd hc (hopen c)
  · exact fun w hw ↦ absurd hw (hidle w)
  · exact fun w hw ↦ absurd hw List.not_mem_nil
  · exact fun x hx ↦ absurd hx List.not_mem_nil
  · intro w
    refine ⟨?_, ?_, ?_, ?_, ?_⟩
    · intro d hd
      cases hd
    · intro d hd
      cases hd
    all_goals
      intro htype
      cases htype
  · exact fun c hc ↦ absurd hc (hopen c)

omit [DecidableEq ι] in
/-- A handler is called for a client that is in the right part of its life. -/
theorem lifeCycle_called {h : Handler} (hs : s.Sound isSet) (hdue : s.due w = some (.pending h)) :
    LifeCycle isSet (.called h (s.server.worker w).context.incarnation) s.log := by
  have hbusy : s.Busy w := Or.inr (by rw [hdue]; exact nofun)
  have htyped : h.ioType = (s.server.worker w).context.ioType :=
    (hs.accepting.stands w).typed _ hdue
  refine ⟨?_, ?_, ?_⟩
  · intro hdestroyed
    exact (hs.living.buried _ hdestroyed).2 _ (hs.living.live _ hbusy.open)
  · rintro rfl a ha hset
    exact (hs.accepting.stands w).reading htyped.symm (Or.inr hdue) a ha hset
  · intro hkind hparted
    have hdisconnect := (hs.parted _ hparted).2 _ hbusy.open rfl
    rw [← htyped] at hdisconnect
    rcases hkind with rfl | rfl | rfl
    all_goals cases hdisconnect

theorem sound_callHandler (hs : s.Sound isSet) (hstep : s.callHandler w = some after) :
    after.Sound isSet := by
  obtain ⟨h, hdue, rfl⟩ := callHandler_eq_some.mp hstep
  have hadvance := advance_callHandler hdue
  refine ⟨living_advance hs.living hadvance (hs.living.staged w),
    parted_advance hs.parted hs.living hadvance ?_,
    accepting_advance hs.accepting hs.living hadvance
      (stands_callHandler (hs.accepting.stands w) hdue),
    respects_cons.mpr ⟨lifeCycle_called hs hdue, hs.lifeCycle⟩⟩
  intro x hx
  obtain ⟨rfl, rfl⟩ := ClientEvent.called.inj (List.mem_singleton.mp hx)
  exact ⟨rfl, ((hs.accepting.stands w).typed _ hdue).symm⟩

theorem sound_returnHandler (hs : s.Sound isSet) (hstep : s.returnHandler w = some after) :
    after.Sound isSet := by
  obtain ⟨h, hdue, rfl⟩ := returnHandler_eq_some.mp hstep
  have hadvance := advance_returnHandler hdue
  refine ⟨living_advance hs.living hadvance (hs.living.staged w),
    parted_advance hs.parted hs.living hadvance (by simp),
    accepting_advance hs.accepting hs.living hadvance
      (stands_returnHandler (hs.accepting.stands w) hdue),
    respects_cons.mpr ⟨trivial, hs.lifeCycle⟩⟩

theorem sound_call {flag : Bool} (hs : s.Sound isSet)
    (hstep : s.call isSet w flag = some after) : after.Sound isSet := by
  obtain ⟨c, rest, todo, hcalled, hcase⟩ := call_cases hs.living hstep
  have hstage : (after.server.worker w).todo ∈ (after.server.worker w).context.ioType.stages := by
    rw [hcalled.context, hcalled.todo, if_pos rfl]
    exact (hcalled.stage hs.living).1
  rcases hcase with ⟨new, hadvance⟩ | ⟨rfl, hdestroyed⟩
  · have hlog : after.log = s.log := hadvance.log
    refine ⟨living_advance hs.living hadvance hstage,
      parted_advance hs.parted hs.living hadvance (by simp),
      accepting_advance hs.accepting hs.living hadvance
        (stands_call (hs.accepting.stands w) hs.living hcalled fun e he ↦ hlog ▸ he), ?_⟩
    rw [hlog]
    exact hs.lifeCycle
  · refine ⟨living_destroyed hs.living hcalled hdestroyed, ?_,
      accepting_destroyed hs.accepting hs.living hcalled hdestroyed, ?_⟩
    · apply hs.parted.of_open hdestroyed.numClients
      · rw [hdestroyed.log]
        exact fun x hx ↦ (List.mem_cons.mp hx).resolve_left nofun
      · exact fun c hc ↦ (hdestroyed.open_of_open hs.living hcalled hc).1
    · rw [hdestroyed.log]
      exact respects_cons.mpr ⟨trivial, hs.lifeCycle⟩

theorem sound_dequeue {c : IoContext} {failed : Bool} (hs : s.Sound isSet)
    (hturn : s.InTurn isSet (.server (.dequeue w c failed)))
    (hstep : s.dequeue isSet w c failed = some after) : after.Sound isSet := by
  obtain ⟨h, -⟩ := taken_of_dequeue hstep
  refine ⟨living_dequeue hs.living hturn hstep, ?_, accepting_dequeue hs.accepting hturn hstep, ?_⟩
  · apply hs.parted.of_open h.numClients
    · rw [h.log]
      exact fun x ↦ id
    · exact fun c ↦ h.open_of_open
  · rw [h.log]
    exact hs.lifeCycle

omit [DecidableEq ι] in
theorem sound_operate {ioType : IoType} {a : ℕ} {accepted : Bool} {server : ServerState ι}
    (hs : s.Sound isSet) (htype : ¬ ioType.Receives)
    (hidle : ∀ v, ¬ s.Processing v .disconnect a)
    (hfree : ∀ x ∈ s.server.client a, .called .preDisconnect x ∉ s.log)
    (hstep : s.server.operate ioType a accepted = some server) :
    ({ s with server := server } : CallbackServer ι).Sound isSet := by
  refine ⟨living_operate hs.living hidle hstep, parted_operate hs.parted hfree hstep, ?_,
    hs.lifeCycle⟩
  obtain ⟨x, -, rfl⟩ := Option.map_eq_some_iff.mp hstep
  refine accepting_of_posted hs.accepting rfl rfl ?_
  intro c hc
  rw [ServerState.mem_ite_singleton hc]
  exact htype

omit [DecidableEq ι] in
theorem sound_newClient {a : ℕ} {accepted : Bool} {server : ServerState ι} (hs : s.Sound isSet)
    (hstep : s.server.newClient a accepted = some server) :
    ({ s with server := server } : CallbackServer ι).Sound isSet := by
  refine ⟨living_newClient hs.living hstep, parted_newClient hs.parted hstep, ?_, hs.lifeCycle⟩
  obtain ⟨-, hafter⟩ := Option.ite_none_right_eq_some.mp hstep
  rw [← Option.some.inj hafter]
  refine accepting_of_posted hs.accepting rfl rfl ?_
  intro c hc
  rw [ServerState.mem_ite_singleton hc]
  rintro (h | h) <;> cases h

theorem sound_step {action : CallbackAction ι} (hs : s.Sound isSet)
    (hturn : s.InTurn isSet action) (hstep : s.step isSet action = some after) :
    after.Sound isSet := by
  cases action with
  | server a =>
    cases a with
    | dequeue v c failed => exact sound_dequeue hs hturn hstep
    | call v flag => exact sound_call hs hstep
    | newClient a accepted =>
      obtain ⟨server, hserver, rfl⟩ := Option.map_eq_some_iff.mp hstep
      exact sound_newClient hs hserver
    | send a accepted | disconnect a accepted =>
      obtain ⟨server, hserver, rfl⟩ := Option.map_eq_some_iff.mp hstep
      refine sound_operate hs ?_ hturn.1 hturn.2 hserver
      rintro (h | h) <;> cases h
  | callHandler v => exact sound_callHandler hs hstep
  | returnHandler v => exact sound_returnHandler hs hstep

/-- The handlers are called in the order of the life cycle in every run in which completions are
dequeued in turn. -/
theorem lifeCycle_of_inTurn {history : List (CallbackServer ι × CallbackAction ι)}
    (hrun : (system isSet ι).Run history s) (hturn : System.Obeys (InTurn isSet) history) :
    ∀ seen ∈ System.visited history s, Respects (LifeCycle isSet) seen.log := by
  have hsound := hrun.invariant_visited (Sound isSet)
    (by rintro _ rfl; exact sound_initial)
    (fun state action after hs hcondition hstep ↦ sound_step hs hcondition hstep) hturn
  exact fun seen hseen ↦ (hsound seen hseen).lifeCycle

/-- A client is accepted and disconnected, with all handlers set. -/
def notifiedRemoval : List (CallbackAction (Fin 1)) :=
  [.server (.newClient 1 true), .server (.dequeue 0 ⟨.accept, 1, 0⟩ false), .callHandler 0,
    .returnHandler 0, .server (.call 0 true), .server (.call 0 true), .callHandler 0,
    .returnHandler 0, .server (.dequeue 0 ⟨.recvReady, 1, 0⟩ true), .server (.call 0 false),
    .server (.call 0 true), .server (.dequeue 0 ⟨.disconnect, 1, 0⟩ false), .callHandler 0,
    .returnHandler 0, .server (.call 0 true), .callHandler 0]

/-- The post-disconnect handler is called for a client that `RemoveClient` has destroyed. -/
theorem lifeCycle_fails :
    ¬ ∀ isSet history s, (system isSet (Fin 1)).Run history s → Respects (LifeCycle isSet) s.log := by
  intro hclaim
  have hreplay : (System.replay (step fun _ ↦ true) (initial (Fin 1)) notifiedRemoval).map
      (fun s ↦ decide (s.log.head? = some (.called .postDisconnect 0) ∧
        .destroyed 0 ∈ s.log.tail)) = some true := by decide +kernel
  obtain ⟨history, s, hrun, htest⟩ := System.exists_run_of_replay
    (fun s ↦ s = initial (Fin 1)) rfl hreplay
  obtain ⟨hhead, hdestroyed⟩ := of_decide_eq_true htest
  have hrespects := hclaim _ history s hrun
  rw [List.eq_cons_of_mem_head? hhead, respects_cons] at hrespects
  exact hrespects.1.1 hdestroyed

instance (w : ι) (t : IoType) (a : ℕ) : Decidable (s.Processing w t a) :=
  inferInstanceAs (Decidable ((_ ∨ _) ∧ _ ∧ _))

instance [Fintype ι] (action : CallbackAction ι) : Decidable (s.InTurn isSet action) :=
  match action with
  | .server (.dequeue _ c _) => inferInstanceAs (Decidable ((_ → _ → ∀ _, _) ∧
      (_ → (∀ d ∈ s.server.inFlight.erase c, _) ∧ (∀ _, (_ ∨ _) → _) ∧ (_ → _))))
  | .server (.send a _) | .server (.disconnect a _) =>
    inferInstanceAs (Decidable ((∀ _, _) ∧ ∀ x ∈ s.server.client a, _))
  | .server (.newClient _ _) | .server (.call _ _) | .callHandler _ | .returnHandler _ =>
    isTrue trivial

/-- A client is accepted, sends a packet and is disconnected after a failed receive. -/
def orderlyLife : List (CallbackAction (Fin 1)) :=
  [.server (.newClient 1 true), .server (.dequeue 0 ⟨.accept, 1, 0⟩ false), .callHandler 0,
    .returnHandler 0, .server (.call 0 true), .server (.call 0 true), .callHandler 0,
    .returnHandler 0, .server (.dequeue 0 ⟨.recvReady, 1, 0⟩ true), .server (.call 0 true),
    .server (.dequeue 0 ⟨.recv, 1, 0⟩ false), .server (.call 0 true), .callHandler 0,
    .returnHandler 0, .server (.call 0 true), .server (.dequeue 0 ⟨.recvReady, 1, 0⟩ true),
    .server (.call 0 false), .server (.call 0 true),
    .server (.dequeue 0 ⟨.disconnect, 1, 0⟩ false), .callHandler 0, .returnHandler 0,
    .server (.call 0 true)]

/-- All handlers are set but the one after a disconnect. -/
def setButLast : Handler → Bool :=
  fun h ↦ h ≠ .postDisconnect

/-- The theorem applied to that run. -/
theorem lifeCycle_of_inTurn_applies :
    ∃ history s, (system setButLast (Fin 1)).Run history s ∧
      System.Obeys (InTurn setButLast) history ∧
      .called .postReceive 0 ∈ s.log ∧ .destroyed 0 ∈ s.log ∧
      ∀ seen ∈ System.visited history s, Respects (LifeCycle setButLast) seen.log := by
  have hreplay : (System.replay
      (fun s action ↦ if InTurn setButLast s action then step setButLast s action else none)
      (initial (Fin 1)) orderlyLife).map (fun s ↦ decide (.called .postReceive 0 ∈ s.log ∧ .destroyed 0 ∈ s.log)) = some true := by
    decide +kernel
  obtain ⟨history, s, htested, hlog⟩ := System.exists_run_of_replay
    (fun s ↦ s = initial (Fin 1)) rfl hreplay
  obtain ⟨hrun, hturn⟩ := htested.of_tested
  obtain ⟨hcalled, hdestroyed⟩ := of_decide_eq_true hlog
  exact ⟨history, s, hrun, hturn, hcalled, hdestroyed, lifeCycle_of_inTurn hrun hturn⟩

end CallbackServer

end ServerCore.Server
