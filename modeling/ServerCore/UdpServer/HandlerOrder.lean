import Mathlib.Data.Fintype.Basic
import ServerCore.Foundation.EventLog
import ServerCore.UdpServer.HandlerThreads

/-!
# The order of the handler calls of a session

`ahandler_` and `phandler_` are called by detached threads, which nobody waits for, and `dhandler_` by
the tick in which the counter of the session reaches -3. The calls and their returns are logged, and
each packet thread is numbered with the completion of its worker that it was started for. The main
theorem says that the handlers of every session are called in order in every run in which a packet
thread is started after the handlers that its own has to follow, and the counter of a session reaches -3
after its handlers have returned.
-/

namespace ServerCore.UdpServer

open Foundation

/-- What a packet thread is started for: the worker, the number of its completion, and the session. -/
structure Dispatch (ι : Type) where
  worker : ι
  turn : ℕ
  session : ℕ
  deriving DecidableEq, Repr

/-- The begin or the return of a handler call, with the number of the thread that makes it. -/
inductive HandlerEvent (ι : Type)
  | acceptBegins (thread session : ℕ)
  | acceptReturns (thread session : ℕ)
  | packetBegins (thread : ℕ) (dispatch : Dispatch ι)
  | packetReturns (thread : ℕ) (dispatch : Dispatch ι)
  | disconnectBegins (session : ℕ)
  deriving DecidableEq, Repr

/-- The session manager with the log of its handler calls. `turn` counts the completions of a worker, and
`dispatches` says what the packet threads were started for. -/
structure CallbackManager (ι : Type) where
  manager : SessionManager ι
  turn : ι → ℕ
  dispatches : List (Dispatch ι)
  log : List (HandlerEvent ι)

inductive CallbackAction (ι : Type)
  | manager (action : Action ι)
  | returnAccept (thread : ℕ)
  | returnPacket (thread : ℕ)
  deriving DecidableEq, Repr

/-! ## The rule -/

/-- The `ahandler_` call for the session has returned. -/
def AcceptReturned {ι : Type} (log : List (HandlerEvent ι)) (x : ℕ) : Prop :=
  (∃ i, .acceptReturns i x ∈ log) ∧ ∀ i, .acceptBegins i x ∈ log → .acceptReturns i x ∈ log

/-- What the begin of a handler call may follow. -/
def InOrder {ι : Type} : HandlerEvent ι → List (HandlerEvent ι) → Prop
  | .acceptBegins _ x, earlier =>
    (∀ i d, .packetBegins i d ∈ earlier → d.session ≠ x) ∧ .disconnectBegins x ∉ earlier
  | .packetBegins _ d, earlier =>
    AcceptReturned earlier d.session ∧ .disconnectBegins d.session ∉ earlier ∧
      ∀ i e, .packetBegins i e ∈ earlier → e.worker = d.worker → e.session = d.session →
        e.turn < d.turn
  | .disconnectBegins x, earlier =>
    AcceptReturned earlier x ∧
      ∀ i d, .packetBegins i d ∈ earlier → d.session = x → .packetReturns i d ∈ earlier
  | .acceptReturns _ _, _ | .packetReturns _ _, _ => True

namespace CallbackManager

variable {ι : Type}

def initial (ι : Type) : CallbackManager ι where
  manager := .initial ι
  turn _ := 0
  dispatches := []
  log := []

/-- Every handler call of the session has returned, and no worker is about to start another. -/
def Finished (s : CallbackManager ι) (x : ℕ) : Prop :=
  (∃ i, .acceptReturns i x ∈ s.log) ∧
    (∀ i d, s.dispatches[i]? = some d → d.session = x → .packetReturns i d ∈ s.log) ∧
    ∀ w, (s.manager.worker w).pc.Delivers → (s.manager.worker w).session ≠ x

/-- A packet thread is started when `ahandler_` has returned for its session and `phandler_` has begun
for the earlier ones of its worker and session. The counter of a session reaches -3 when its handlers
have returned. -/
def InTurn (s : CallbackManager ι) : CallbackAction ι → Prop
  | .manager (.iocpTask w) => (s.manager.worker w).pc = .startPacket →
    (∃ i, .acceptReturns i (s.manager.worker w).session ∈ s.log) ∧
      ∀ i d, s.dispatches[i]? = some d → d.worker = w →
        d.session = (s.manager.worker w).session → .packetBegins i d ∈ s.log
  | .manager .tick =>
    match s.manager.tick with
    | .draining _ (x :: _) => ((s.manager.session x).isAlive + (-1)).toInt = -3 → s.Finished x
    | _ => True
  | _ => True

variable [DecidableEq ι]

/-! ## The steps -/

/-- The completions of the workers after the step. -/
def turnAfter (s : CallbackManager ι) : Action ι → ι → ℕ
  | .dequeue w _ => Function.update s.turn w (s.turn w + 1)
  | _ => s.turn

/-- The packet thread that the step starts. -/
def dispatched (s : CallbackManager ι) : Action ι → List (Dispatch ι)
  | .iocpTask w => if (s.manager.worker w).pc = .startPacket then
      [⟨w, s.turn w, (s.manager.worker w).session⟩] else []
  | _ => []

/-- The handler call that begins with the step. -/
def events (s : CallbackManager ι) : Action ι → List (HandlerEvent ι)
  | .callAccept i => (s.manager.acceptThreads[i]?.map fun t ↦ .acceptBegins i t.origin).toList
  | .callPacket i => (s.dispatches[i]?.map (.packetBegins i)).toList
  | .tick =>
    match s.manager.tick with
    | .notifying _ x _ => [.disconnectBegins x]
    | _ => []
  | _ => []

def manage (s : CallbackManager ι) (action : Action ι) : Option (CallbackManager ι) :=
  (s.manager.step action).map fun manager ↦
    { manager := manager
      turn := s.turnAfter action
      dispatches := s.dispatches ++ s.dispatched action
      log := s.events action ++ s.log }

/-- `ahandler_` returns. -/
def returnAccept (s : CallbackManager ι) (i : ℕ) : Option (CallbackManager ι) := do
  let t ← s.manager.acceptThreads[i]?
  if t.called = true ∧ .acceptReturns i t.origin ∉ s.log then
    some { s with log := .acceptReturns i t.origin :: s.log }
  else none

/-- `phandler_` returns. -/
def returnPacket (s : CallbackManager ι) (i : ℕ) : Option (CallbackManager ι) := do
  let t ← s.manager.packetThreads[i]?
  let d ← s.dispatches[i]?
  if t.called = true ∧ .packetReturns i d ∉ s.log then
    some { s with log := .packetReturns i d :: s.log }
  else none

def step (s : CallbackManager ι) : CallbackAction ι → Option (CallbackManager ι)
  | .manager action => s.manage action
  | .returnAccept i => s.returnAccept i
  | .returnPacket i => s.returnPacket i

def system (ι : Type) [DecidableEq ι] : System (CallbackManager ι) (CallbackAction ι) :=
  System.ofStep (fun s ↦ s = initial ι) step

variable {s after : CallbackManager ι}

theorem manage_eq_some {action : Action ι} : s.manage action = some after ↔
    ∃ manager, s.manager.step action = some manager ∧
      { manager := manager
        turn := s.turnAfter action
        dispatches := s.dispatches ++ s.dispatched action
        log := s.events action ++ s.log } = after :=
  Option.map_eq_some_iff

theorem returnAccept_eq_some {i : ℕ} : s.returnAccept i = some after ↔
    ∃ t, s.manager.acceptThreads[i]? = some t ∧
      (t.called = true ∧ .acceptReturns i t.origin ∉ s.log) ∧
      { s with log := .acceptReturns i t.origin :: s.log } = after := by
  simp only [returnAccept, Option.bind_eq_bind, Option.bind_eq_some_iff,
    Option.ite_none_right_eq_some, Option.some.injEq]

theorem returnPacket_eq_some {i : ℕ} : s.returnPacket i = some after ↔
    ∃ t, s.manager.packetThreads[i]? = some t ∧ ∃ d, s.dispatches[i]? = some d ∧
      (t.called = true ∧ .packetReturns i d ∉ s.log) ∧
      { s with log := .packetReturns i d :: s.log } = after := by
  simp only [returnPacket, Option.bind_eq_bind, Option.bind_eq_some_iff,
    Option.ite_none_right_eq_some, Option.some.injEq]

/-! ## What is logged -/

/-- The thread of a logged event is there, and has called its handler. -/
def Shows (s : CallbackManager ι) : HandlerEvent ι → Prop
  | .acceptBegins i x | .acceptReturns i x =>
    ∃ t, s.manager.acceptThreads[i]? = some t ∧ t.origin = x ∧ t.called = true
  | .packetBegins i d | .packetReturns i d =>
    s.dispatches[i]? = some d ∧ ∃ t, s.manager.packetThreads[i]? = some t ∧ t.called = true
  | .disconnectBegins _ => True

/-! ## The packet threads -/

/-- The packet threads of a worker are numbered in the order in which they were started, for sessions
whose `ahandler_` has returned and whose earlier packets have begun. -/
structure Dispatched (s : CallbackManager ι) : Prop where
  sessions : s.dispatches.map Dispatch.session =
    s.manager.packetThreads.map fun t ↦ t.origin.session
  bounded : ∀ d ∈ s.dispatches, d.turn ≤ s.turn d.worker
  delivering : ∀ w, (s.manager.worker w).pc.Delivers ∨ (s.manager.worker w).pc = .findSession →
    ∀ d ∈ s.dispatches, d.worker = w → d.turn < s.turn w
  increasing : s.dispatches.Pairwise fun d e ↦ d.worker = e.worker → d.turn < e.turn
  accepted : ∀ d ∈ s.dispatches, ∃ i, .acceptReturns i d.session ∈ s.log
  begun : ∀ i j d e, s.dispatches[i]? = some d → s.dispatches[j]? = some e → i < j →
    d.worker = e.worker → d.session = e.session → .packetBegins i d ∈ s.log

omit [DecidableEq ι] in
theorem dispatched_initial : (initial ι).Dispatched where
  sessions := rfl
  bounded := by simp [initial]
  delivering := by simp [initial]
  increasing := List.Pairwise.nil
  accepted := by simp [initial]
  begun := by simp [initial]

omit [DecidableEq ι] in
/-- Nothing is started, and the log may get longer. -/
theorem Dispatched.of_log (hs : s.Dispatched) (hmanager : after.manager = s.manager)
    (hturn : after.turn = s.turn) (hdispatches : after.dispatches = s.dispatches)
    (hlog : ∀ e ∈ s.log, e ∈ after.log) : after.Dispatched where
  sessions := by
    rw [hdispatches, hmanager]
    exact hs.sessions
  bounded := by
    rw [hdispatches, hturn]
    exact hs.bounded
  delivering := by
    rw [hdispatches, hturn, hmanager]
    exact hs.delivering
  increasing := by
    rw [hdispatches]
    exact hs.increasing
  accepted := by
    rw [hdispatches]
    exact fun d hd ↦ (hs.accepted d hd).imp fun i ↦ hlog _
  begun := by
    rw [hdispatches]
    exact fun i j d e hd he hij hworker hsession ↦
      hlog _ (hs.begun i j d e hd he hij hworker hsession)

theorem le_turnAfter (action : Action ι) (w : ι) : s.turn w ≤ s.turnAfter action w := by
  cases action with
  | dequeue v c =>
    by_cases hwv : w = v
    · rw [hwv, turnAfter, Function.update_self]
      exact Nat.le_succ _
    · rw [turnAfter, Function.update_of_ne hwv]
  | _ => exact le_rfl

/-- No packet thread is started. -/
theorem Dispatched.of_quiet {action : Action ι} (hs : s.Dispatched)
    (hstep : s.manage action = some after) (hquiet : s.dispatched action = [])
    (hnew : s.manager.newPackets action = []) (hlisted : s.manager.Listed) :
    after.Dispatched := by
  obtain ⟨manager, hmanager, rfl⟩ := manage_eq_some.mp hstep
  rw [hquiet, List.append_nil]
  have hlog (e : HandlerEvent ι) (he : e ∈ s.log) : e ∈ s.events action ++ s.log :=
    List.mem_append_right _ he
  refine ⟨?_, ?_, ?_, hs.increasing, ?_, ?_⟩
  · have hthreads := (SessionManager.threads_step hmanager).2.map_eq
      (f := fun t ↦ t.origin.session) fun a b h ↦ by rw [h.1]
    rw [hnew, List.map_nil, List.append_nil] at hthreads
    exact hs.sessions.trans hthreads.symm
  · exact fun d hd ↦ (hs.bounded d hd).trans (le_turnAfter _ _)
  · intro w hw d hd hworker
    change (manager.worker w).pc.Delivers ∨ (manager.worker w).pc = .findSession at hw
    have hcase : ((s.manager.worker w).pc.Delivers ∨ (s.manager.worker w).pc = .findSession) ∨
        ∃ c, action = .dequeue w c := by
      rcases hw with hw | hw
      · rcases (SessionManager.locals_step hlisted hmanager).2 hw with ⟨hw, -⟩ | ⟨hw, -⟩
        · exact Or.inl (Or.inl hw)
        · exact Or.inl (Or.inr hw)
      · rcases SessionManager.find_step hmanager hw with hw | hw
        · exact Or.inl (Or.inr hw)
        · exact Or.inr hw
    rcases hcase with hw | ⟨c, rfl⟩
    · exact (hs.delivering w hw d hd hworker).trans_le (le_turnAfter _ _)
    · -- the completion just taken is a new one
      change d.turn < Function.update s.turn w (s.turn w + 1) w
      rw [Function.update_self]
      exact Nat.lt_succ_of_le (hworker ▸ hs.bounded d hd)
  · exact fun d hd ↦ (hs.accepted d hd).imp fun i ↦ hlog _
  · exact fun i j d e hd he hij hworker hsession ↦
      hlog _ (hs.begun i j d e hd he hij hworker hsession)

/-- A worker starts a packet thread. -/
theorem dispatched_startPacket {w : ι} (hs : s.Dispatched)
    (hpc : (s.manager.worker w).pc = .startPacket) (hturn : s.InTurn (.manager (.iocpTask w)))
    (hstep : s.manage (.iocpTask w) = some after) : after.Dispatched := by
  obtain ⟨manager, hmanager, rfl⟩ := manage_eq_some.mp hstep
  obtain ⟨haccepted, hbegun⟩ := hturn hpc
  obtain rfl : s.manager.startPacket w = manager := by
    have htask : s.manager.iocpTask w = some (s.manager.startPacket w) := by
      simp only [SessionManager.iocpTask, hpc]
    exact Option.some.inj (htask.symm.trans hmanager)
  have hnew : s.dispatched (.iocpTask w) = [⟨w, s.turn w, (s.manager.worker w).session⟩] :=
    if_pos hpc
  rw [hnew]
  have hearlier := hs.delivering w (Or.inl (Or.inr hpc))
  refine ⟨?_, ?_, ?_, ?_, ?_, ?_⟩
  · change List.map _ _ = List.map _ (s.manager.packetThreads ++ [_])
    rw [List.map_append, List.map_append, hs.sessions]
    rfl
  · intro d hd
    rcases List.mem_append.mp hd with hd | hd
    · exact hs.bounded d hd
    · rw [List.mem_singleton.mp hd]
      exact le_rfl
  · intro v hv d hd hworker
    have hvw : v ≠ w := by
      rintro rfl
      simp [SessionManager.startPacket, SessionManager.goto, SessionManager.setWorker,
        Pc.Delivers] at hv
    have hsame : (s.manager.startPacket w).worker v = s.manager.worker v :=
      Function.update_of_ne hvw _ _
    rw [hsame] at hv
    rcases List.mem_append.mp hd with hd | hd
    · exact hs.delivering v hv d hd hworker
    · rw [List.mem_singleton.mp hd] at hworker
      exact absurd hworker.symm hvw
  · refine List.pairwise_append.mpr ⟨hs.increasing, List.pairwise_singleton _ _, ?_⟩
    intro d hd e he hworker
    rw [List.mem_singleton.mp he] at hworker ⊢
    exact hearlier d hd hworker
  · intro d hd
    rcases List.mem_append.mp hd with hd | hd
    · exact hs.accepted d hd
    · rw [List.mem_singleton.mp hd]
      exact haccepted
  · intro i j d e hd he hij hworker hsession
    have hlt : i < s.dispatches.length := by
      have hj := (List.getElem?_eq_some_iff.mp he).1
      rw [List.length_append, List.length_singleton] at hj
      exact hij.trans_le (Nat.lt_succ_iff.mp hj)
    rw [List.getElem?_append_left hlt] at hd
    by_cases hj : j < s.dispatches.length
    · rw [List.getElem?_append_left hj] at he
      exact hs.begun i j d e hd he hij hworker hsession
    · rw [List.getElem?_append_right (Nat.le_of_not_lt hj)] at he
      obtain rfl := List.mem_singleton.mp (List.mem_of_getElem? he)
      exact hbegun i d hd hworker hsession

theorem dispatched_manage {action : Action ι} (hs : s.Dispatched) (hlisted : s.manager.Listed)
    (hturn : s.InTurn (.manager action)) (hstep : s.manage action = some after) :
    after.Dispatched := by
  cases action with
  | iocpTask w =>
    by_cases hpc : (s.manager.worker w).pc = .startPacket
    · exact dispatched_startPacket hs hpc hturn hstep
    · exact hs.of_quiet hstep (if_neg hpc) (if_neg hpc) hlisted
  | _ => exact hs.of_quiet hstep rfl rfl hlisted

/-! ## The calls -/

theorem Shows.manage {action : Action ι} {e : HandlerEvent ι} (he : s.Shows e)
    (hstep : s.manage action = some after) : after.Shows e := by
  obtain ⟨manager, hmanager, rfl⟩ := manage_eq_some.mp hstep
  obtain ⟨haccepts, hpackets⟩ := SessionManager.threads_step hmanager
  cases e with
  | acceptBegins i x | acceptReturns i x =>
    obtain ⟨t, ht, rfl, hcalled⟩ := he
    obtain ⟨u, hu, horigin, hkept⟩ := haccepts.getElem? ht
    exact ⟨u, hu, horigin, hkept hcalled⟩
  | packetBegins i d | packetReturns i d =>
    obtain ⟨hd, t, ht, hcalled⟩ := he
    obtain ⟨u, hu, -, hkept⟩ := hpackets.getElem? ht
    refine ⟨?_, u, hu, hkept hcalled⟩
    exact (List.getElem?_append_left (List.getElem?_eq_some_iff.mp hd).1).trans hd
  | disconnectBegins x => trivial

/-- A call that begins is shown when it has begun, and was not before. -/
theorem shows_events {action : Action ι} (hstep : s.manage action = some after) :
    ∀ e ∈ s.events action, after.Shows e := by
  intro e he
  obtain ⟨manager, hmanager, rfl⟩ := manage_eq_some.mp hstep
  cases action with
  | callAccept i =>
    obtain ⟨t, session, ht, -, -, rfl⟩ := SessionManager.callAccept_eq_some.mp hmanager
    rw [events, ht, Option.map_some, Option.toList_some, List.mem_singleton] at he
    rw [he]
    exact ⟨_, List.getElem?_set_self (List.getElem?_eq_some_iff.mp ht).1, rfl, rfl⟩
  | callPacket i =>
    obtain ⟨t, session, header, body, ht, -, -, -, -, rfl⟩ :=
      SessionManager.callPacket_eq_some.mp hmanager
    obtain ⟨d, hd, rfl⟩ := Option.map_eq_some_iff.mp (Option.mem_toList.mp he)
    refine ⟨?_, _, List.getElem?_set_self (List.getElem?_eq_some_iff.mp ht).1, rfl⟩
    exact (List.getElem?_append_left (List.getElem?_eq_some_iff.mp hd).1).trans hd
  | tick =>
    rw [events] at he
    split at he
    case h_1 => exact List.mem_singleton.mp he ▸ trivial
    case h_2 => exact absurd he List.not_mem_nil
  | _ => exact absurd he List.not_mem_nil

/-- The `dhandler_` call for the session has begun or is the next step of the tick. -/
def Closing (s : CallbackManager ι) (x : ℕ) : Prop :=
  .disconnectBegins x ∈ s.log ∨ ∃ kept rest, s.manager.tick = .notifying kept x rest

/-- What is proved of the runs in which the threads are started in turn. -/
structure Sound (s : CallbackManager ι) : Prop where
  listed : s.manager.Listed
  once : s.manager.AcceptedOnce
  shown : ∀ e ∈ s.log, s.Shows e
  dispatched : s.Dispatched
  closed : ∀ x, s.Closing x → s.Finished x ∧ (s.manager.place x).Gone
  inOrder : Respects InOrder s.log

omit [DecidableEq ι] in
theorem sound_initial : (initial ι).Sound where
  listed := SessionManager.listed_initial
  once := SessionManager.acceptedOnce_initial
  shown := by simp [initial]
  dispatched := dispatched_initial
  closed := by simp [Closing, initial, SessionManager.initial]
  inOrder := respects_nil

omit [DecidableEq ι] in
/-- A thread that has not called its handler is not logged. -/
theorem Sound.accept_thread (hs : s.Sound) {i j x : ℕ} {t : AcceptThread ι}
    (ht : s.manager.acceptThreads[i]? = some t) (horigin : t.origin = x)
    (hj : .acceptReturns j x ∈ s.log ∨ .acceptBegins j x ∈ s.log) : j = i ∧ t.called = true := by
  have hshows : ∃ u, s.manager.acceptThreads[j]? = some u ∧ u.origin = x ∧ u.called = true := by
    rcases hj with hj | hj
    · exact hs.shown _ hj
    · exact hs.shown _ hj
  obtain ⟨u, hu, hsame, hcalled⟩ := hshows
  obtain rfl := hs.once.eq_of_origin hu ht (hsame.trans horigin.symm)
  obtain rfl := Option.some.inj (hu.symm.trans ht)
  exact ⟨rfl, hcalled⟩

omit [DecidableEq ι] in
theorem Sound.acceptReturned (hs : s.Sound) {x : ℕ} (hx : ∃ i, .acceptReturns i x ∈ s.log) :
    AcceptReturned s.log x := by
  refine ⟨hx, fun j hj ↦ ?_⟩
  obtain ⟨i, hi⟩ := hx
  obtain ⟨t, ht, horigin, -⟩ := hs.shown _ hi
  obtain ⟨rfl, -⟩ := hs.accept_thread ht horigin (Or.inr hj)
  exact hi

omit [DecidableEq ι] in
theorem Sound.inOrder_callAccept (hs : s.Sound) {i : ℕ} {t : AcceptThread ι}
    (ht : s.manager.acceptThreads[i]? = some t) (hcalled : t.called = false) :
    InOrder (.acceptBegins i t.origin) s.log := by
  have hnot : ¬ ∃ j, .acceptReturns j t.origin ∈ s.log := by
    rintro ⟨j, hj⟩
    have hsome := (hs.accept_thread ht rfl (Or.inl hj)).2
    rw [hcalled] at hsome
    cases hsome
  constructor
  · rintro j d hd hsession
    have hmem := List.mem_of_getElem? (hs.shown _ hd).1
    exact hnot (hsession ▸ hs.dispatched.accepted d hmem)
  · intro hdisconnect
    exact hnot (hs.closed _ (Or.inl hdisconnect)).1.1

omit [DecidableEq ι] in
theorem Sound.inOrder_callPacket (hs : s.Sound) {i : ℕ} {t : PacketThread ι} {d : Dispatch ι}
    (ht : s.manager.packetThreads[i]? = some t) (hd : s.dispatches[i]? = some d)
    (hcalled : t.called = false) : InOrder (.packetBegins i d) s.log := by
  have hnot (e : HandlerEvent ι) (he : e = .packetBegins i d ∨ e = .packetReturns i d) :
      e ∉ s.log := by
    intro hmem
    have hshows : ∃ u, s.manager.packetThreads[i]? = some u ∧ u.called = true := by
      rcases he with rfl | rfl
      · exact (hs.shown _ hmem).2
      · exact (hs.shown _ hmem).2
    obtain ⟨u, hu, hsome⟩ := hshows
    obtain rfl := Option.some.inj (hu.symm.trans ht)
    rw [hcalled] at hsome
    cases hsome
  refine ⟨hs.acceptReturned (hs.dispatched.accepted d (List.mem_of_getElem? hd)), ?_, ?_⟩
  · intro hdisconnect
    obtain ⟨-, hreturned, -⟩ := (hs.closed _ (Or.inl hdisconnect)).1
    exact hnot _ (Or.inr rfl) (hreturned i d hd rfl)
  · intro j e he hworker hsession
    have hj := (hs.shown _ he).1
    rcases Nat.lt_trichotomy j i with hlt | rfl | hlt
    · obtain ⟨hjlt, rfl⟩ := List.getElem?_eq_some_iff.mp hj
      obtain ⟨hilt, rfl⟩ := List.getElem?_eq_some_iff.mp hd
      exact List.pairwise_iff_getElem.mp hs.dispatched.increasing j i hjlt hilt hlt hworker
    · obtain rfl := Option.some.inj (hj.symm.trans hd)
      exact absurd he (hnot _ (Or.inl rfl))
    · -- the call that begins would have begun before the later one was started
      have hbegun := hs.dispatched.begun i j d e hd hj hlt hworker.symm hsession.symm
      exact absurd hbegun (hnot _ (Or.inl rfl))

theorem Sound.inOrder_events (hs : s.Sound) {action : Action ι}
    (hstep : s.manage action = some after) : Respects InOrder (s.events action ++ s.log) := by
  obtain ⟨manager, hmanager, -⟩ := manage_eq_some.mp hstep
  cases action with
  | callAccept i =>
    obtain ⟨t, session, ht, -, hcalled, -⟩ := SessionManager.callAccept_eq_some.mp hmanager
    rw [events, ht]
    exact respects_cons.mpr ⟨hs.inOrder_callAccept ht hcalled, hs.inOrder⟩
  | callPacket i =>
    obtain ⟨t, session, header, body, ht, -, -, -, hcalled, -⟩ :=
      SessionManager.callPacket_eq_some.mp hmanager
    rw [events]
    cases hd : s.dispatches[i]? with
    | none => exact hs.inOrder
    | some d => exact respects_cons.mpr ⟨hs.inOrder_callPacket ht hd hcalled, hs.inOrder⟩
  | tick =>
    rw [events]
    split
    case h_1 kept x rest htick =>
      obtain ⟨haccepted, hreturned, -⟩ := (hs.closed x (Or.inr ⟨kept, rest, htick⟩)).1
      refine respects_cons.mpr ⟨⟨hs.acceptReturned haccepted, ?_⟩, hs.inOrder⟩
      exact fun i d hd hsession ↦ hreturned i d (hs.shown _ hd).1 hsession
    case h_2 => exact hs.inOrder
  | _ => exact hs.inOrder

/-- A finished session stays finished: nobody finds it any more. -/
theorem finished_manage {action : Action ι} (hs : s.Sound) (hstep : s.manage action = some after)
    {x : ℕ} (hx : s.Finished x) (hgone : (s.manager.place x).Gone) :
    after.Finished x ∧ (after.manager.place x).Gone := by
  obtain ⟨manager, hmanager, rfl⟩ := manage_eq_some.mp hstep
  obtain ⟨haccepted, hreturned, hdelivers⟩ := hx
  have hlog (e : HandlerEvent ι) (he : e ∈ s.log) : e ∈ s.events action ++ s.log :=
    List.mem_append_right _ he
  refine ⟨⟨haccepted.imp fun i ↦ hlog _, ?_, ?_⟩,
    SessionManager.gone_place_step hs.listed hmanager hgone⟩
  · intro i d hd hsession
    by_cases hi : i < s.dispatches.length
    · exact hlog _ (hreturned i d ((List.getElem?_append_left hi).symm.trans hd) hsession)
    · change (s.dispatches ++ s.dispatched action)[i]? = some d at hd
      rw [List.getElem?_append_right (Nat.le_of_not_lt hi)] at hd
      have hmem := List.mem_of_getElem? hd
      cases action with
      | iocpTask w =>
        rw [dispatched] at hmem
        split at hmem
        case isTrue hpc =>
          rw [List.mem_singleton.mp hmem] at hsession
          exact absurd hsession (hdelivers w (Or.inr hpc))
        case isFalse => exact absurd hmem List.not_mem_nil
      | _ => exact absurd hmem List.not_mem_nil
  · intro w hw heq
    rcases (SessionManager.locals_step hs.listed hmanager).2 hw with ⟨hbefore, hsame⟩ | ⟨-, hplace⟩
    · exact hdelivers w hbefore (hsame.symm.trans heq)
    · change (manager.worker w).session = x at heq
      rw [heq] at hplace
      rcases hgone with hgone | hgone
      all_goals
        rw [hgone] at hplace
        cases hplace

theorem sound_manage {action : Action ι} (hs : s.Sound) (hturn : s.InTurn (.manager action))
    (hstep : s.manage action = some after) : after.Sound := by
  have hshows := shows_events hstep
  have hkeeps (e : HandlerEvent ι) (he : s.Shows e) : after.Shows e := he.manage hstep
  have hdispatched := dispatched_manage hs.dispatched hs.listed hturn hstep
  have hinOrder := hs.inOrder_events hstep
  have hfinished (x : ℕ) (hx : s.Finished x ∧ (s.manager.place x).Gone) :
      after.Finished x ∧ (after.manager.place x).Gone := finished_manage hs hstep hx.1 hx.2
  obtain ⟨manager, hmanager, rfl⟩ := manage_eq_some.mp hstep
  refine ⟨SessionManager.listed_step hs.listed hmanager,
    SessionManager.acceptedOnce_step hs.once hs.listed hmanager, ?_, hdispatched, ?_, hinOrder⟩
  · intro e he
    rcases List.mem_append.mp he with he | he
    · exact hshows e he
    · exact hkeeps e (hs.shown e he)
  · intro x hx
    apply hfinished
    by_cases haction : action = .tick
    · subst haction
      rcases hx with hx | ⟨kept, rest, htick⟩
      · rcases List.mem_append.mp hx with hx | hx
        · rw [events] at hx
          split at hx
          case h_1 kept y rest htick =>
            obtain rfl := HandlerEvent.disconnectBegins.inj (List.mem_singleton.mp hx)
            exact hs.closed x (Or.inr ⟨kept, rest, htick⟩)
          case h_2 => exact absurd hx List.not_mem_nil
        · exact hs.closed x (Or.inl hx)
      · -- the counter of the session has just reached -3
        obtain ⟨hbefore, halive⟩ := SessionManager.notifying_step hmanager htick
        simp only [InTurn, hbefore] at hturn
        refine ⟨hturn halive, Or.inl (hs.listed.disconnected x ?_)⟩
        rw [hbefore]
        exact List.mem_append_right _ List.mem_cons_self
    · rcases hx with hx | ⟨kept, rest, htick⟩
      · refine hs.closed x (Or.inl ((List.mem_append.mp hx).resolve_left ?_))
        cases action with
        | tick => exact absurd rfl haction
        | callAccept i | callPacket i => simp [events]
        | _ => exact List.not_mem_nil
      · refine hs.closed x (Or.inr ⟨kept, rest, ?_⟩)
        exact (SessionManager.tick_step hmanager haction).symm.trans htick

omit [DecidableEq ι] in
/-- A handler returns. -/
theorem Sound.of_return {e : HandlerEvent ι} (hs : s.Sound) (hshows : s.Shows e)
    (hrule : InOrder e s.log) (hne : ∀ x, e ≠ .disconnectBegins x) :
    ({ s with log := e :: s.log } : CallbackManager ι).Sound where
  listed := hs.listed
  once := hs.once
  shown := by
    intro f hf
    rcases List.mem_cons.mp hf with rfl | hf
    · exact hshows
    · exact hs.shown f hf
  dispatched := hs.dispatched.of_log rfl rfl rfl fun f ↦ List.mem_cons_of_mem e
  closed := by
    rintro x hx
    have hbefore : s.Closing x :=
      hx.imp_left fun h ↦ (List.mem_cons.mp h).resolve_left (hne x).symm
    obtain ⟨⟨haccepted, hreturned, hdelivers⟩, hgone⟩ := hs.closed x hbefore
    exact ⟨⟨haccepted.imp fun i ↦ List.mem_cons_of_mem e,
      fun i d hd hsession ↦ List.mem_cons_of_mem e (hreturned i d hd hsession), hdelivers⟩, hgone⟩
  inOrder := respects_cons.mpr ⟨hrule, hs.inOrder⟩

theorem sound_step {action : CallbackAction ι} (hs : s.Sound) (hturn : s.InTurn action)
    (hstep : s.step action = some after) : after.Sound := by
  cases action with
  | manager action => exact sound_manage hs hturn hstep
  | returnAccept i =>
    obtain ⟨t, ht, ⟨hcalled, -⟩, rfl⟩ := returnAccept_eq_some.mp hstep
    exact hs.of_return ⟨t, ht, rfl, hcalled⟩ trivial nofun
  | returnPacket i =>
    obtain ⟨t, ht, d, hd, ⟨hcalled, -⟩, rfl⟩ := returnPacket_eq_some.mp hstep
    exact hs.of_return ⟨hd, t, ht, hcalled⟩ trivial nofun

/-- The handlers of every session are called in order in every run in which packet threads are started in
turn, and the counters of sessions reach -3 after their handlers have returned. -/
theorem inOrder_of_inTurn {history : List (CallbackManager ι × CallbackAction ι)}
    (hrun : (system ι).Run history s) (hturn : System.Obeys InTurn history) :
    ∀ seen ∈ System.visited history s, Respects InOrder seen.log := by
  have hsound := hrun.invariant_visited Sound
    (by rintro _ rfl; exact sound_initial)
    (fun state action next hs hcondition hstep ↦ sound_step hs hcondition hstep) hturn
  exact fun seen hseen ↦ (hsound seen hseen).inOrder

/-- A packet for the session arrives, and its thread calls `phandler_`. -/
def packetCalled : List (Action (Fin 1)) :=
  [.iocpTask 0, .recv 0 0] ++ SessionManager.served ⟨1, 1⟩ [1, 0, 0, 0, 65] 3 ++
    [.loadSession 0 0, .loadReadIoData 0 0, .readHeader 0, .readBody 0, .callPacket 0]

/-- A packet is handled before the `ahandler_` call for its session has begun. -/
def overtaking : List (CallbackAction (Fin 1)) :=
  (SessionManager.handshake ⟨1, 1⟩ ++ packetCalled).map .manager

theorem inOrder_fails :
    ¬ ∀ history s, (system (Fin 1)).Run history s → Respects InOrder s.log := by
  intro hclaim
  have hreplay : (System.replay step (initial (Fin 1)) overtaking).map
      (fun s ↦ decide (s.log = [.packetBegins 0 ⟨0, 3, 0⟩])) = some true := by decide +kernel
  obtain ⟨history, s, hrun, htest⟩ := System.exists_run_of_replay
    (fun s ↦ s = initial (Fin 1)) rfl hreplay
  have hrespects := hclaim history s hrun
  rw [of_decide_eq_true htest, respects_cons] at hrespects
  obtain ⟨i, hi⟩ := hrespects.1.1.1
  exact List.not_mem_nil hi

omit [DecidableEq ι] in
theorem any_acceptReturns_iff {log : List (HandlerEvent ι)} {x : ℕ} :
    (log.any fun e ↦ match e with
      | .acceptReturns _ y => y == x
      | _ => false) = true ↔ ∃ i, .acceptReturns i x ∈ log := by
  rw [List.any_eq_true]
  constructor
  · rintro ⟨e, he, hx⟩
    cases e with
    | acceptReturns i y => exact ⟨i, beq_iff_eq.mp hx ▸ he⟩
    | _ => cases hx
  · rintro ⟨i, hi⟩
    exact ⟨_, hi, beq_self_eq_true x⟩

instance (log : List (HandlerEvent ι)) (x : ℕ) : Decidable (∃ i, .acceptReturns i x ∈ log) :=
  decidable_of_iff _ any_acceptReturns_iff

instance {property : ℕ → Dispatch ι → Prop} [∀ i d, Decidable (property i d)] :
    Decidable (∀ i d, s.dispatches[i]? = some d → property i d) :=
  decidable_of_iff (∀ p ∈ s.dispatches.zipIdx, property p.2 p.1) (by
    simp only [Prod.forall, List.mem_zipIdx_iff_getElem?]
    exact forall_comm)

instance [Fintype ι] (x : ℕ) : Decidable (s.Finished x) :=
  inferInstanceAs (Decidable (_ ∧ (∀ i d, s.dispatches[i]? = some d → _) ∧ ∀ _, _))

instance [Fintype ι] (action : CallbackAction ι) : Decidable (s.InTurn action) := by
  unfold InTurn
  split
  case h_2 => split <;> infer_instance
  all_goals infer_instance

/-- The session is accepted, a packet for it is handled, and the third tick disconnects it. -/
def consecutive : List (CallbackAction (Fin 1)) :=
  (SessionManager.handshake ⟨1, 1⟩).map .manager ++
    [.manager (.loadPending 0 0), .manager (.callAccept 0), .returnAccept 0] ++
    packetCalled.map .manager ++ [.returnPacket 0] ++ List.replicate 16 (.manager .tick)

/-- The theorem applied to that run, in which all three handlers are called. -/
theorem inOrder_of_inTurn_applies :
    ∃ history s, (system (Fin 1)).Run history s ∧ System.Obeys InTurn history ∧
      .packetBegins 0 ⟨0, 3, 0⟩ ∈ s.log ∧ .disconnectBegins 0 ∈ s.log ∧
      ∀ seen ∈ System.visited history s, Respects InOrder seen.log := by
  have hreplay : (System.replay (fun s action ↦ if s.InTurn action then s.step action else none)
      (initial (Fin 1)) consecutive).map (fun s ↦ decide (.packetBegins 0 ⟨0, 3, 0⟩ ∈ s.log ∧
        .disconnectBegins 0 ∈ s.log)) = some true := by decide +kernel
  obtain ⟨history, s, htested, hlog⟩ := System.exists_run_of_replay
    (fun s ↦ s = initial (Fin 1)) rfl hreplay
  obtain ⟨hrun, hturn⟩ := htested.of_tested
  obtain ⟨hpacket, hdisconnect⟩ := of_decide_eq_true hlog
  exact ⟨history, s, hrun, hturn, hpacket, hdisconnect, inOrder_of_inTurn hrun hturn⟩

end CallbackManager

end ServerCore.UdpServer
