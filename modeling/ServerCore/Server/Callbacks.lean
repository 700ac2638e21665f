import ServerCore.Foundation.EventLog
import ServerCore.Server.ClientLifetime

/-!
# The handlers of the TCP server

Around the calls that `IocpWork` makes for a completion it calls the handlers of the application: one
before and one after an accept, a send and a disconnect, and one for a packet that `PostReceive` finds
complete. A handler that is not set is not called. The calls of the handlers and their returns are
steps of the worker, and are logged together with the destructions of clients. The application may
send and disconnect at any time, also inside its handlers.

The rule for the log is the life cycle of a client as seen by the application: the handlers for its
accept have returned before the first packet, no packet or send is reported once the handler before its
disconnect has been called, and no handler is called for a client that is destroyed.
-/

namespace ServerCore.Server

open Foundation

/-- The handlers. That for packets is `post_receive_handler_`. -/
inductive Handler
  | preAccept
  | postAccept
  | postReceive
  | preSend
  | postSend
  | preDisconnect
  | postDisconnect
  deriving DecidableEq, Repr

/-- A handler that a worker is about to call, or that it has called. -/
inductive HandlerCall
  | pending (handler : Handler)
  | running (handler : Handler)
  deriving DecidableEq, Repr

/-- What is logged of a client. -/
inductive ClientEvent
  | called (handler : Handler) (client : ℕ)
  | returned (handler : Handler) (client : ℕ)
  | destroyed (client : ℕ)
  deriving DecidableEq, Repr

def HandlerCall.handler : HandlerCall → Handler
  | .pending h | .running h => h

/-- The type of the completions for which the handler is called. -/
def Handler.ioType : Handler → IoType
  | .preAccept | .postAccept => .accept
  | .postReceive => .recv
  | .preSend | .postSend => .send
  | .preDisconnect | .postDisconnect => .disconnect

/-- The handler that comes before the calls for a completion. -/
def IoType.handlerBefore : IoType → Bool → Option Handler
  | .accept, _ => some .preAccept
  | .send, failed => if failed then none else some .preSend
  | .disconnect, _ => some .preDisconnect
  | .recvReady, _ | .recv, _ => none

/-- The handler that comes after a call. `PostReceive` calls its own if the packet is complete. -/
def ClientCall.handlerAfter (c : ClientCall) (t : IoType) (complete : Bool) : Option Handler :=
  match c with
  | .prepareReceive => if t = .accept then some .postAccept else none
  | .postReceive => if complete then some .postReceive else none
  | .postSend => some .postSend
  | .removeClient => some .postDisconnect
  | .addClient | .receive | .disconnect => none

/-- A handler is called if it is set. `PostReceive` does not test that. -/
def schedule (isSet : Handler → Bool) : Option Handler → Option HandlerCall
  | some h => if h = .postReceive ∨ isSet h = true then some (.pending h) else none
  | none => none

/-- The server with the handler calls that its workers have to make next. -/
structure CallbackServer (ι : Type) where
  server : ServerState ι
  due : ι → Option HandlerCall
  log : List ClientEvent

inductive CallbackAction (ι : Type)
  | server (action : ServerAction ι)
  | callHandler (worker : ι)
  | returnHandler (worker : ι)
  deriving DecidableEq, Repr

namespace CallbackServer

variable {ι : Type} (isSet : Handler → Bool)

def initial (ι : Type) : CallbackServer ι where
  server := .initial ι
  due _ := none
  log := []

/-- The client that the next call of the worker destroys. -/
def destroys (s : CallbackServer ι) (w : ι) : List ClientEvent :=
  if (s.server.worker w).todo.head? = some .removeClient ∧
      (s.server.worker w).context.client ∈ s.server.clients then
    (s.server.client (s.server.worker w).context.client).toList.map .destroyed
  else []

section Steps

variable [DecidableEq ι]

/-- A worker takes a completion. -/
def dequeue (s : CallbackServer ι) (w : ι) (c : IoContext) (failed : Bool) :
    Option (CallbackServer ι) :=
  if s.due w = none then
    (s.server.dequeue w c failed).map fun server ↦ { s with
      server := server
      due := Function.update s.due w (schedule isSet (c.ioType.handlerBefore failed)) }
  else none

/-- What a call leaves beside the server. -/
def proceed (s : CallbackServer ι) (w : ι) (flag : Bool) (server : ServerState ι) :
    CallbackServer ι where
  server := server
  due := Function.update s.due w (schedule isSet ((s.server.worker w).todo.head?.bind
    fun c ↦ c.handlerAfter (s.server.worker w).context.ioType flag))
  log := s.destroys w ++ s.log

/-- A worker makes its next call. The flag says of a socket call that it is accepted, and of
`PostReceive` that it finds a complete packet. -/
def call (s : CallbackServer ι) (w : ι) (flag : Bool) : Option (CallbackServer ι) :=
  if s.due w = none then (s.server.call w flag).map (s.proceed isSet w flag) else none

def callHandler (s : CallbackServer ι) (w : ι) : Option (CallbackServer ι) :=
  match s.due w with
  | some (.pending h) => some { s with
      due := Function.update s.due w (some (.running h))
      log := .called h (s.server.worker w).context.incarnation :: s.log }
  | _ => none

def returnHandler (s : CallbackServer ι) (w : ι) : Option (CallbackServer ι) :=
  match s.due w with
  | some (.running h) => some { s with
      due := Function.update s.due w none
      log := .returned h (s.server.worker w).context.incarnation :: s.log }
  | _ => none

def step (s : CallbackServer ι) : CallbackAction ι → Option (CallbackServer ι)
  | .server (.dequeue w c failed) => s.dequeue isSet w c failed
  | .server (.call w flag) => s.call isSet w flag
  | .server action => (s.server.step action).map fun server ↦ { s with server := server }
  | .callHandler w => s.callHandler w
  | .returnHandler w => s.returnHandler w

/-- The server with one worker for each element of `ι` and the handlers that are set. -/
def system (ι : Type) [DecidableEq ι] : System (CallbackServer ι) (CallbackAction ι) :=
  System.ofStep (fun s ↦ s = initial ι) (step isSet)

theorem callHandler_eq_some {s after : CallbackServer ι} {w : ι} :
    s.callHandler w = some after ↔ ∃ h, s.due w = some (.pending h) ∧ after = { s with
      due := Function.update s.due w (some (.running h))
      log := .called h (s.server.worker w).context.incarnation :: s.log } := by
  unfold callHandler
  split
  case h_1 h hdue => simp [hdue, eq_comm]
  case h_2 hdue =>
    refine iff_of_false nofun ?_
    rintro ⟨h, hpending, -⟩
    exact hdue h hpending

theorem returnHandler_eq_some {s after : CallbackServer ι} {w : ι} :
    s.returnHandler w = some after ↔ ∃ h, s.due w = some (.running h) ∧ after = { s with
      due := Function.update s.due w none
      log := .returned h (s.server.worker w).context.incarnation :: s.log } := by
  unfold returnHandler
  split
  case h_1 h hdue => simp [hdue, eq_comm]
  case h_2 hdue =>
    refine iff_of_false nofun ?_
    rintro ⟨h, hrunning, -⟩
    exact hdue h hrunning

/-- A handler call changes nothing in the server, and every other step is one of the server. -/
theorem server_step {s after : CallbackServer ι} {action : CallbackAction ι}
    (hstep : s.step isSet action = some after) :
    after.server = s.server ∨ ∃ a, s.server.step a = some after.server := by
  cases action with
  | server a =>
    right
    refine ⟨a, ?_⟩
    cases a with
    | dequeue | call =>
      obtain ⟨-, hstep⟩ := Option.ite_none_right_eq_some.mp hstep
      obtain ⟨server, hserver, rfl⟩ := Option.map_eq_some_iff.mp hstep
      exact hserver
    | newClient | send | disconnect =>
      obtain ⟨server, hserver, rfl⟩ := Option.map_eq_some_iff.mp hstep
      exact hserver
  | callHandler w =>
    obtain ⟨h, -, rfl⟩ := callHandler_eq_some.mp hstep
    exact Or.inl rfl
  | returnHandler w =>
    obtain ⟨h, -, rfl⟩ := returnHandler_eq_some.mp hstep
    exact Or.inl rfl

/-- What is reached with handlers is reached without them. -/
theorem reachable_server {s : CallbackServer ι} (hreach : (system isSet ι).Reachable s) :
    (ServerState.system ι).Reachable s.server := by
  apply hreach.map CallbackServer.server
  · rintro _ rfl
    rfl
  · exact fun state action after hstep ↦ server_step isSet hstep

end Steps

/-! ## The life cycle -/

/-- What a handler call may follow. -/
def LifeCycle : ClientEvent → List ClientEvent → Prop
  | .called h x, earlier => .destroyed x ∉ earlier ∧
    (h = .postReceive → ∀ a, a = .preAccept ∨ a = .postAccept → isSet a = true →
      .returned a x ∈ earlier) ∧
    (h = .postReceive ∨ h = .preSend ∨ h = .postSend → .called .preDisconnect x ∉ earlier)
  | .returned _ _, _ | .destroyed _, _ => True

variable (s : CallbackServer ι)

/-- The worker has calls to make, of handlers or others. -/
def Busy (w : ι) : Prop :=
  (s.server.worker w).todo ≠ [] ∨ s.due w ≠ none

/-- The worker is processing a completion of this type for the client at the address. -/
def Processing (w : ι) (t : IoType) (a : ℕ) : Prop :=
  s.Busy w ∧ (s.server.worker w).context.ioType = t ∧ (s.server.worker w).context.client = a

/-- A receive is dequeued when the accept of the client is no longer being processed. A disconnect is
dequeued when nothing else of the client is outstanding, and no post-disconnect handler is called for a
client that it destroys. The application does not use a client whose disconnect is being processed, or
for which the pre-disconnect handler was called. -/
def InTurn : CallbackAction ι → Prop
  | .server (.dequeue _ c failed) =>
    (c.ioType = .recv → failed = false → ∀ v, ¬ s.Processing v .accept c.client) ∧
      (c.ioType = .disconnect → (∀ d ∈ s.server.inFlight.erase c, d.client ≠ c.client) ∧
        (∀ v, s.Busy v → (s.server.worker v).context.client ≠ c.client) ∧
        (isSet .postDisconnect = true → c.client ∉ s.server.clients))
  | .server (.send a _) | .server (.disconnect a _) =>
    (∀ v, ¬ s.Processing v .disconnect a) ∧
      ∀ x ∈ s.server.client a, .called .preDisconnect x ∉ s.log
  | _ => True

end CallbackServer

end ServerCore.Server
