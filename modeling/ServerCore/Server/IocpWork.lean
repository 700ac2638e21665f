import Mathlib.Data.List.Nodup
import Mathlib.Logic.Function.Basic
import Mathlib.Tactic.Common
import ServerCore.Foundation.TransitionSystem
import ServerCore.Server.Buffer

/-!
# The workers of the TCP server

`Server::Run` takes clients from the client pool and posts an accept for each. The workers run
`IocpWork`: they dequeue a completion and make calls on the client that its context points to, some of
which post the next operation. The application may send to a client and disconnect it.

A context has the address of its client. An address is used again after the client there has been
destroyed, so contexts and pool chunks also have, as ghost state, the number of the client that they
belong to. The calls of one completion are separate steps. A socket call may fail, and then posts
nothing.
-/

namespace ServerCore.Server

open Foundation

/-- The types that `IocpWork` knows. -/
inductive IoType
  | accept
  | recvReady
  | recv
  | send
  | disconnect
  deriving DecidableEq, Repr

/-- `IoContext`, with the address and the number of its client. -/
structure IoContext where
  ioType : IoType
  client : ℕ
  incarnation : ℕ
  deriving DecidableEq, Repr

/-- The calls that processing a completion consists of. -/
inductive ClientCall
  | addClient
  | prepareReceive
  | receive
  | postReceive
  | postSend
  | removeClient
  | disconnect
  deriving DecidableEq, Repr

/-- The calls for a completion that is, or is not, reported as failed or without bytes. -/
def IoType.calls : IoType → Bool → List ClientCall
  | .accept, _ => [.addClient, .prepareReceive]
  | .recvReady, _ => [.receive]
  | .recv, failed => if failed then [.disconnect] else [.postReceive, .prepareReceive]
  | .send, failed => if failed then [.disconnect] else [.postSend]
  | .disconnect, _ => [.removeClient]

/-- A worker, with the context it processes and the calls it has yet to make. -/
structure Worker where
  context : IoContext
  todo : List ClientCall
  deriving DecidableEq, Repr

/-- `limit_`. -/
def clientLimit : ℕ := 10000

/-- The server and its client manager. `client` says which client lives in a chunk of `client_pool_`,
and `numClients` counts the clients constructed. -/
structure ServerState (ι : Type) where
  client : ℕ → Option ℕ
  numClients : ℕ
  current : ℕ
  clients : List ℕ
  inFlight : List IoContext
  worker : ι → Worker

inductive ServerAction (ι : Type)
  | newClient (address : ℕ) (accepted : Bool)
  | dequeue (worker : ι) (context : IoContext) (failed : Bool)
  | call (worker : ι) (accepted : Bool)
  | send (address : ℕ) (accepted : Bool)
  | disconnect (address : ℕ) (accepted : Bool)
  deriving DecidableEq, Repr

namespace ServerState

variable {ι : Type} [DecidableEq ι]

def initial (ι : Type) : ServerState ι where
  client _ := none
  numClients := 0
  current := 0
  clients := []
  inFlight := []
  worker _ := ⟨⟨.disconnect, 0, 0⟩, []⟩

/-- A context is constructed and its operation posted, unless the socket call fails. -/
def post (s : ServerState ι) (context : IoContext) (accepted : Bool) : ServerState ι :=
  { s with inFlight := (if accepted then [context] else []) ++ s.inFlight }

def setTodo (s : ServerState ι) (w : ι) (todo : List ClientCall) : ServerState ι :=
  { s with worker := Function.update s.worker w { s.worker w with todo := todo } }

/-- `NewClient` and `AcceptEx` in `Server::Run`. The pool gives a chunk in which no client lives. -/
def newClient (s : ServerState ι) (address : ℕ) (accepted : Bool) : Option (ServerState ι) :=
  if s.client address = none ∧ s.current < clientLimit then
    let constructed : ServerState ι := { s with
      client := Function.update s.client address (some s.numClients)
      numClients := s.numClients + 1
      current := (s.current + 1) % 2 ^ 32 }
    some (constructed.post ⟨.accept, address, s.numClients⟩ accepted)
  else none

/-- A worker that has made all its calls dequeues the next completion. -/
def dequeue (s : ServerState ι) (w : ι) (context : IoContext) (failed : Bool) :
    Option (ServerState ι) :=
  if (s.worker w).todo = [] ∧ context ∈ s.inFlight then
    some { s with
      inFlight := s.inFlight.erase context
      worker := Function.update s.worker w ⟨context, context.ioType.calls failed⟩ }
  else none

/-- `AddClient`. -/
def addClient (s : ServerState ι) (address : ℕ) : ServerState ι :=
  { s with clients := s.clients ++ [address] }

/-- `RemoveClient`, with the `DeleteClient` of a client that is found. -/
def removeClient (s : ServerState ι) (address : ℕ) : ServerState ι :=
  if address ∈ s.clients then
    { s with
      client := Function.update s.client address none
      current := sub32 s.current 1
      clients := s.clients.erase address }
  else s

/-- The socket calls of `PrepareReceive`, `Receive` and `Disconnect`. -/
def postOperation (s : ServerState ι) (w : ι) (ioType : IoType) (accepted : Bool) :
    ServerState ι :=
  s.post ⟨ioType, (s.worker w).context.client, (s.worker w).context.incarnation⟩ accepted

/-- A worker makes its next call. If `PrepareReceive` or `Receive` fails, `Disconnect` follows. -/
def call (s : ServerState ι) (w : ι) (accepted : Bool) : Option (ServerState ι) :=
  match (s.worker w).todo with
  | [] => none
  | .addClient :: rest => some ((s.setTodo w rest).addClient (s.worker w).context.client)
  | .prepareReceive :: rest =>
    some ((s.setTodo w (if accepted then rest else rest ++ [.disconnect])).postOperation w
      .recvReady accepted)
  | .receive :: rest =>
    some ((s.setTodo w (if accepted then rest else rest ++ [.disconnect])).postOperation w
      .recv accepted)
  | .postReceive :: rest | .postSend :: rest => some (s.setTodo w rest)
  | .removeClient :: rest => some ((s.setTodo w rest).removeClient (s.worker w).context.client)
  | .disconnect :: rest => some ((s.setTodo w rest).postOperation w .disconnect accepted)

/-- The application calls `Send` or `Disconnect` on a client that lives. -/
def operate (s : ServerState ι) (ioType : IoType) (address : ℕ) (accepted : Bool) :
    Option (ServerState ι) :=
  (s.client address).map fun incarnation ↦ s.post ⟨ioType, address, incarnation⟩ accepted

def step (s : ServerState ι) : ServerAction ι → Option (ServerState ι)
  | .newClient address accepted => s.newClient address accepted
  | .dequeue w context failed => s.dequeue w context failed
  | .call w accepted => s.call w accepted
  | .send address accepted => s.operate .send address accepted
  | .disconnect address accepted => s.operate .disconnect address accepted

/-- The server, with one worker for each element of `ι`. -/
def system (ι : Type) [DecidableEq ι] : System (ServerState ι) (ServerAction ι) :=
  System.ofStep (fun s ↦ s = initial ι) step

end ServerState

end ServerCore.Server
