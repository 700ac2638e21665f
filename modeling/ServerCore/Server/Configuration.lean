import Mathlib.Data.List.Induction
import ServerCore.Server.IocpWork
import ServerCore.Server.Receive

/-!
# The order of configuration

The application calls `Init` once and the setters in any order, and then `Run`. `Init` binds `*this` to
the work of the workers: the binding holds a copy of the server, so a handler that is set afterwards stays
unknown to them. The size of the packet header is static; `Init` sets it to the default.

The main theorem says, for each kind of handler, when the workers invoke the one set last, and when the
last header size is used. The handler for packets about to be received is never invoked.
-/

namespace ServerCore.Server

/-- The kinds of handlers, one for each setter. -/
inductive HandlerKind
  | timeout
  | preAccept
  | preReceive
  | preSend
  | preDisconnect
  | postAccept
  | postReceive
  | postSend
  | postDisconnect
  deriving DecidableEq, Repr

/-- The `Set...Handler` functions and `SetPacketHeaderSize`. A `std::function` may be empty. -/
inductive Setter (η : Type)
  | setHandler (kind : HandlerKind) (handler : Option η)
  | setPacketHeaderSize (size : BitVec 16)

/-- The handlers of a server, which a copy has of its own. -/
structure ServerObject (η : Type) where
  handler : HandlerKind → Option η

/-- The server of the application, what is static, and the copies that the tasks of the thread pool
hold. -/
structure ServerProgram (η : Type) where
  server : ServerObject η
  packetHeaderSize : BitVec 16
  tasks : List (ServerObject η)

/-- `DEFAULT_IOCP_WORKER_AMOUNT`. -/
def defaultIocpWorkerAmount : ℕ := 14

/-- What `GetQueuedCompletionStatus` brings: nothing in time, or a completion, which may count as failed.
A receive comes with the receive buffer of its client. -/
inductive Completion
  | timeout
  | io (ioType : IoType) (failed : Bool) (receivedBytes : ℕ) (recvBuffer : Buffer)

/-- `PostReceive` finds a packet that it takes to be complete. -/
def Buffer.Complete (b : Buffer) (receivedBytes : ℕ) : Prop :=
  sub32 b.packetSize b.offset ≤ receivedBytes

instance (b : Buffer) (receivedBytes : ℕ) : Decidable (b.Complete receivedBytes) := by
  unfold Buffer.Complete
  infer_instance

namespace ServerObject

variable {η : Type}

/-- A member such as `TimeoutHandler`, which calls the handler if it is not empty. -/
def callHandler (server : ServerObject η) (kind : HandlerKind) : List (HandlerKind × Option η) :=
  if (server.handler kind).isSome then [(kind, server.handler kind)] else []

/-- The handlers that `IocpWork(server)` calls for a completion. `PostReceive` does not test whether its
handler is empty. -/
def callbacks (server : ServerObject η) : Completion → List (HandlerKind × Option η)
  | .timeout => server.callHandler .timeout
  | .io .accept _ _ _ => server.callHandler .preAccept ++ server.callHandler .postAccept
  | .io .recvReady _ _ _ => []
  | .io .recv failed receivedBytes recvBuffer =>
    if failed = false ∧ recvBuffer.Complete receivedBytes then
      [(.postReceive, server.handler .postReceive)]
    else []
  | .io .send failed _ _ =>
    if failed then [] else server.callHandler .preSend ++ server.callHandler .postSend
  | .io .disconnect _ _ _ =>
    server.callHandler .preDisconnect ++ server.callHandler .postDisconnect

end ServerObject

namespace ServerProgram

variable {η : Type}

def initial (η : Type) : ServerProgram η where
  server := ⟨fun _ ↦ none⟩
  packetHeaderSize := 2
  tasks := []

def apply (p : ServerProgram η) : Setter η → ServerProgram η
  | .setHandler kind handler =>
    { p with server := ⟨Function.update p.server.handler kind handler⟩ }
  | .setPacketHeaderSize size => { p with packetHeaderSize := size }

/-- `Init`: `SetPacketHeaderSize(DEFAULT_PACKET_HEADER_SIZE)`, and `Enqueue(IocpWork, *this)` for each
worker. -/
def init (p : ServerProgram η) : ServerProgram η where
  server := p.server
  packetHeaderSize := 2
  tasks := List.replicate defaultIocpWorkerAmount p.server

/-- How many bytes `PostReceive` produces and consumes, if it finds a packet. -/
def packetLength (p : ServerProgram η) (recvBuffer : Buffer) (receivedBytes : ℕ) : Option ℕ :=
  if recvBuffer.Complete receivedBytes then
    some (p.packetHeaderSize.toNat + recvBuffer.packetSize)
  else none

end ServerProgram

/-- The setters that the application calls before and after `Init`. -/
structure SetupOrder (η : Type) where
  before : List (Setter η)
  after : List (Setter η)

namespace SetupOrder

variable {η : Type}

/-- The server when `Run` is called. -/
def program (order : SetupOrder η) : ServerProgram η :=
  order.after.foldl ServerProgram.apply
    (order.before.foldl ServerProgram.apply (.initial η)).init

end SetupOrder

/-! ## What was set last -/

namespace Setter

variable {η : Type}

def handlerSet (kind : HandlerKind) : Setter η → Option (Option η)
  | .setHandler k handler => if k = kind then some handler else none
  | .setPacketHeaderSize _ => none

def sizeSet : Setter η → Option (BitVec 16)
  | .setHandler _ _ => none
  | .setPacketHeaderSize size => some size

/-- The last handler of a kind, which is empty if none has been set. -/
def lastHandler (kind : HandlerKind) (setters : List (Setter η)) : Option η :=
  (setters.reverse.findSome? (handlerSet kind)).getD none

def lastPacketHeaderSize (setters : List (Setter η)) : Option (BitVec 16) :=
  setters.reverse.findSome? sizeSet

end Setter

/-- The kinds of handlers that a completion is about. -/
def Completion.Raises : Completion → HandlerKind → Prop
  | .timeout, kind => kind = .timeout
  | .io .accept _ _ _, kind => kind = .preAccept ∨ kind = .postAccept
  | .io .recvReady _ _ _, _ => False
  | .io .recv failed receivedBytes recvBuffer, kind => failed = false ∧
    (kind = .preReceive ∨ kind = .postReceive ∧ recvBuffer.Complete receivedBytes)
  | .io .send failed _ _, kind => failed = false ∧ (kind = .preSend ∨ kind = .postSend)
  | .io .disconnect _ _ _, kind => kind = .preDisconnect ∨ kind = .postDisconnect

/-- The handlers of one kind among those called. -/
def ofKind {η : Type} (kind : HandlerKind) (calls : List (HandlerKind × Option η)) : List η :=
  calls.filterMap fun call ↦ if call.1 = kind then call.2 else none

namespace SetupOrder

variable {η : Type} (order : SetupOrder η)

def setters : List (Setter η) :=
  order.before ++ order.after

/-- For every completion about a kind of handler, every worker calls the handler of this kind that was
set last. -/
def InvokesLast (kind : HandlerKind) : Prop :=
  ∀ server ∈ order.program.tasks, ∀ c : Completion, c.Raises kind →
    ofKind kind (server.callbacks c) = (Setter.lastHandler kind order.setters).toList

/-- `PostReceive` uses the header size that was set last, or the default if none was set. -/
def UsesLastSize : Prop :=
  ∀ (recvBuffer : Buffer) (receivedBytes : ℕ),
    order.program.packetLength recvBuffer receivedBytes =
      if recvBuffer.Complete receivedBytes then
        some (((Setter.lastPacketHeaderSize order.setters).getD 2).toNat + recvBuffer.packetSize)
      else none

/-- The handler has the value before `Init` that it has in the end. The one for packets about to be
received is empty. -/
def InTime (kind : HandlerKind) : Prop :=
  if kind = .preReceive then Setter.lastHandler kind order.setters = none
  else Setter.lastHandler kind order.before = Setter.lastHandler kind order.setters

/-- The header size is set after `Init`, or only the default is set last before. -/
def SizeInTime : Prop :=
  Setter.lastPacketHeaderSize order.after = none →
    ∀ size, Setter.lastPacketHeaderSize order.before = some size → size = 2

end SetupOrder

/-! ## What the workers have -/

namespace ServerProgram

variable {η : Type} (p : ServerProgram η) (setters : List (Setter η))

theorem handler_foldl (kind : HandlerKind) : (setters.foldl apply p).server.handler kind =
    (setters.reverse.findSome? (Setter.handlerSet kind)).getD (p.server.handler kind) := by
  induction setters using List.reverseRecOn with
  | nil => rfl
  | append_singleton setters setter ih =>
    rw [List.foldl_append, List.reverse_append, List.foldl_cons, List.foldl_nil,
      List.reverse_singleton, List.singleton_append, List.findSome?_cons]
    cases setter with
    | setHandler k handler =>
      by_cases hk : k = kind
      · simp [apply, Setter.handlerSet, hk]
      · simpa [apply, Setter.handlerSet, hk, Ne.symm hk] using ih
    | setPacketHeaderSize size => simpa [apply, Setter.handlerSet] using ih

theorem packetHeaderSize_foldl : (setters.foldl apply p).packetHeaderSize =
    (Setter.lastPacketHeaderSize setters).getD p.packetHeaderSize := by
  unfold Setter.lastPacketHeaderSize
  induction setters using List.reverseRecOn with
  | nil => rfl
  | append_singleton setters setter ih =>
    rw [List.foldl_append, List.reverse_append, List.foldl_cons, List.foldl_nil,
      List.reverse_singleton, List.singleton_append, List.findSome?_cons]
    cases setter with
    | setHandler k handler => simpa [apply, Setter.sizeSet] using ih
    | setPacketHeaderSize size => simp [apply, Setter.sizeSet]

/-- Setters leave the copies alone. -/
theorem tasks_foldl : (setters.foldl apply p).tasks = p.tasks := by
  induction setters generalizing p with
  | nil => rfl
  | cons setter rest ih =>
    rw [List.foldl_cons, ih]
    cases setter <;> rfl

end ServerProgram

namespace SetupOrder

variable {η : Type} {order : SetupOrder η} {kind : HandlerKind}

/-- The copies are those of the server at `Init`. -/
theorem mem_tasks_iff {server : ServerObject η} : server ∈ order.program.tasks ↔
    server = (order.before.foldl ServerProgram.apply (.initial η)).server := by
  rw [program, ServerProgram.tasks_foldl, ServerProgram.init, List.mem_replicate]
  exact and_iff_right (by decide)

theorem handler_of_mem {server : ServerObject η} (h : server ∈ order.program.tasks) :
    server.handler kind = Setter.lastHandler kind order.before := by
  rw [mem_tasks_iff.mp h, ServerProgram.handler_foldl]
  rfl

theorem packetHeaderSize_program : order.program.packetHeaderSize =
    (Setter.lastPacketHeaderSize order.after).getD 2 := by
  rw [program, ServerProgram.packetHeaderSize_foldl]
  rfl

theorem lastPacketHeaderSize_setters : Setter.lastPacketHeaderSize order.setters =
    (Setter.lastPacketHeaderSize order.after).or (Setter.lastPacketHeaderSize order.before) := by
  unfold Setter.lastPacketHeaderSize setters
  rw [List.reverse_append, List.findSome?_append]

/-! ## The laws -/

/-- A worker calls the handler that its copy has, whatever kind the completion is about, but one. -/
theorem ofKind_callbacks {server : ServerObject η} {c : Completion} (hraises : c.Raises kind) :
    ofKind kind (server.callbacks c) =
      if kind = .preReceive then [] else (server.handler kind).toList := by
  have hcall (k : HandlerKind) : ofKind kind (server.callHandler k) =
      if k = kind then (server.handler k).toList else [] := by
    unfold ofKind ServerObject.callHandler
    cases hk : server.handler k <;> by_cases hkind : k = kind <;> simp [hkind]
  have happend (first second : List (HandlerKind × Option η)) :
      ofKind kind (first ++ second) = ofKind kind first ++ ofKind kind second :=
    List.filterMap_append
  cases c with
  | timeout =>
    obtain rfl : kind = .timeout := hraises
    simp [ServerObject.callbacks, hcall]
  | io ioType failed receivedBytes recvBuffer =>
    cases ioType with
    | accept | disconnect =>
      rcases hraises with rfl | rfl
      · simp [ServerObject.callbacks, happend, hcall]
      · simp [ServerObject.callbacks, happend, hcall]
    | recvReady => exact absurd hraises id
    | recv =>
      rcases hraises with ⟨rfl, rfl | ⟨rfl, hcomplete⟩⟩
      · simp only [ServerObject.callbacks, true_and]
        split <;> simp [ofKind]
      · simp only [ServerObject.callbacks, hcomplete, true_and, if_true]
        cases server.handler .postReceive <;> simp [ofKind]
    | send =>
      rcases hraises with ⟨rfl, rfl | rfl⟩
      · simp [ServerObject.callbacks, happend, hcall]
      · simp [ServerObject.callbacks, happend, hcall]

/-- There is a completion about every kind. -/
theorem exists_raises (kind : HandlerKind) : ∃ c : Completion, c.Raises kind := by
  cases kind with
  | timeout => exact ⟨.timeout, rfl⟩
  | preAccept => exact ⟨.io .accept false 0 (.init 0), Or.inl rfl⟩
  | postAccept => exact ⟨.io .accept false 0 (.init 0), Or.inr rfl⟩
  | preReceive => exact ⟨.io .recv false 0 (.init 0), rfl, Or.inl rfl⟩
  | postReceive => exact ⟨.io .recv false 0 (.init 0), rfl, Or.inr ⟨rfl, by decide⟩⟩
  | preSend => exact ⟨.io .send false 0 (.init 0), rfl, Or.inl rfl⟩
  | postSend => exact ⟨.io .send false 0 (.init 0), rfl, Or.inr rfl⟩
  | preDisconnect => exact ⟨.io .disconnect false 0 (.init 0), Or.inl rfl⟩
  | postDisconnect => exact ⟨.io .disconnect false 0 (.init 0), Or.inr rfl⟩

theorem invokesLast_iff_inTime (order : SetupOrder η) (kind : HandlerKind) :
    order.InvokesLast kind ↔ order.InTime kind := by
  have htask := mem_tasks_iff.mpr
    (rfl : (order.before.foldl ServerProgram.apply (.initial η)).server = _)
  obtain ⟨c, hc⟩ := exists_raises kind
  unfold InvokesLast InTime
  constructor
  · intro h
    have hlast := h _ htask c hc
    rw [ofKind_callbacks hc, handler_of_mem htask] at hlast
    by_cases hkind : kind = .preReceive
    · rw [if_pos hkind] at hlast ⊢
      exact Option.toList_eq_nil_iff.mp hlast.symm
    · rw [if_neg hkind] at hlast ⊢
      exact Option.ext fun handler ↦ by rw [← Option.mem_toList, hlast, Option.mem_toList]
  · intro h server hserver c hc
    rw [ofKind_callbacks hc, handler_of_mem hserver]
    by_cases hkind : kind = .preReceive
    · rw [if_pos hkind] at h ⊢
      rw [h]
      rfl
    · rw [if_neg hkind] at h ⊢
      rw [h]

theorem usesLastSize_iff_sizeInTime (order : SetupOrder η) :
    order.UsesLastSize ↔ order.SizeInTime := by
  have hsize : order.UsesLastSize ↔ order.program.packetHeaderSize =
      (Setter.lastPacketHeaderSize order.setters).getD 2 := by
    unfold UsesLastSize ServerProgram.packetLength
    constructor
    · intro h
      have hempty := h (.init 0) 0
      rw [if_pos (by decide), if_pos (by decide), Option.some.injEq, Nat.add_right_cancel_iff]
        at hempty
      exact BitVec.eq_of_toNat_eq hempty
    · intro h recvBuffer receivedBytes
      rw [h]
  rw [hsize, packetHeaderSize_program, lastPacketHeaderSize_setters]
  unfold SizeInTime
  cases Setter.lastPacketHeaderSize order.after with
  | some size => simp
  | none =>
    cases Setter.lastPacketHeaderSize order.before with
    | none => simp
    | some size => simpa using eq_comm

/-- What is called for a completion does not depend on the handler for packets about to be received. -/
theorem callbacks_congr {server server' : ServerObject η}
    (h : ∀ kind, kind ≠ .preReceive → server.handler kind = server'.handler kind) (c : Completion) :
    server.callbacks c = server'.callbacks c := by
  have hcall (kind : HandlerKind) (hkind : kind ≠ .preReceive) :
      server.callHandler kind = server'.callHandler kind := by
    unfold ServerObject.callHandler
    rw [h kind hkind]
  cases c with
  | timeout => exact hcall .timeout (by decide)
  | io ioType failed receivedBytes recvBuffer =>
    cases ioType with
    | accept | send | disconnect =>
      simp only [ServerObject.callbacks]
      rw [hcall _ (by decide), hcall _ (by decide)]
    | recvReady => rfl
    | recv =>
      simp only [ServerObject.callbacks]
      rw [h .postReceive (by decide)]

/-- The workers call the handlers that were set last, and the last header size is used. -/
def Follows (order : SetupOrder η) : Prop :=
  (∀ kind, order.InvokesLast kind) ∧ order.UsesLastSize

/-- The same was set last. -/
def SameLast (order other : SetupOrder η) : Prop :=
  (∀ kind, Setter.lastHandler kind order.setters = Setter.lastHandler kind other.setters) ∧
    (Setter.lastPacketHeaderSize order.setters).getD 2 =
      (Setter.lastPacketHeaderSize other.setters).getD 2

/-- The same is called for the same completions, with packets of the same length. -/
def Alike (order other : SetupOrder η) : Prop :=
  (∀ server ∈ order.program.tasks, ∀ server' ∈ other.program.tasks, ∀ c : Completion,
      server.callbacks c = server'.callbacks c) ∧
    ∀ (recvBuffer : Buffer) (receivedBytes : ℕ),
      order.program.packetLength recvBuffer receivedBytes =
        other.program.packetLength recvBuffer receivedBytes

theorem alike_of_follows {order other : SetupOrder η} (horder : order.Follows)
    (hother : other.Follows) (hsame : order.SameLast other) : order.Alike other := by
  constructor
  · intro server hserver server' hserver'
    apply callbacks_congr
    intro kind hkind
    have hintime := (invokesLast_iff_inTime order kind).mp (horder.1 kind)
    have hintime' := (invokesLast_iff_inTime other kind).mp (hother.1 kind)
    unfold InTime at hintime hintime'
    rw [if_neg hkind] at hintime hintime'
    calc
      server.handler kind = Setter.lastHandler kind order.setters := by
        rw [handler_of_mem hserver, hintime]
      _ = Setter.lastHandler kind other.setters := hsame.1 kind
      _ = server'.handler kind := by rw [handler_of_mem hserver', hintime']
  · intro recvBuffer receivedBytes
    rw [horder.2, hother.2, hsame.2]

/-- **Configuration.** For every order of the setters around `Init`: the workers call the handler of a kind
that was set last if and only if it was set in time, and the header size that was set last is used if and
only if it was set in time. Orders for which all this holds and with the same last values are alike. -/
theorem follows_iff_inTime (order other : SetupOrder η) :
    (∀ kind, order.InvokesLast kind ↔ order.InTime kind) ∧
      (order.Follows ↔ (∀ kind, order.InTime kind) ∧ order.SizeInTime) ∧
      (order.Follows → other.Follows → order.SameLast other → order.Alike other) := by
  refine ⟨invokesLast_iff_inTime order, ?_, alike_of_follows⟩
  exact and_congr (forall_congr' (invokesLast_iff_inTime order)) (usesLastSize_iff_sizeInTime order)

/-- A handler that is set after `Init` is not called. -/
theorem follows_fails : ¬ ∀ order : SetupOrder Unit, order.Follows := by
  intro hclaim
  have htimeout := (invokesLast_iff_inTime ⟨[], [.setHandler .timeout (some ())]⟩ .timeout).mp
    ((hclaim _).1 .timeout)
  unfold InTime at htimeout
  rw [if_neg (by decide)] at htimeout
  cases htimeout

/-- The timeout handler is set before `Init` and the header size after it, each twice or once. -/
def inTimeOrder (twice : Bool) : SetupOrder Unit where
  before := (if twice then [.setHandler .timeout none] else []) ++ [.setHandler .timeout (some ())]
  after := (if twice then [.setPacketHeaderSize 3] else []) ++ [.setPacketHeaderSize 4]

/-- The laws applied to these two orders. -/
theorem follows_iff_inTime_applies : (inTimeOrder false).Alike (inTimeOrder true) := by
  have hfollows (twice : Bool) : (inTimeOrder twice).Follows := by
    apply (follows_iff_inTime (inTimeOrder twice) (inTimeOrder twice)).2.1.mpr
    constructor
    · intro kind
      unfold InTime
      cases twice <;> cases kind <;> decide
    · intro hnone
      cases twice <;> cases hnone
  exact (follows_iff_inTime (inTimeOrder false) (inTimeOrder true)).2.2 (hfollows false)
    (hfollows true) ⟨fun kind ↦ by cases kind <;> rfl, rfl⟩

end SetupOrder

end ServerCore.Server
