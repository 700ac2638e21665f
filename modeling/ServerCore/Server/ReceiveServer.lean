import ServerCore.Server.PostReceive
import ServerCore.Server.ReceiveToken

/-!
# Workers that receive

The server with the receive buffers of its clients. `Receive` tells the socket where the buffer has room, a
piece arrives there at any time until its completion is dequeued, and the worker that dequeues it goes
through `PostReceive` while the others go on. Nothing but the order in which the workers post the receives
of a client keeps two of these apart.

The main theorem says that in every run in which `NewClient` constructs clients only in chunks to which no
outstanding accept or receive points, the workers together are as good as one receiver for each client: the
handler of a client is called as often, and finds the same, as if its pieces were handled one after the
other. No worker ever waits in `Produce`, and with a header of two bytes none moves bytes beyond a block.

The handlers return and read the buffer only. A receive that fails has brought nothing. What touches the
buffer of a client that is destroyed, or leaves the block, ends the run.
-/

namespace ServerCore.Server

open Foundation

/-- A receive in flight or queued: the client in its context, the space that `Receive` found, and how many
bytes have arrived there. -/
structure Receiving where
  client : ℕ
  incarnation : ℕ
  place : ℕ
  room : ℕ
  bytes : Option ℕ
  deriving DecidableEq, Repr

def Receiving.context (r : Receiving) : IoContext :=
  ⟨.recv, r.client, r.incarnation⟩

/-- Why a run ends. -/
inductive ReceiveFault
  | freed
  | overrun
  deriving DecidableEq, Repr

/-- The server with a receive buffer for every chunk of the client pool. `stage` says how far a worker is in
`PostReceive`. Ghost state are the pieces that have come to a client, and what its handler has found. -/
structure ReceiveServer (ι : Type) where
  loop : AcceptLoop ι
  recvBuffer : ℕ → Buffer
  receiving : List Receiving
  stage : ι → ReceiveStage
  arrived : ℕ → List (List UInt8)
  calls : ℕ → List ByteMemory
  fault : Option ReceiveFault

inductive ReceiveServerAction (ι : Type)
  | loop (action : AcceptLoopAction ι)
  | arrive (operation : Receiving) (data : List UInt8)
  | dequeue (worker : ι) (operation : Receiving)
  | postReceive (worker : ι)
  deriving DecidableEq, Repr

namespace ReceiveServer

variable {ι : Type} [DecidableEq ι]

def initial (ι : Type) : ReceiveServer ι where
  loop := .initial ι
  recvBuffer _ := Buffer.init recvBufferSize
  receiving := []
  stage _ := .idle
  arrived _ := []
  calls _ := []
  fault := none

/-- The client that lives in a chunk. -/
def client (s : ReceiveServer ι) (a : ℕ) : Option ℕ :=
  s.loop.server.client a

def worker (s : ReceiveServer ι) (w : ι) : Worker :=
  s.loop.server.worker w

/-- A step that has nothing to do with the receive buffers. -/
def other (s : ReceiveServer ι) (action : AcceptLoopAction ι) : Option (ReceiveServer ι) :=
  (s.loop.step action).map fun loop ↦ { s with loop := loop }

/-- `NewClient`. The constructor of `Client` initializes the buffer. -/
def construct (s : ReceiveServer ι) (a : ℕ) : Option (ReceiveServer ι) :=
  (s.loop.step (.newClient a)).map fun loop ↦ { s with
    loop := loop
    recvBuffer := Function.update s.recvBuffer a (Buffer.init recvBufferSize) }

/-- `Client::Receive`. -/
def receive (s : ReceiveServer ι) (w : ι) (accepted : Bool) : Option (ReceiveServer ι) :=
  let context := (s.worker w).context
  if s.client context.client = none then some { s with fault := some .freed }
  else (s.loop.step (.server (.call w accepted))).map fun loop ↦ { s with
    loop := loop
    receiving := (if accepted then [⟨context.client, context.incarnation,
      (s.recvBuffer context.client).getBuffer, (s.recvBuffer context.client).getRemained, none⟩]
        else []) ++ s.receiving }

/-- A worker makes its next call, unless that is `PostReceive`. -/
def call (s : ReceiveServer ι) (w : ι) (accepted : Bool) : Option (ReceiveServer ι) :=
  if (s.worker w).todo.head? = some .receive then s.receive w accepted
  else if (s.worker w).todo.head? = some .postReceive then none
  else s.other (.server (.call w accepted))

/-- The loop of `Run`, the application, and what the workers do outside `PostReceive`. -/
def loopStep (s : ReceiveServer ι) : AcceptLoopAction ι → Option (ReceiveServer ι)
  | .newClient a => s.construct a
  | .server (.dequeue w context failed) =>
    if context.ioType = .recv then none else s.other (.server (.dequeue w context failed))
  | .server (.call w accepted) => s.call w accepted
  | .acceptEx accepted => s.other (.acceptEx accepted)
  | .server (.newClient a accepted) => s.other (.server (.newClient a accepted))
  | .server (.send a accepted) => s.other (.server (.send a accepted))
  | .server (.disconnect a accepted) => s.other (.server (.disconnect a accepted))

/-- A piece arrives in the space of a receive. -/
def arrive (s : ReceiveServer ι) (r : Receiving) (data : List UInt8) : Option (ReceiveServer ι) :=
  if r ∈ s.receiving ∧ r.bytes = none ∧ 0 < data.length ∧ data.length ≤ r.room then
    match s.client r.client with
    | none => some { s with fault := some .freed }
    | some x =>
      let b := s.recvBuffer r.client
      some { s with
        recvBuffer := Function.update s.recvBuffer r.client
          { b with memory := b.memory.write r.place data }
        receiving := { r with bytes := some data.length } :: s.receiving.erase r
        arrived := Function.update s.arrived x (s.arrived x ++ [data]) }
  else none

/-- A worker dequeues the completion of a receive, which has failed if nothing has arrived. -/
def dequeue (s : ReceiveServer ι) (w : ι) (r : Receiving) : Option (ReceiveServer ι) :=
  if r ∈ s.receiving then
    (s.loop.step (.server (.dequeue w r.context r.bytes.isNone))).map fun loop ↦ { s with
      loop := loop
      receiving := s.receiving.erase r
      stage := Function.update s.stage w (r.bytes.elim .idle .arrived) }
  else none

/-- What a step of `PostReceive` leaves. With the last one it returns. -/
def posted (s : ReceiveServer ι) (w : ι) (x : ℕ) (stage : ReceiveStage) (b : Buffer) :
    Option (ReceiveServer ι) :=
  let a := (s.worker w).context.client
  (if stage = .idle then s.loop.step (.server (.call w true)) else some s.loop).map
    fun loop ↦ { s with
      loop := loop
      recvBuffer := Function.update s.recvBuffer a b
      stage := Function.update s.stage w stage
      calls := Function.update s.calls x (s.calls x ++ (s.recvBuffer a).handed (s.stage w)) }

/-- A step of `PostReceive`, where `Produce` may wait. -/
def postReceive (packetHeaderSize : BitVec 16) (s : ReceiveServer ι) (w : ι) :
    Option (ReceiveServer ι) :=
  let b := s.recvBuffer (s.worker w).context.client
  if s.stage w = .idle then none
  else match s.client (s.worker w).context.client with
    | none => some { s with fault := some .freed }
    | some x =>
      if b.Overruns (s.stage w) then some { s with fault := some .overrun }
      else (b.proceed packetHeaderSize.toNat (s.stage w)).bind fun after ↦
        s.posted w x after.1 after.2

def step (packetHeaderSize : BitVec 16) (s : ReceiveServer ι) :
    ReceiveServerAction ι → Option (ReceiveServer ι)
  | action => if s.fault = none then
      match action with
      | .loop action => s.loopStep action
      | .arrive r data => s.arrive r data
      | .dequeue w r => s.dequeue w r
      | .postReceive w => s.postReceive packetHeaderSize w
    else none

/-- The server with one worker for each element of `ι`. -/
def system (packetHeaderSize : BitVec 16) (ι : Type) [DecidableEq ι] :
    System (ReceiveServer ι) (ReceiveServerAction ι) :=
  System.ofStep (fun s ↦ s = initial ι) (step packetHeaderSize)

end ReceiveServer

/-! ## The steps outside `PostReceive` -/

namespace IoType

/-- `PostReceive` comes first, and is followed by `PrepareReceive` only. -/
theorem eq_of_postReceive_mem (t : IoType) : ∀ todo ∈ t.stages, .postReceive ∈ todo →
    t = .recv ∧ todo = [.postReceive, .prepareReceive] := by
  cases t <;> decide

theorem postReceive_mem_calls (t : IoType) (failed : Bool) :
    .postReceive ∈ t.calls failed ↔ t = .recv ∧ failed = false := by
  cases t <;> cases failed <;> decide

/-- What is left behind the first call. -/
theorem not_mem_tail (t : IoType) : ∀ todo ∈ t.stages, .postReceive ∉ todo.tail := by
  cases t <;> decide

end IoType

namespace ServerState

variable {ι : Type} {s after : ServerState ι} {w : ι}

/-- The receives in flight or queued. -/
def receives (s : ServerState ι) : List IoContext :=
  s.inFlight.filter fun c ↦ c.ioType = .recv

/-- A step that begins or ends no `PostReceive` and constructs no client. It posts these receives. -/
structure Beside (s after : ServerState ι) (new : List IoContext) : Prop where
  client : ∀ a x, after.client a = some x → s.client a = some x
  numClients : after.numClients = s.numClients
  receives : after.receives.Perm (new ++ s.receives)
  posting : ∀ w, .postReceive ∈ (after.worker w).todo ↔ .postReceive ∈ (s.worker w).todo
  context : ∀ w, .postReceive ∈ (s.worker w).todo →
    (after.worker w).context = (s.worker w).context

theorem receives_post (context : IoContext) (accepted : Bool) : (s.post context accepted).receives =
    (if accepted ∧ context.ioType = .recv then [context] else []) ++ s.receives := by
  unfold receives post
  rw [List.filter_append]
  cases accepted with
  | true =>
    by_cases htype : context.ioType = .recv
    · simp [htype]
    · simp [htype]
  | false => simp

theorem receives_post_of_ne {context : IoContext} (accepted : Bool) (htype : context.ioType ≠ .recv) :
    (s.post context accepted).receives = s.receives := by
  rw [receives_post, if_neg (fun h ↦ htype h.2), List.nil_append]

variable [DecidableEq ι]

/-- A worker goes on with its calls. -/
theorem Beside.of_setTodo {todo : List ClientCall} {new : List IoContext}
    (hold : .postReceive ∉ (s.worker w).todo) (hnew : .postReceive ∉ todo)
    (hclient : ∀ a x, after.client a = some x → s.client a = some x)
    (hnum : after.numClients = s.numClients) (hreceives : after.receives = new ++ s.receives)
    (hworker : after.worker = (s.setTodo w todo).worker) : s.Beside after new where
  client := hclient
  numClients := hnum
  receives := hreceives ▸ List.Perm.refl _
  posting v := by
    rw [hworker, todo_setTodo]
    by_cases hv : v = w
    · rw [if_pos hv, hv]
      exact iff_of_false hnew hold
    · rw [if_neg hv]
  context v _ := by rw [hworker, context_setTodo]

theorem beside_call {accepted : Bool}
    (hstaged : (s.worker w).todo ∈ (s.worker w).context.ioType.stages)
    (hpost : (s.worker w).todo.head? ≠ some .postReceive) (hstep : s.call w accepted = some after) :
    s.Beside after (if (s.worker w).todo.head? = some .receive ∧ accepted then
      [⟨.recv, (s.worker w).context.client, (s.worker w).context.incarnation⟩] else []) := by
  have hold : .postReceive ∉ (s.worker w).todo := by
    intro hmem
    rw [(IoType.eq_of_postReceive_mem _ _ hstaged hmem).2] at hpost
    exact hpost rfl
  have htail := IoType.not_mem_tail _ _ hstaged
  cases htodo : (s.worker w).todo with
  | nil => simp [call, htodo] at hstep
  | cons c rest =>
    rw [htodo, List.tail_cons] at htail
    rw [List.head?_cons]
    have hlonger : ClientCall.postReceive ∉ if accepted then rest else rest ++ [.disconnect] := by
      cases accepted with
      | true => exact htail
      | false => simpa using htail
    unfold call at hstep
    rw [htodo] at hstep
    cases c with
    | addClient | postSend =>
      rw [← Option.some.inj hstep]
      exact .of_setTodo hold htail (fun _ _ h ↦ h) rfl rfl rfl
    | postReceive =>
      rw [htodo] at hpost
      exact absurd rfl hpost
    | removeClient =>
      rw [← Option.some.inj hstep, removeClient]
      split
      · refine .of_setTodo hold htail (fun a x h ↦ ?_) rfl rfl rfl
        change Function.update s.client (s.worker w).context.client none a = some x at h
        by_cases ha : a = (s.worker w).context.client
        · rw [ha, Function.update_self] at h
          cases h
        · rwa [Function.update_of_ne ha] at h
      · exact .of_setTodo hold htail (fun _ _ h ↦ h) rfl rfl rfl
    | disconnect =>
      rw [← Option.some.inj hstep, postOperation]
      exact .of_setTodo hold htail (fun _ _ h ↦ h) rfl (receives_post_of_ne accepted (by simp)) rfl
    | prepareReceive =>
      rw [← Option.some.inj hstep, postOperation]
      exact .of_setTodo hold hlonger (fun _ _ h ↦ h) rfl (receives_post_of_ne accepted (by simp)) rfl
    | receive =>
      rw [← Option.some.inj hstep, postOperation]
      refine .of_setTodo hold hlonger (fun _ _ h ↦ h) rfl ?_ rfl
      rw [receives_post, context_setTodo]
      cases accepted with
      | true => rfl
      | false => rfl

omit [DecidableEq ι] in
theorem beside_operate {ioType : IoType} {a : ℕ} {accepted : Bool} (htype : ioType ≠ .recv)
    (hstep : s.operate ioType a accepted = some after) : s.Beside after [] := by
  obtain ⟨incarnation, -, rfl⟩ := Option.map_eq_some_iff.mp hstep
  refine ⟨fun _ _ h ↦ h, rfl, ?_, fun _ ↦ Iff.rfl, fun _ _ ↦ rfl⟩
  rw [receives_post_of_ne accepted htype]
  exact List.Perm.refl _

/-- A worker that dequeues a completion. -/
theorem receives_dequeue {c : IoContext} {failed : Bool}
    (hstep : s.dequeue w c failed = some after) : (s.worker w).todo = [] ∧
      after.client = s.client ∧ after.numClients = s.numClients ∧
      after.worker = Function.update s.worker w ⟨c, c.ioType.calls failed⟩ ∧
      s.receives.Perm ((if c.ioType = .recv then [c] else []) ++ after.receives) := by
  obtain ⟨⟨hidle, hmem⟩, hafter⟩ := Option.ite_none_right_eq_some.mp hstep
  rw [← Option.some.inj hafter]
  refine ⟨hidle, rfl, rfl, rfl, ?_⟩
  have hperm := (List.perm_cons_erase hmem).filter fun c ↦ c.ioType = .recv
  by_cases htype : c.ioType = .recv
  · rw [List.filter_cons_of_pos (by simpa using htype)] at hperm
    rwa [if_pos htype]
  · rw [List.filter_cons_of_neg (by simpa using htype)] at hperm
    rwa [if_neg htype]

theorem beside_dequeue {c : IoContext} {failed : Bool} (htype : c.ioType ≠ .recv)
    (hstep : s.dequeue w c failed = some after) : s.Beside after [] := by
  obtain ⟨hidle, hclient, hnum, hworker, hreceives⟩ := receives_dequeue hstep
  rw [if_neg htype, List.nil_append] at hreceives
  refine ⟨fun a x h ↦ by rwa [hclient] at h, hnum, hreceives.symm, fun v ↦ ?_, fun v hv ↦ ?_⟩
  · rw [hworker]
    by_cases hvw : v = w
    · rw [hvw, Function.update_self, hidle]
      refine iff_of_false (fun h ↦ ?_) List.not_mem_nil
      exact htype ((IoType.postReceive_mem_calls _ _).mp h).1
    · rw [Function.update_of_ne hvw]
  · have hvw : v ≠ w := by
      rintro rfl
      rw [hidle] at hv
      exact List.not_mem_nil hv
    rw [hworker, Function.update_of_ne hvw]

end ServerState

namespace ReceiveServer

variable {ι : Type} [DecidableEq ι] {packetHeaderSize : BitVec 16} {s after : ReceiveServer ι}

/-- What a step does. -/
inductive Step (packetHeaderSize : BitVec 16) (s : ReceiveServer ι) :
    ReceiveServerAction ι → ReceiveServer ι → Prop
  | freed {action : ReceiveServerAction ι} :
      Step packetHeaderSize s action { s with fault := some .freed }
  | overrun {w : ι} {x : ℕ} (hclient : s.client (s.worker w).context.client = some x)
      (hoverruns : (s.recvBuffer (s.worker w).context.client).Overruns (s.stage w)) :
      Step packetHeaderSize s (.postReceive w) { s with fault := some .overrun }
  | construct {a : ℕ} {loop : AcceptLoop ι} (hloop : s.loop.step (.newClient a) = some loop) :
      Step packetHeaderSize s (.loop (.newClient a)) { s with
        loop := loop
        recvBuffer := Function.update s.recvBuffer a (Buffer.init recvBufferSize) }
  | other {action : AcceptLoopAction ι} {loop : AcceptLoop ι} (hnew : ∀ a, action ≠ .newClient a)
      (hloop : s.loop.step action = some loop) (hbeside : s.loop.server.Beside loop.server []) :
      Step packetHeaderSize s (.loop action) { s with loop := loop }
  | receive {w : ι} {accepted : Bool} {loop : AcceptLoop ι} {x : ℕ} {new : List Receiving}
      (hclient : s.client (s.worker w).context.client = some x)
      (htodo : (s.worker w).todo.head? = some .receive)
      (hloop : s.loop.step (.server (.call w accepted)) = some loop)
      (hbeside : s.loop.server.Beside loop.server (new.map Receiving.context))
      (hnew : ∀ r ∈ new, r.client = (s.worker w).context.client ∧
        r.place = (s.recvBuffer r.client).getBuffer ∧
        r.room = (s.recvBuffer r.client).getRemained ∧ r.bytes = none) :
      Step packetHeaderSize s (.loop (.server (.call w accepted))) { s with
        loop := loop
        receiving := new ++ s.receiving }
  | arrive {r : Receiving} {data : List UInt8} {x : ℕ} (hmem : r ∈ s.receiving)
      (hbytes : r.bytes = none) (hpos : 0 < data.length) (hroom : data.length ≤ r.room)
      (hclient : s.client r.client = some x) :
      Step packetHeaderSize s (.arrive r data) { s with
        recvBuffer := Function.update s.recvBuffer r.client { s.recvBuffer r.client with
          memory := (s.recvBuffer r.client).memory.write r.place data }
        receiving := { r with bytes := some data.length } :: s.receiving.erase r
        arrived := Function.update s.arrived x (s.arrived x ++ [data]) }
  | dequeue {w : ι} {r : Receiving} {loop : AcceptLoop ι} (hmem : r ∈ s.receiving)
      (hloop : s.loop.step (.server (.dequeue w r.context r.bytes.isNone)) = some loop) :
      Step packetHeaderSize s (.dequeue w r) { s with
        loop := loop
        receiving := s.receiving.erase r
        stage := Function.update s.stage w (r.bytes.elim .idle .arrived) }
  | postReceive {w : ι} {x : ℕ} {stage : ReceiveStage} {b : Buffer} {loop : AcceptLoop ι}
      (hbegun : s.stage w ≠ .idle) (hclient : s.client (s.worker w).context.client = some x)
      (hproceed : (s.recvBuffer (s.worker w).context.client).proceed packetHeaderSize.toNat
        (s.stage w) = some (stage, b))
      (hloop : if stage = .idle then s.loop.step (.server (.call w true)) = some loop
        else loop = s.loop) :
      Step packetHeaderSize s (.postReceive w) { s with
        loop := loop
        recvBuffer := Function.update s.recvBuffer (s.worker w).context.client b
        stage := Function.update s.stage w stage
        calls := Function.update s.calls x (s.calls x ++
          (s.recvBuffer (s.worker w).context.client).handed (s.stage w)) }

theorem step_of_loopStep [Fintype ι] {action : AcceptLoopAction ι} (hs : s.loop.Sound)
    (hstep : s.loopStep action = some after) : s.Step packetHeaderSize (.loop action) after := by
  -- Nothing is done but the step of the loop.
  have hother {loop : AcceptLoop ι} (hnew : ∀ a, action ≠ .newClient a)
      (hloop : s.loop.step action = some loop) (hbeside : s.loop.server.Beside loop.server []) :
      s.Step packetHeaderSize (.loop action) { s with loop := loop } := .other hnew hloop hbeside
  cases action with
  | newClient a =>
    obtain ⟨loop, hloop, rfl⟩ := Option.map_eq_some_iff.mp hstep
    exact .construct hloop
  | acceptEx accepted =>
    obtain ⟨loop, hloop, rfl⟩ := Option.map_eq_some_iff.mp hstep
    refine hother (by simp) hloop ?_
    obtain ⟨c, hc, rfl⟩ := Option.map_eq_some_iff.mp hloop
    have htype := hs.accept c hc
    refine ⟨fun _ _ h ↦ h, rfl, ?_, fun _ ↦ Iff.rfl, fun _ _ ↦ rfl⟩
    rw [ServerState.receives_post_of_ne accepted (by rw [htype]; decide)]
    exact List.Perm.refl _
  | server action =>
    cases action with
    | newClient a accepted =>
      cases hstep
    | send a accepted | disconnect a accepted =>
      obtain ⟨loop, hloop, rfl⟩ := Option.map_eq_some_iff.mp hstep
      refine hother (by simp) hloop ?_
      obtain ⟨server, hserver, rfl⟩ := Option.map_eq_some_iff.mp hloop
      exact ServerState.beside_operate (by decide) hserver
    | dequeue w c failed =>
      obtain ⟨htype, hstep⟩ := Option.ite_none_left_eq_some.mp hstep
      obtain ⟨loop, hloop, rfl⟩ := Option.map_eq_some_iff.mp hstep
      refine hother (by simp) hloop ?_
      obtain ⟨server, hserver, rfl⟩ := Option.map_eq_some_iff.mp hloop
      exact ServerState.beside_dequeue htype hserver
    | call w accepted =>
      change s.call w accepted = some after at hstep
      unfold call at hstep
      have hstaged := hs.staged w
      by_cases hreceive : (s.worker w).todo.head? = some .receive
      · rw [if_pos hreceive] at hstep
        unfold receive at hstep
        dsimp only at hstep
        by_cases hfreed : s.client (s.worker w).context.client = none
        · rw [if_pos hfreed] at hstep
          rw [← Option.some.inj hstep]
          exact .freed
        · rw [if_neg hfreed] at hstep
          obtain ⟨x, hx⟩ := Option.ne_none_iff_exists'.mp hfreed
          obtain ⟨loop, hloop, rfl⟩ := Option.map_eq_some_iff.mp hstep
          refine .receive hx hreceive hloop ?_ ?_
          · obtain ⟨server, hserver, rfl⟩ := Option.map_eq_some_iff.mp hloop
            have hpost : (s.loop.server.worker w).todo.head? ≠ some .postReceive := by
              rw [show (s.loop.server.worker w).todo.head? = some .receive from hreceive]
              decide
            have hbeside := ServerState.beside_call hstaged hpost hserver
            cases accepted with
            | true => rwa [if_pos ⟨hreceive, rfl⟩] at hbeside
            | false => rwa [if_neg (fun h ↦ Bool.false_ne_true h.2)] at hbeside
          · intro r hr
            cases accepted with
            | true =>
              rw [if_pos rfl, List.mem_singleton] at hr
              subst hr
              exact ⟨rfl, rfl, rfl, rfl⟩
            | false => cases hr
      · rw [if_neg hreceive] at hstep
        obtain ⟨hpost, hstep⟩ := Option.ite_none_left_eq_some.mp hstep
        obtain ⟨loop, hloop, rfl⟩ := Option.map_eq_some_iff.mp hstep
        refine hother (by simp) hloop ?_
        obtain ⟨server, hserver, rfl⟩ := Option.map_eq_some_iff.mp hloop
        have hbeside := ServerState.beside_call hstaged hpost hserver
        rwa [if_neg (fun h ↦ hreceive h.1)] at hbeside

theorem step_cases [Fintype ι] {action : ReceiveServerAction ι} (hs : s.loop.Sound)
    (hstep : s.step packetHeaderSize action = some after) :
    s.Step packetHeaderSize action after := by
  obtain ⟨-, hstep⟩ := Option.ite_none_right_eq_some.mp hstep
  cases action with
  | loop action => exact step_of_loopStep hs hstep
  | arrive r data =>
    obtain ⟨⟨hmem, hbytes, hpos, hroom⟩, hstep⟩ := Option.ite_none_right_eq_some.mp hstep
    cases hclient : s.client r.client with
    | none =>
      rw [hclient] at hstep
      rw [← Option.some.inj hstep]
      exact .freed
    | some x =>
      rw [hclient] at hstep
      rw [← Option.some.inj hstep]
      exact .arrive hmem hbytes hpos hroom hclient
  | dequeue w r =>
    obtain ⟨hmem, hstep⟩ := Option.ite_none_right_eq_some.mp hstep
    obtain ⟨loop, hloop, rfl⟩ := Option.map_eq_some_iff.mp hstep
    exact .dequeue hmem hloop
  | postReceive w =>
    obtain ⟨hbegun, hstep⟩ := Option.ite_none_left_eq_some.mp hstep
    cases hclient : s.client (s.worker w).context.client with
    | none =>
      rw [hclient] at hstep
      rw [← Option.some.inj hstep]
      exact .freed
    | some x =>
      rw [hclient] at hstep
      dsimp only at hstep
      by_cases hoverruns : (s.recvBuffer (s.worker w).context.client).Overruns (s.stage w)
      · rw [if_pos hoverruns] at hstep
        rw [← Option.some.inj hstep]
        exact .overrun hclient hoverruns
      · rw [if_neg hoverruns] at hstep
        obtain ⟨⟨stage, b⟩, hproceed, hposted⟩ := Option.bind_eq_some_iff.mp hstep
        obtain ⟨loop, hloop, rfl⟩ := Option.map_eq_some_iff.mp hposted
        refine .postReceive hbegun hclient hproceed ?_
        dsimp only at hloop
        by_cases hidle : stage = .idle
        · rwa [if_pos hidle] at hloop ⊢
        · rw [if_neg hidle] at hloop ⊢
          exact (Option.some.inj hloop).symm

end ReceiveServer

end ServerCore.Server
