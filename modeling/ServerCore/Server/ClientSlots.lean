import ServerCore.Foundation.Counting
import ServerCore.Server.ClientLifetime

/-!
# The slots of the client manager

`current_` counts the slots taken by `NewClient` and given back by `RemoveClient`. Here the loop of
`Server::Run` constructs a client and posts its accept in two steps, between which the workers may do
anything. The main theorem says that the slots are those of the clients in `clients_` and of the
accepts that are posted or being processed, and stay within the limit, if and only if no `AcceptEx`
fails.
-/

namespace ServerCore.Server

open Foundation

/-- The server with the loop of `Run`, which may have constructed a client and the context of its accept
and not yet called `AcceptEx`. -/
structure AcceptLoop (ι : Type) where
  server : ServerState ι
  newClient : Option IoContext

inductive AcceptLoopAction (ι : Type)
  | newClient (address : ℕ)
  | acceptEx (accepted : Bool)
  | server (action : ServerAction ι)
  deriving DecidableEq, Repr

namespace ServerState

variable {ι : Type}

/-- `NewClient`, with a chunk of the pool in which no client lives. -/
def construct (s : ServerState ι) (address : ℕ) : ServerState ι :=
  { s with
    client := Function.update s.client address (some s.numClients)
    numClients := s.numClients + 1
    current := (s.current + 1) % 2 ^ 32 }

end ServerState

namespace AcceptLoop

variable {ι : Type} [DecidableEq ι]

def initial (ι : Type) : AcceptLoop ι where
  server := .initial ι
  newClient := none

def takeSlot (s : AcceptLoop ι) (address : ℕ) : Option (AcceptLoop ι) :=
  if s.newClient = none ∧ s.server.client address = none ∧ s.server.current < clientLimit then
    some ⟨s.server.construct address, some ⟨.accept, address, s.server.numClients⟩⟩
  else none

/-- `AcceptEx`, whose result is ignored. -/
def acceptEx (s : AcceptLoop ι) (accepted : Bool) : Option (AcceptLoop ι) :=
  s.newClient.map fun context ↦ ⟨s.server.post context accepted, none⟩

/-- The workers and the application. -/
def serverStep (s : AcceptLoop ι) : ServerAction ι → Option (AcceptLoop ι)
  | .newClient _ _ => none
  | action => (s.server.step action).map fun server ↦ { s with server := server }

def step (s : AcceptLoop ι) : AcceptLoopAction ι → Option (AcceptLoop ι)
  | .newClient address => s.takeSlot address
  | .acceptEx accepted => s.acceptEx accepted
  | .server action => s.serverStep action

def system (ι : Type) [DecidableEq ι] : System (AcceptLoop ι) (AcceptLoopAction ι) :=
  System.ofStep (fun s ↦ s = initial ι) step

omit [DecidableEq ι] in
/-- With nothing in between the two steps are the one of the coarser model. -/
theorem acceptEx_takeSlot {s : AcceptLoop ι} (hidle : s.newClient = none) (address : ℕ)
    (accepted : Bool) : ((s.takeSlot address).bind fun after ↦ after.acceptEx accepted) =
      (s.server.newClient address accepted).map fun server ↦ ⟨server, none⟩ := by
  unfold takeSlot ServerState.newClient
  by_cases h : s.server.client address = none ∧ s.server.current < clientLimit
  · rw [if_pos ⟨hidle, h⟩, if_pos h]
    rfl
  · rw [if_neg (fun h' ↦ h h'.2), if_neg h]
    rfl

/-! ## The count -/

variable [Fintype ι]

/-- The accepts in flight or being processed, of clients at addresses with a property. Processing ends
with `AddClient`, and begins with the construction of the client. -/
def accepts (s : AcceptLoop ι) (P : ℕ → Prop) [DecidablePred P] : ℕ :=
  s.server.inFlight.countP (fun c ↦ c.ioType = .accept ∧ P c.client) +
    count (fun w : Worker ↦ .addClient ∈ w.todo ∧ P w.context.client) s.server.worker +
    s.newClient.toList.countP fun c ↦ P c.client

/-- `current_` counts the clients listed and those of the accepts, within the limit, and no client is
listed twice. -/
structure SlotsCounted (s : AcceptLoop ι) : Prop where
  counted : s.server.current = s.server.clients.length + s.accepts fun _ ↦ True
  limited : s.server.current ≤ clientLimit
  nodup : s.server.clients.Nodup

/-- `AcceptEx` does not fail. -/
def Posted : AcceptLoop ι → AcceptLoopAction ι → Prop
  | _, .acceptEx accepted => accepted = true
  | _, _ => True

/-- The slots known, at addresses with a property. -/
def slots (s : AcceptLoop ι) (P : ℕ → Prop) [DecidablePred P] : ℕ :=
  s.server.clients.countP P + s.accepts P

end AcceptLoop

/-! ## The calls of a worker -/

namespace ServerState

variable {ι : Type} [DecidableEq ι] {s after : ServerState ι} {w : ι}

/-- A call lists a client, removes one, or changes neither the clients nor the accepts. -/
theorem call_cases {accepted : Bool}
    (hstaged : (s.worker w).todo ∈ (s.worker w).context.ioType.stages)
    (hstep : s.call w accepted = some after) :
    ∃ todo ∈ (s.worker w).context.ioType.stages, .addClient ∉ todo ∧
      ((.addClient ∈ (s.worker w).todo ∧
          after = (s.setTodo w todo).addClient (s.worker w).context.client) ∨
        (.addClient ∉ (s.worker w).todo ∧ (s.worker w).context.client ∈ s.clients ∧
          after = (s.setTodo w todo).removeClient (s.worker w).context.client) ∨
        (.addClient ∉ (s.worker w).todo ∧ ∃ new : List IoContext, (∀ c ∈ new, c.ioType ≠ .accept) ∧
          after = { s.setTodo w todo with inFlight := new ++ s.inFlight })) := by
  cases htodo : (s.worker w).todo with
  | nil => simp [call, htodo] at hstep
  | cons c rest =>
    have hnext := IoType.next_stage _ _ hstaged c (by rw [htodo]; rfl)
    rw [htodo, List.tail_cons] at hnext
    obtain ⟨hstage, hrest, -, -, hreceive⟩ := hnext
    have hnot (hc : c ≠ .addClient) : ClientCall.addClient ∉ c :: rest := by
      simp [Ne.symm hc, hrest]
    have hpost (ioType : IoType) (hioType : ioType ≠ .accept) :
        ∀ d ∈ (if accepted then
          [IoContext.mk ioType (s.worker w).context.client (s.worker w).context.incarnation]
            else []), d.ioType ≠ .accept := by
      intro d hd
      rw [mem_ite_singleton hd]
      exact hioType
    have hfailed (hlonger : rest ++ [.disconnect] ∈ (s.worker w).context.ioType.stages) :
        (if accepted then rest else rest ++ [.disconnect]) ∈
          (s.worker w).context.ioType.stages := by
      cases accepted
      · exact hlonger
      · exact hstage
    have hunfailed : ClientCall.addClient ∉ (if accepted then rest else rest ++ [.disconnect]) := by
      cases accepted
      · simpa using hrest
      · exact hrest
    unfold call at hstep
    rw [htodo] at hstep
    cases c with
    | addClient =>
      exact ⟨rest, hstage, hrest, Or.inl ⟨List.mem_cons_self, (Option.some.inj hstep).symm⟩⟩
    | removeClient =>
      refine ⟨rest, hstage, hrest, Or.inr ?_⟩
      by_cases hmem : (s.worker w).context.client ∈ s.clients
      · exact Or.inl ⟨hnot (by decide), hmem, (Option.some.inj hstep).symm⟩
      · refine Or.inr ⟨hnot (by decide), [], by simp, (Option.some.inj hstep).symm.trans ?_⟩
        exact if_neg hmem
    | postReceive | postSend =>
      exact ⟨rest, hstage, hrest,
        Or.inr (Or.inr ⟨hnot (by decide), [], by simp, (Option.some.inj hstep).symm⟩)⟩
    | disconnect =>
      refine ⟨rest, hstage, hrest,
        Or.inr (Or.inr ⟨hnot (by decide), _, hpost .disconnect (by decide), ?_⟩)⟩
      rw [← Option.some.inj hstep, postOperation, context_setTodo]
      rfl
    | prepareReceive =>
      refine ⟨_, hfailed (hreceive (by decide)), hunfailed,
        Or.inr (Or.inr ⟨hnot (by decide), _, hpost .recvReady (by decide), ?_⟩)⟩
      rw [← Option.some.inj hstep, postOperation, context_setTodo]
      rfl
    | receive =>
      refine ⟨_, hfailed (hreceive (by decide)), hunfailed,
        Or.inr (Or.inr ⟨hnot (by decide), _, hpost .recv (by decide), ?_⟩)⟩
      rw [← Option.some.inj hstep, postOperation, context_setTodo]
      rfl

end ServerState

namespace AcceptLoop

variable {ι : Type} [DecidableEq ι] [Fintype ι] {s after : AcceptLoop ι}

/-- What a step does to the slots. -/
inductive SlotStep (s : AcceptLoop ι) : AcceptLoopAction ι → AcceptLoop ι → Prop
  | take {a : ℕ} {after : AcceptLoop ι} (hfree : s.server.client a = none)
      (hlimit : s.server.current < clientLimit)
      (hclient : after.server.client =
        Function.update s.server.client a (some s.server.numClients))
      (hcurrent : after.server.current = (s.server.current + 1) % 2 ^ 32)
      (hslots : ∀ (P : ℕ → Prop) [DecidablePred P],
        after.slots P = s.slots P + if P a then 1 else 0) : SlotStep s (.newClient a) after
  | keep {action : AcceptLoopAction ι} {after : AcceptLoop ι} (hposted : s.Posted action)
      (hclient : after.server.client = s.server.client)
      (hcurrent : after.server.current = s.server.current)
      (hslots : ∀ (P : ℕ → Prop) [DecidablePred P], after.slots P = s.slots P) :
      SlotStep s action after
  | free {w : ι} {accepted : Bool} {a : ℕ} {after : AcceptLoop ι} (hmem : a ∈ s.server.clients)
      (hclient : after.server.client = Function.update s.server.client a none)
      (hcurrent : after.server.current = sub32 s.server.current 1)
      (hslots : ∀ (P : ℕ → Prop) [DecidablePred P],
        s.slots P = after.slots P + if P a then 1 else 0) :
      SlotStep s (.server (.call w accepted)) after
  | lose {a : ℕ} {after : AcceptLoop ι}
      (hclient : after.server.client = s.server.client)
      (hcurrent : after.server.current = s.server.current)
      (hslots : ∀ (P : ℕ → Prop) [DecidablePred P],
        s.slots P = after.slots P + if P a then 1 else 0) : SlotStep s (.acceptEx false) after

omit [DecidableEq ι] in
theorem slotStep_takeSlot {a : ℕ} (hstep : s.takeSlot a = some after) :
    s.SlotStep (.newClient a) after := by
  obtain ⟨⟨hidle, hfree, hlimit⟩, hafter⟩ := Option.ite_none_right_eq_some.mp hstep
  rw [← Option.some.inj hafter]
  refine .take hfree hlimit rfl rfl fun P _ ↦ ?_
  simp only [slots, accepts, ServerState.construct, hidle, Option.toList_some, Option.toList_none,
    List.countP_nil, List.countP_singleton, decide_eq_true_eq]
  omega

omit [DecidableEq ι] in
theorem slotStep_acceptEx {accepted : Bool} (haccept : ∀ c ∈ s.newClient, c.ioType = .accept)
    (hstep : s.acceptEx accepted = some after) : s.SlotStep (.acceptEx accepted) after := by
  obtain ⟨c, hc, rfl⟩ := Option.map_eq_some_iff.mp hstep
  have htype := haccept c hc
  cases accepted with
  | true =>
    refine .keep rfl rfl rfl fun P _ ↦ ?_
    simp only [slots, accepts, ServerState.post, hc, Option.toList_some, Option.toList_none, if_true,
      List.singleton_append, List.countP_nil, List.countP_cons, htype, true_and, decide_eq_true_eq]
    omega
  | false =>
    refine .lose (a := c.client) rfl rfl fun P _ ↦ ?_
    simp only [slots, accepts, ServerState.post, hc, Option.toList_some, Option.toList_none,
      Bool.false_eq_true, if_false, List.nil_append, List.countP_nil, List.countP_singleton,
      decide_eq_true_eq]
    omega

omit [DecidableEq ι] in
/-- The slots of the accepts when operations other than accepts are posted. -/
theorem countP_posted {new flight : List IoContext} (P : ℕ → Prop) [DecidablePred P]
    (hnew : ∀ c ∈ new, c.ioType ≠ .accept) :
    (new ++ flight).countP (fun c ↦ c.ioType = .accept ∧ P c.client) =
      flight.countP fun c ↦ c.ioType = .accept ∧ P c.client := by
  rw [List.countP_append, List.countP_eq_zero.mpr, Nat.zero_add]
  intro c hc
  simp [hnew c hc]

omit [DecidableEq ι] in
theorem slotStep_operate {ioType : IoType} {a : ℕ} {accepted : Bool} {server : ServerState ι}
    (hioType : ioType ≠ .accept) (hstep : s.server.operate ioType a accepted = some server)
    {action : AcceptLoopAction ι} (hposted : s.Posted action) :
    s.SlotStep action { s with server := server } := by
  obtain ⟨incarnation, -, rfl⟩ := Option.map_eq_some_iff.mp hstep
  refine .keep hposted rfl rfl fun P _ ↦ ?_
  simp only [slots, accepts, ServerState.post]
  rw [countP_posted P]
  intro c hc
  rw [ServerState.mem_ite_singleton hc]
  exact hioType

theorem slotStep_dequeue {w : ι} {c : IoContext} {failed : Bool} {server : ServerState ι}
    (hstep : s.server.dequeue w c failed = some server) :
    s.SlotStep (.server (.dequeue w c failed)) { s with server := server } := by
  obtain ⟨⟨hidle, hmem⟩, hafter⟩ := Option.ite_none_right_eq_some.mp hstep
  rw [← Option.some.inj hafter]
  refine .keep trivial rfl rfl fun P _ ↦ ?_
  have hcalls : ClientCall.addClient ∈ c.ioType.calls failed ↔ c.ioType = .accept := by
    cases c.ioType <;> cases failed <;> decide
  have hworker := count_update (fun w : Worker ↦ .addClient ∈ w.todo ∧ P w.context.client)
    s.server.worker w ⟨c, c.ioType.calls failed⟩
  have hflight := (List.perm_cons_erase hmem).countP_eq
    fun c ↦ decide (c.ioType = .accept ∧ P c.client)
  simp only [hidle, List.not_mem_nil, false_and, if_false, hcalls] at hworker
  simp only [List.countP_cons, decide_eq_true_eq] at hflight
  simp only [slots, accepts]
  omega

/-- A worker goes on to calls that do not list a client. -/
theorem count_setTodo (server : ServerState ι) (w : ι) {todo : List ClientCall}
    (hnew : .addClient ∉ todo) (P : ℕ → Prop) [DecidablePred P] :
    count (fun w : Worker ↦ .addClient ∈ w.todo ∧ P w.context.client) server.worker =
      count (fun w : Worker ↦ .addClient ∈ w.todo ∧ P w.context.client)
          (server.setTodo w todo).worker +
        if .addClient ∈ (server.worker w).todo ∧ P (server.worker w).context.client then 1
        else 0 := by
  have hworker := count_update (fun w : Worker ↦ .addClient ∈ w.todo ∧ P w.context.client)
    server.worker w { server.worker w with todo := todo }
  simp only [hnew, false_and, if_false, Nat.add_zero] at hworker
  exact hworker.symm

theorem slotStep_call {w : ι} {accepted : Bool} {server : ServerState ι}
    (hstaged : (s.server.worker w).todo ∈ (s.server.worker w).context.ioType.stages)
    (hstep : s.server.call w accepted = some server) :
    s.SlotStep (.server (.call w accepted)) { s with server := server } := by
  obtain ⟨todo, -, hnew, hcase⟩ := ServerState.call_cases hstaged hstep
  have hworker (P : ℕ → Prop) [DecidablePred P] := count_setTodo s.server w hnew P
  rcases hcase with ⟨hadd, rfl⟩ | ⟨hadd, hmem, rfl⟩ | ⟨hadd, new, hposted, rfl⟩
  · refine .keep trivial rfl rfl fun P _ ↦ ?_
    have hcount := hworker P
    simp only [hadd, true_and] at hcount
    simp only [slots, accepts, ServerState.addClient, ServerState.setTodo, List.countP_append,
      List.countP_singleton, decide_eq_true_eq] at hcount ⊢
    omega
  · have hafter : (s.server.setTodo w todo).removeClient (s.server.worker w).context.client =
        { s.server.setTodo w todo with
          client := Function.update s.server.client (s.server.worker w).context.client none
          current := sub32 s.server.current 1
          clients := s.server.clients.erase (s.server.worker w).context.client } := if_pos hmem
    rw [hafter]
    refine .free hmem rfl rfl fun P _ ↦ ?_
    have hcount := hworker P
    have hclients := (List.perm_cons_erase hmem).countP_eq fun a ↦ decide (P a)
    simp only [hadd, false_and, if_false, Nat.add_zero] at hcount
    simp only [List.countP_cons, decide_eq_true_eq] at hclients
    simp only [slots, accepts, ServerState.setTodo] at hcount ⊢
    omega
  · refine .keep trivial rfl rfl fun P _ ↦ ?_
    have hcount := hworker P
    simp only [hadd, false_and, if_false, Nat.add_zero] at hcount
    simp only [slots, accepts, ServerState.setTodo] at hcount ⊢
    rw [countP_posted P hposted, hcount]

/-! ## Runs -/

/-- Workers go on along the calls for their completion, the loop has the context of an accept, and an
address has a slot only while a client lives there, and one only. -/
structure Sound (s : AcceptLoop ι) : Prop where
  staged : ∀ w, (s.server.worker w).todo ∈ (s.server.worker w).context.ioType.stages
  accept : ∀ c ∈ s.newClient, c.ioType = .accept
  once : ∀ a, s.slots (· = a) ≤ if s.server.client a = none then 0 else 1

omit [DecidableEq ι] in
theorem slots_initial (P : ℕ → Prop) [DecidablePred P] : (initial ι).slots P = 0 := by
  have hidle : count (fun w : Worker ↦ .addClient ∈ w.todo ∧ P w.context.client)
      (initial ι).server.worker = 0 := count_eq_zero fun w ↦ by simp [initial, ServerState.initial]
  unfold slots accepts
  rw [hidle]
  rfl

omit [DecidableEq ι] in
theorem sound_initial : (initial ι).Sound where
  staged _ := by
    change [] ∈ IoType.stages .disconnect
    decide
  accept c h := by cases h
  once a := by
    rw [slots_initial]
    exact Nat.zero_le _

theorem slotStep_of_step {action : AcceptLoopAction ι} (hs : s.Sound)
    (hstep : s.step action = some after) : s.SlotStep action after := by
  cases action with
  | newClient a => exact slotStep_takeSlot hstep
  | acceptEx accepted => exact slotStep_acceptEx hs.accept hstep
  | server action =>
    cases action with
    | newClient => cases hstep
    | dequeue w c failed =>
      obtain ⟨server, hserver, rfl⟩ := Option.map_eq_some_iff.mp hstep
      exact slotStep_dequeue hserver
    | call w accepted =>
      obtain ⟨server, hserver, rfl⟩ := Option.map_eq_some_iff.mp hstep
      exact slotStep_call (hs.staged w) hserver
    | send a accepted =>
      obtain ⟨server, hserver, rfl⟩ := Option.map_eq_some_iff.mp hstep
      exact slotStep_operate (by decide) hserver trivial
    | disconnect a accepted =>
      obtain ⟨server, hserver, rfl⟩ := Option.map_eq_some_iff.mp hstep
      exact slotStep_operate (by decide) hserver trivial

omit [Fintype ι] in
/-- A worker that has gone on is at a later stage. -/
theorem staged_setTodo {server : ServerState ι} {w : ι} {todo : List ClientCall}
    (hs : ∀ w, (server.worker w).todo ∈ (server.worker w).context.ioType.stages)
    (htodo : todo ∈ (server.worker w).context.ioType.stages) (v : ι) :
    ((server.setTodo w todo).worker v).todo ∈
      ((server.setTodo w todo).worker v).context.ioType.stages := by
  rw [ServerState.context_setTodo, ServerState.todo_setTodo]
  split
  · rename_i heq
    rw [heq]
    exact htodo
  · exact hs v

omit [Fintype ι] in
theorem staged_serverStep {server : ServerState ι} {action : ServerAction ι}
    (hs : ∀ w, (s.server.worker w).todo ∈ (s.server.worker w).context.ioType.stages)
    (hstep : s.server.step action = some server) (v : ι) :
    (server.worker v).todo ∈ (server.worker v).context.ioType.stages := by
  cases action with
  | newClient a accepted =>
    obtain ⟨-, hafter⟩ := Option.ite_none_right_eq_some.mp hstep
    rw [← Option.some.inj hafter]
    exact hs v
  | dequeue w c failed =>
    obtain ⟨-, hafter⟩ := Option.ite_none_right_eq_some.mp hstep
    rw [← Option.some.inj hafter]
    by_cases hv : v = w
    · rw [hv]
      simpa using IoType.calls_mem_stages c.ioType failed
    · simpa [hv] using hs v
  | call w accepted =>
    obtain ⟨todo, htodo, -, hcase⟩ := ServerState.call_cases (hs w) hstep
    have hmoved := staged_setTodo hs htodo v
    rcases hcase with ⟨-, rfl⟩ | ⟨-, hmem, rfl⟩ | ⟨-, new, -, rfl⟩
    · exact hmoved
    · unfold ServerState.removeClient
      split <;> exact hmoved
    · exact hmoved
  | send a accepted | disconnect a accepted =>
    obtain ⟨incarnation, -, rfl⟩ := Option.map_eq_some_iff.mp hstep
    exact hs v

theorem sound_step {action : AcceptLoopAction ι} (hs : s.Sound)
    (hstep : s.step action = some after) : after.Sound := by
  have honce : ∀ a, after.slots (· = a) ≤ if after.server.client a = none then 0 else 1 := by
    intro a
    have hbefore := hs.once a
    cases slotStep_of_step hs hstep with
    | @take b _ hfree hlimit hclient hcurrent hslots =>
      rw [hslots, hclient, Function.update_apply]
      by_cases hab : b = a
      · subst hab
        rw [if_pos hfree] at hbefore
        rw [if_pos rfl, if_pos rfl, if_neg (Option.some_ne_none _)]
        omega
      · simpa [hab, Ne.symm hab] using hbefore
    | keep hposted hclient hcurrent hslots =>
      rw [hslots, hclient]
      exact hbefore
    | @free w accepted b _ hmem hclient hcurrent hslots =>
      rw [hslots] at hbefore
      rw [hclient, Function.update_apply]
      by_cases hab : b = a
      · subst hab
        rw [if_pos rfl] at hbefore
        rw [if_pos rfl, if_pos rfl]
        split at hbefore <;> omega
      · simpa [hab, Ne.symm hab] using hbefore
    | lose hclient hcurrent hslots =>
      rw [hslots] at hbefore
      rw [hclient]
      omega
  cases action with
  | newClient a =>
    obtain ⟨-, hafter⟩ := Option.ite_none_right_eq_some.mp hstep
    obtain rfl := Option.some.inj hafter
    exact ⟨hs.staged, fun c hc ↦ (by rw [← Option.some.inj hc]), honce⟩
  | acceptEx accepted =>
    obtain ⟨c, -, rfl⟩ := Option.map_eq_some_iff.mp hstep
    exact ⟨hs.staged, fun c hc ↦ (by cases hc), honce⟩
  | server action =>
    cases action with
    | newClient => cases hstep
    | dequeue | call | send | disconnect =>
      obtain ⟨server, hserver, rfl⟩ := Option.map_eq_some_iff.mp hstep
      exact ⟨staged_serverStep hs.staged hserver, hs.accept, honce⟩

omit [DecidableEq ι] in
theorem slots_true : (s.slots fun _ ↦ True) =
    s.server.clients.length + s.accepts fun _ ↦ True := by
  simp [slots]

omit [DecidableEq ι] in
theorem Sound.nodup (hs : s.Sound) : s.server.clients.Nodup := by
  rw [List.nodup_iff_count_le_one]
  intro a
  have honce := hs.once a
  have hcount : s.server.clients.count a ≤ s.slots (· = a) := Nat.le_add_right _ _
  split at honce <;> omega

/-- From counted slots a step leads to counted slots exactly if it is no failure of `AcceptEx`. -/
theorem slotsCounted_step_iff {action : AcceptLoopAction ι} (hs : s.Sound)
    (hcounted : s.SlotsCounted) (hstep : s.step action = some after) :
    after.SlotsCounted ↔ s.Posted action := by
  have hnodup := (sound_step hs hstep).nodup
  have htotal := hcounted.counted
  have hlimit := hcounted.limited
  rw [← slots_true] at htotal
  unfold clientLimit at hlimit
  cases slotStep_of_step hs hstep with
  | take hfree hbelow hclient hcurrent hslots =>
    refine iff_of_true ⟨?_, ?_, hnodup⟩ trivial
    all_goals
      unfold clientLimit at hbelow
      rw [hcurrent, Nat.mod_eq_of_lt (by omega)]
    · calc
        s.server.current + 1 = (s.slots fun _ ↦ True) + 1 := by rw [htotal]
        _ = after.slots fun _ ↦ True := by rw [hslots, if_pos trivial]
        _ = _ := slots_true
    · exact hbelow
  | keep hposted hclient hcurrent hslots =>
    refine iff_of_true ⟨?_, ?_, hnodup⟩ hposted
    · calc
        after.server.current = s.server.current := hcurrent
        _ = s.slots fun _ ↦ True := htotal
        _ = after.slots fun _ ↦ True := (hslots _).symm
        _ = _ := slots_true
    · rw [hcurrent]
      exact hcounted.limited
  | free hmem hclient hcurrent hslots =>
    have htrue := hslots fun _ ↦ True
    rw [if_pos trivial] at htrue
    have hsub := sub32_of_le (a := s.server.current) (b := 1) (by omega) (by omega)
    refine iff_of_true ⟨?_, ?_, hnodup⟩ trivial
    all_goals rw [hcurrent, hsub]
    · rw [← slots_true]
      omega
    · unfold clientLimit
      omega
  | lose hclient hcurrent hslots =>
    refine iff_of_false ?_ (by simp [Posted])
    intro hafter
    have hkept := hafter.counted
    have htrue := hslots fun _ ↦ True
    rw [if_pos trivial] at htrue
    rw [hcurrent, ← slots_true] at hkept
    omega

/-- **Client slot accounting.** In every state that a run visits `current_` counts the clients listed and
the accepts in flight or being processed, stays within the limit, and no client is listed twice, if and
only if no `AcceptEx` of the run fails. -/
theorem slotsCounted_visited_iff_posted {history : List (AcceptLoop ι × AcceptLoopAction ι)}
    (hrun : (system ι).Run history s) :
    (∀ seen ∈ System.visited history s, seen.SlotsCounted) ↔ System.Obeys Posted history := by
  apply hrun.forall_visited_iff_obeys Sound
  · rintro state rfl
    refine ⟨sound_initial, ?_, Nat.zero_le _, List.nodup_nil⟩
    rw [← slots_true, slots_initial]
    rfl
  · intro state action after hs _ hstep
    exact sound_step hs hstep
  · intro state action after hs hcounted hstep
    exact slotsCounted_step_iff hs hcounted hstep

/-- The first `AcceptEx` fails. -/
theorem slotsCounted_fails :
    ¬ ∀ history s, (system (Fin 1)).Run history s → s.SlotsCounted := by
  intro hclaim
  have hreplay : (System.replay step (initial (Fin 1)) [.newClient 8, .acceptEx false]).map
      (fun s ↦ decide (s.server.current = 1 ∧ s.server.clients = [] ∧
        (s.accepts fun _ ↦ True) = 0)) = some true := by decide
  obtain ⟨history, s, hrun, htest⟩ := System.exists_run_of_replay
    (fun s ↦ s = initial (Fin 1)) rfl hreplay
  obtain ⟨hcurrent, hclients, haccepts⟩ := of_decide_eq_true htest
  have hcounted := (hclaim history s hrun).counted
  rw [hcurrent, hclients, haccepts] at hcounted
  cases hcounted

/-- The characterisation applied to a client that is accepted, disconnected and removed. -/
theorem slotsCounted_visited_iff_posted_applies :
    ∃ history s, (system (Fin 1)).Run history s ∧ s.server.numClients = 1 ∧ s.server.current = 0 ∧
      ((∀ seen ∈ System.visited history s, seen.SlotsCounted) ↔
        System.Obeys Posted history) := by
  have hreplay : (System.replay step (initial (Fin 1))
      [.newClient 8, .acceptEx true, .server (.dequeue 0 ⟨.accept, 8, 0⟩ false),
        .server (.call 0 true), .server (.call 0 false), .server (.call 0 true),
        .server (.dequeue 0 ⟨.disconnect, 8, 0⟩ true), .server (.call 0 true)]).map
      (fun s ↦ decide (s.server.numClients = 1 ∧ s.server.current = 0)) = some true := by decide
  obtain ⟨history, s, hrun, htest⟩ := System.exists_run_of_replay
    (fun s ↦ s = initial (Fin 1)) rfl hreplay
  obtain ⟨hnum, hcurrent⟩ := of_decide_eq_true htest
  exact ⟨history, s, hrun, hnum, hcurrent, slotsCounted_visited_iff_posted hrun⟩

end AcceptLoop

end ServerCore.Server
