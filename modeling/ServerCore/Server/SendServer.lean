import ServerCore.Foundation.TransitionSystem
import ServerCore.Server.SendCapacity

/-!
# Workers that send

The workers dequeue the completions of sends and run the handlers that call `Send`, which waits in `Produce`
until the send before it on the same client has completed; the application may call `Send` as well. So the
calls on all clients hang together through the workers. Here a call goes on with the steps of `SendSide` on
its client, whoever makes them: its caller up to `WSASend`, and behind it the worker that dequeues the
completion.

The handlers for the completion of a send do not call `Send` here, a worker that dequeues a completion has
begun its `memmove`, and no client is removed, which would take the lock from under the calls that wait.
-/

namespace ServerCore.Server

open Foundation

/-! ## What a step of a call does -/

/-- `Send` has begun and not returned. -/
def SendStage.Begun (stage : SendStage) : Prop :=
  stage = .copied ∨ stage = .captured ∨ stage = .produced

/-- `PostSend` has begun and not returned. -/
def SendStage.Completing (stage : SendStage) : Prop :=
  stage = .shifted ∨ stage = .withdrawn

theorem SendStage.Begun.ne_ready {stage : SendStage} (h : stage.Begun) : stage ≠ .ready := by
  rcases h with rfl | rfl | rfl <;> decide

theorem SendStage.Begun.not_completing {stage : SendStage} (h : stage.Begun) :
    ¬ stage.Completing := by
  rcases h with rfl | rfl | rfl <;> simp [Completing]

theorem SendStage.Completing.ne_ready {stage : SendStage} (h : stage.Completing) :
    stage ≠ .ready := by
  rcases h with rfl | rfl <;> decide

namespace SendEvent

variable {ι : Type}

/-- The call that goes on. -/
def index : SendEvent ι → ι
  | .call (.copy i) | .call (.capture i) | .call (.produce i) | .call (.wsaSend i _)
  | .call (.shift i) | .call (.withdraw i) | .call (.unlock i) | .fail i => i

/-- How far it has come before, and how far after. -/
def source : SendEvent ι → SendStage
  | .call (.copy _) => .ready
  | .call (.capture _) => .copied
  | .call (.produce _) => .captured
  | .call (.wsaSend _ _) => .produced
  | .call (.shift _) | .fail _ => .sent
  | .call (.withdraw _) => .shifted
  | .call (.unlock _) => .withdrawn

def target : SendEvent ι → SendStage
  | .call (.copy _) => .copied
  | .call (.capture _) => .captured
  | .call (.produce _) => .produced
  | .call (.wsaSend _ accepted) => if accepted then .sent else .failed
  | .call (.shift _) => .shifted
  | .call (.withdraw _) => .withdrawn
  | .call (.unlock _) => .completed
  | .fail _ => .failed

/-- The lock of the buffer afterwards. -/
def locks : SendEvent ι → Bool → Bool
  | .call (.produce _), _ => true
  | .call (.unlock _), _ => false
  | _, locked => locked

end SendEvent

namespace SendSide

variable {ι : Type} [DecidableEq ι] {data : ι → List UInt8} {s after : SendSide ι}
  {event : SendEvent ι}

/-- One call goes on, and the lock is taken or given back. -/
structure Effect (s after : SendSide ι) (event : SendEvent ι) : Prop where
  source : (s.sender.call event.index).stage = event.source
  target : ∀ j, (after.sender.call j).stage =
    if j = event.index then event.target else (s.sender.call j).stage
  lock : after.sender.sendBuffer.locked = event.locks s.sender.sendBuffer.locked
  free : ∀ i, event = .call (.produce i) → s.sender.sendBuffer.locked = false
  faulted : after.faulted = false

theorem effect_of_call {i : ι} {stage : SendStage} {buf : ℕ} {sender : Sender ι}
    (hsource : (s.sender.call event.index).stage = event.source)
    (hcall : sender.call = Function.update s.sender.call i ⟨stage, buf⟩)
    (hindex : event.index = i) (htarget : event.target = stage)
    (hlock : sender.sendBuffer.locked = event.locks s.sender.sendBuffer.locked)
    (hfree : ∀ i, event = .call (.produce i) → s.sender.sendBuffer.locked = false) :
    s.Effect ⟨sender, false⟩ event := by
  refine ⟨hsource, fun j ↦ ?_, hlock, hfree, rfl⟩
  rw [hcall, hindex, htarget]
  by_cases hj : j = i
  · rw [hj, Function.update_self, if_pos rfl]
  · rw [Function.update_of_ne hj, if_neg hj]

/-- A step that is defined. -/
theorem effect_step (hs : s.sender.Tracked data) (hstep : s.step data event = some after) :
    s.Effect after event ∨ (∃ i, event = .call (.copy i)) ∧ after = ⟨s.sender, true⟩ := by
  cases event with
  | fail i =>
    obtain ⟨-, hstep⟩ := Option.ite_none_right_eq_some.mp hstep
    obtain ⟨sender, hsender, rfl⟩ := Option.map_eq_some_iff.mp hstep
    obtain ⟨hstage, hafter⟩ := Option.ite_none_right_eq_some.mp hsender
    rw [← Option.some.inj hafter]
    exact .inl (effect_of_call hstage rfl rfl rfl rfl fun _ h ↦ by cases h)
  | call action =>
    cases action with
    | copy i =>
      obtain ⟨⟨-, hready⟩, hstep⟩ := Option.ite_none_right_eq_some.mp hstep
      cases hcopy : s.sender.copy i (data i) with
      | none =>
        rw [hcopy] at hstep
        exact .inr ⟨⟨i, rfl⟩, (Option.some.inj hstep).symm⟩
      | some sender =>
        rw [orFault_eq hcopy] at hstep
        rw [← Option.some.inj hstep]
        obtain ⟨-, hafter⟩ := Option.ite_none_right_eq_some.mp hcopy
        rw [← Option.some.inj hafter]
        exact .inl (effect_of_call hready rfl rfl rfl rfl fun _ h ↦ by cases h)
    | capture i =>
      obtain ⟨-, hstep⟩ := Option.ite_none_right_eq_some.mp hstep
      obtain ⟨sender, hsender, rfl⟩ := Option.map_eq_some_iff.mp hstep
      obtain ⟨hstage, hafter⟩ := Option.ite_none_right_eq_some.mp hsender
      rw [← Option.some.inj hafter]
      exact .inl (effect_of_call hstage rfl rfl rfl rfl fun _ h ↦ by cases h)
    | produce i =>
      obtain ⟨-, hstep⟩ := Option.ite_none_right_eq_some.mp hstep
      obtain ⟨sender, hsender, rfl⟩ := Option.map_eq_some_iff.mp hstep
      obtain ⟨hstage, hafter⟩ := Option.ite_none_right_eq_some.mp hsender
      obtain ⟨produced, hproduced, rfl⟩ := Option.map_eq_some_iff.mp hafter
      obtain ⟨hfree, rfl⟩ := Buffer.produce_eq_some.mp hproduced
      exact .inl (effect_of_call hstage rfl rfl rfl rfl fun _ _ ↦ hfree)
    | wsaSend i accepted =>
      obtain ⟨-, hstep⟩ := Option.ite_none_right_eq_some.mp hstep
      obtain ⟨sender, hsender, rfl⟩ := Option.map_eq_some_iff.mp hstep
      obtain ⟨hstage, hafter⟩ := Option.ite_none_right_eq_some.mp hsender
      rw [← Option.some.inj hafter]
      exact .inl (effect_of_call hstage rfl rfl rfl rfl fun _ h ↦ by cases h)
    | shift i =>
      obtain ⟨⟨-, hstage, hpos⟩, hstep⟩ := Option.ite_none_right_eq_some.mp hstep
      obtain ⟨sender, hshift⟩ := hs.exists_shift hstage hpos
      rw [orFault_eq hshift] at hstep
      rw [← Option.some.inj hstep]
      obtain ⟨-, hafter⟩ := Option.ite_none_right_eq_some.mp hshift
      obtain ⟨shifted, hshifted, rfl⟩ := Option.map_eq_some_iff.mp hafter
      obtain ⟨-, hmoved⟩ := Option.ite_none_right_eq_some.mp hshifted
      refine .inl (effect_of_call hstage rfl rfl rfl ?_ fun _ h ↦ by cases h)
      rw [← Option.some.inj hmoved]
      rfl
    | withdraw i =>
      obtain ⟨-, hstep⟩ := Option.ite_none_right_eq_some.mp hstep
      obtain ⟨sender, hsender, rfl⟩ := Option.map_eq_some_iff.mp hstep
      obtain ⟨hstage, hafter⟩ := Option.ite_none_right_eq_some.mp hsender
      rw [← Option.some.inj hafter]
      exact .inl (effect_of_call hstage rfl rfl rfl (Buffer.locked_withdraw _ _) fun _ h ↦ by cases h)
    | unlock i =>
      obtain ⟨-, hstep⟩ := Option.ite_none_right_eq_some.mp hstep
      obtain ⟨sender, hsender, rfl⟩ := Option.map_eq_some_iff.mp hstep
      obtain ⟨hstage, hafter⟩ := Option.ite_none_right_eq_some.mp hsender
      rw [← Option.some.inj hafter]
      exact .inl (effect_of_call hstage rfl rfl rfl rfl fun _ h ↦ by cases h)

/-- A call can go on, unless it would copy or produce while another one has the lock. -/
theorem exists_step (hs : s.sender.Tracked data) (hdefined : s.faulted = false)
    (hsource : (s.sender.call event.index).stage = event.source)
    (hfree : event.source = .ready ∨ event.source = .captured →
      s.sender.sendBuffer.locked = false)
    (hpos : 0 < (data event.index).length) (hshort : (data event.index).length ≤ sendBufferSize) :
    ∃ after, s.step data event = some after ∧ after.faulted = false := by
  cases event with
  | fail i =>
    have habandon : s.sender.abandon i = some (s.sender.setStage i .failed) := if_pos hsource
    exact ⟨_, (if_pos hdefined).trans (congrArg (Option.map _) habandon), rfl⟩
  | call action =>
    cases action with
    | copy i =>
      have hroom : s.Fits data (.call (.copy i)) := by
        refine ⟨hshort, fun j n hj ↦ ?_⟩
        rw [hs.held.none_of_free (hfree (.inl rfl)) j] at hj
        cases hj
      have hstep : s.step data (.call (.copy i)) = some (s.orFault (s.sender.copy i (data i))) :=
        if_pos ⟨hdefined, hsource⟩
      exact ⟨_, hstep, faulted_of_fits hs hroom hstep⟩
    | capture i =>
      have hcapture : s.sender.step data (.capture i) = some _ := if_pos hsource
      exact ⟨_, (if_pos hdefined).trans (congrArg (Option.map _) hcapture), rfl⟩
    | produce i =>
      have hbuffer : s.sender.sendBuffer.produce (data i).length = some _ :=
        Buffer.produce_eq_some.mpr ⟨hfree (.inr rfl), rfl⟩
      have hproduce : s.sender.step data (.produce i) = some _ :=
        (if_pos hsource).trans (congrArg (Option.map _) hbuffer)
      exact ⟨_, (if_pos hdefined).trans (congrArg (Option.map _) hproduce), rfl⟩
    | wsaSend i accepted =>
      have hsend : s.sender.step data (.wsaSend i accepted) = some _ := if_pos hsource
      exact ⟨_, (if_pos hdefined).trans (congrArg (Option.map _) hsend), rfl⟩
    | shift i =>
      obtain ⟨sender, hshift⟩ := hs.exists_shift hsource hpos
      have hstep : s.step data (.call (.shift i)) = some (s.orFault _) :=
        if_pos ⟨hdefined, hsource, hpos⟩
      exact ⟨_, hstep, congrArg faulted (orFault_eq hshift)⟩
    | withdraw i =>
      have hwithdraw : s.sender.step data (.withdraw i) = some _ := if_pos hsource
      exact ⟨_, (if_pos hdefined).trans (congrArg (Option.map _) hwithdraw), rfl⟩
    | unlock i =>
      have hunlock : s.sender.step data (.unlock i) = some _ := if_pos hsource
      exact ⟨_, (if_pos hdefined).trans (congrArg (Option.map _) hunlock), rfl⟩

/-- What is undefined leaves the account as it is. -/
theorem tracked_of_step (hs : s.sender.Tracked data) (hstep : s.step data event = some after) :
    after.sender.Tracked data := by
  rcases effect_step hs hstep with heffect | ⟨-, rfl⟩
  · exact tracked_step hs hstep heffect.faulted
  · exact hs

end SendSide

/-! ## The server -/

/-- What a call of `Send` is given. -/
structure Message (C : Type) where
  client : C
  data : List UInt8
  pos : 0 < data.length
  short : data.length ≤ sendBufferSize

/-- Who calls `Send`: the handler that a worker runs, or a thread of the application. -/
inductive Caller (W A : Type)
  | worker (w : W)
  | application (a : A)
  deriving DecidableEq, Repr

/-- The clients with their calls of `Send`, which are numbered. `calls` are those that a caller has before
it, of which only the first may have begun, and `completing` is the one in whose `PostSend` a worker is. -/
structure SendServer (W A C : Type) where
  client : C → SendSide ℕ
  numCalls : ℕ
  calls : Caller W A → List ℕ
  completing : W → Option ℕ

/-- `handle` begins a handler, or a part of the application, that calls `Send` so many times. -/
inductive SendServerAction (W A : Type)
  | handle (caller : Caller W A) (sends : ℕ)
  | send (caller : Caller W A) (accepted : Bool)
  | dequeue (worker : W) (call : ℕ) (failed : Bool)
  | postSend (worker : W)
  deriving DecidableEq, Repr

namespace SendServer

variable {W A C : Type} [DecidableEq W] [DecidableEq A] [DecidableEq C]

def initial (W A C : Type) : SendServer W A C where
  client _ := SendSide.initial ℕ
  numCalls := 0
  calls _ := []
  completing _ := none

variable (message : ℕ → Message C)

/-- How far a call has come. -/
def stage (s : SendServer W A C) (i : ℕ) : SendStage :=
  ((s.client (message i).client).sender.call i).stage

def withClient (s : SendServer W A C) (c : C) (side : SendSide ℕ) : SendServer W A C :=
  { s with client := Function.update s.client c side }

/-- A step of a call on its client. -/
def perform (s : SendServer W A C) (event : SendEvent ℕ) : Option (SendServer W A C) :=
  ((s.client (message event.index).client).step (fun j ↦ (message j).data) event).map
    (s.withClient (message event.index).client)

/-- The worker is at the completion port. -/
def AtPort (s : SendServer W A C) (w : W) : Prop :=
  s.calls (.worker w) = [] ∧ s.completing w = none

instance (s : SendServer W A C) (w : W) : Decidable (s.AtPort w) :=
  inferInstanceAs (Decidable (_ ∧ _))

/-- Nothing is before the caller. -/
def Idle (s : SendServer W A C) : Caller W A → Prop
  | .worker w => s.AtPort w
  | .application a => s.calls (.application a) = []

instance (s : SendServer W A C) (p : Caller W A) : Decidable (s.Idle p) :=
  match p with
  | .worker w => inferInstanceAs (Decidable (s.AtPort w))
  | .application a => inferInstanceAs (Decidable (s.calls (.application a) = []))

/-- The next step of `Send` in the first call, which returns after `WSASend`. -/
def send (s : SendServer W A C) (p : Caller W A) (accepted : Bool) : Option (SendServer W A C) :=
  match s.calls p with
  | [] => none
  | i :: rest =>
    match s.stage message i with
    | .ready => s.perform message (.call (.copy i))
    | .copied => s.perform message (.call (.capture i))
    | .captured => s.perform message (.call (.produce i))
    | .produced =>
      (s.perform message (.call (.wsaSend i accepted))).map fun after ↦ { after with
        calls := Function.update s.calls p rest }
    | .sent | .shifted | .withdrawn | .completed | .failed => none

/-- A worker at the port dequeues the completion of a send and begins `PostSend` with its `memmove`. After
a failed completion it disconnects the client, without `PostSend`. -/
def dequeue (s : SendServer W A C) (w : W) (i : ℕ) (failed : Bool) : Option (SendServer W A C) :=
  if s.AtPort w then
    if failed then s.perform message (.fail i)
    else (s.perform message (.call (.shift i))).map fun after ↦ { after with
      completing := Function.update s.completing w (some i) }
  else none

/-- The next step of `PostSend`. -/
def postSend (s : SendServer W A C) (w : W) : Option (SendServer W A C) :=
  match s.completing w with
  | none => none
  | some i =>
    match s.stage message i with
    | .shifted => s.perform message (.call (.withdraw i))
    | .withdrawn =>
      (s.perform message (.call (.unlock i))).map fun after ↦ { after with
        completing := Function.update s.completing w none }
    | .ready | .copied | .captured | .produced | .sent | .completed | .failed => none

/-- A worker at the port dequeues something else and runs a handler, or the application goes on. -/
def handle (s : SendServer W A C) (p : Caller W A) (sends : ℕ) : Option (SendServer W A C) :=
  if s.Idle p then
    some { s with
      numCalls := s.numCalls + sends
      calls := Function.update s.calls p (List.range' s.numCalls sends) }
  else none

def step (s : SendServer W A C) : SendServerAction W A → Option (SendServer W A C)
  | .handle p sends => s.handle p sends
  | .send p accepted => s.send message p accepted
  | .dequeue w i failed => s.dequeue message w i failed
  | .postSend w => s.postSend message w

/-- The workers and the application, where call `i` is given `message i`. -/
def system : System (SendServer W A C) (SendServerAction W A) :=
  System.ofStep (fun s ↦ s = initial W A C) (step message)

/-! ## What a step of the server does -/

def locked (s : SendServer W A C) (c : C) : Bool :=
  (s.client c).sender.sendBuffer.locked

/-- Nothing undefined has happened. -/
def Defined (s : SendServer W A C) : Prop :=
  ∀ c, (s.client c).faulted = false

variable {message} {s after : SendServer W A C}

/-- The account of every client is right, and only calls on it have come to it. -/
structure Tracked (message : ℕ → Message C) (s : SendServer W A C) : Prop where
  tracked : ∀ c, (s.client c).sender.Tracked fun j ↦ (message j).data
  own : ∀ c i, ((s.client c).sender.call i).stage ≠ .ready → (message i).client = c

section Perform

omit [DecidableEq W] [DecidableEq A]

/-- A call goes on. -/
structure Effect (message : ℕ → Message C) (s after : SendServer W A C) (event : SendEvent ℕ) :
    Prop where
  source : s.stage message event.index = event.source
  target : ∀ j, after.stage message j =
    if j = event.index then event.target else s.stage message j
  lock : ∀ c, after.locked c = if c = (message event.index).client then event.locks (s.locked c)
    else s.locked c
  unlocked : ∀ i, event = .call (.produce i) → s.locked (message i).client = false

theorem Effect.self {event : SendEvent ℕ} (h : s.Effect message after event) :
    after.stage message event.index = event.target :=
  (h.target _).trans (if_pos rfl)

theorem Effect.other {event : SendEvent ℕ} (h : s.Effect message after event) {j : ℕ}
    (hj : j ≠ event.index) : after.stage message j = s.stage message j :=
  (h.target j).trans (if_neg hj)

theorem perform_eq_some {event : SendEvent ℕ} : s.perform message event = some after ↔ ∃ side,
      (s.client (message event.index).client).step (fun j ↦ (message j).data) event = some side ∧
        s.withClient (message event.index).client side = after :=
  Option.map_eq_some_iff

theorem client_withClient_self (c : C) (side : SendSide ℕ) : (s.withClient c side).client c = side :=
  Function.update_self _ _ _

theorem client_withClient_of_ne {c d : C} (hd : d ≠ c) (side : SendSide ℕ) :
    (s.withClient c side).client d = s.client d :=
  Function.update_of_ne hd _ _

theorem stage_withClient (c : C) (side : SendSide ℕ) (j : ℕ) : (s.withClient c side).stage message j =
    if (message j).client = c then (side.sender.call j).stage else s.stage message j := by
  unfold stage
  by_cases hj : (message j).client = c
  · rw [if_pos hj, hj, client_withClient_self]
  · rw [if_neg hj, client_withClient_of_ne hj]

theorem locked_withClient (c d : C) (side : SendSide ℕ) : (s.withClient c side).locked d =
    if d = c then side.sender.sendBuffer.locked else s.locked d := by
  unfold locked
  by_cases hd : d = c
  · rw [if_pos hd, hd, client_withClient_self]
  · rw [if_neg hd, client_withClient_of_ne hd]

theorem Tracked.withClient (hs : s.Tracked message) {c : C} {side : SendSide ℕ}
    (htracked : side.sender.Tracked fun j ↦ (message j).data)
    (hown : ∀ i, (side.sender.call i).stage ≠ .ready → (message i).client = c) :
    (s.withClient c side).Tracked message := by
  constructor
  · intro d
    by_cases hd : d = c
    · rwa [hd, client_withClient_self]
    · rw [client_withClient_of_ne hd]
      exact hs.tracked d
  · intro d i hi
    by_cases hd : d = c
    · rw [hd, client_withClient_self] at hi
      rw [hd]
      exact hown i hi
    · rw [client_withClient_of_ne hd] at hi
      exact hs.own d i hi

/-- A step of a call on its client, which may be undefined if the call copies. -/
theorem perform_cases {event : SendEvent ℕ} (hs : s.Tracked message)
    (hperform : s.perform message event = some after) : after.Tracked message ∧
      ∃ side, after = s.withClient (message event.index).client side ∧
        (s.Effect message after event ∨ ¬ after.Defined ∧
          (∀ j, after.stage message j = s.stage message j) ∧
            (∀ c, after.locked c = s.locked c) ∧ ∃ i, event = .call (.copy i)) := by
  obtain ⟨side, hside, rfl⟩ := perform_eq_some.mp hperform
  have hbefore := hs.tracked (message event.index).client
  have htracked := SendSide.tracked_of_step hbefore hside
  rcases SendSide.effect_step hbefore hside with heffect | ⟨hcopy, rfl⟩
  · refine ⟨hs.withClient htracked fun i hi ↦ ?_, side, rfl, .inl ?_⟩
    · by_cases hindex : i = event.index
      · rw [hindex]
      · rw [heffect.target, if_neg hindex] at hi
        exact hs.own _ i hi
    · refine ⟨heffect.source, fun j ↦ ?_, fun c ↦ ?_, fun i hi ↦ ?_⟩
      · rw [stage_withClient, heffect.target]
        by_cases hj : j = event.index
        · rw [if_pos hj, if_pos (by rw [hj]), if_pos hj]
        · rw [if_neg hj, if_neg hj]
          by_cases hclient : (message j).client = (message event.index).client
          · rw [if_pos hclient, ← hclient]
            rfl
          · rw [if_neg hclient]
      · rw [locked_withClient, heffect.lock]
        by_cases hc : c = (message event.index).client
        · rw [if_pos hc, if_pos hc, hc]
          rfl
        · rw [if_neg hc, if_neg hc]
      · have hfree := heffect.free i hi
        rw [hi] at hfree
        exact hfree
  · refine ⟨hs.withClient hbefore (hs.own _), _, rfl,
      .inr ⟨fun hdefined ↦ ?_, fun j ↦ ?_, fun c ↦ ?_, hcopy⟩⟩
    · have hclient := hdefined (message event.index).client
      rw [client_withClient_self] at hclient
      cases hclient
    · rw [stage_withClient]
      by_cases hclient : (message j).client = (message event.index).client
      · rw [if_pos hclient, ← hclient]
        rfl
      · rw [if_neg hclient]
    · rw [locked_withClient]
      by_cases hc : c = (message event.index).client
      · rw [if_pos hc, hc]
        rfl
      · rw [if_neg hc]

/-- What a step does. A copy that does not fit is a fault. -/
inductive Step (message : ℕ → Message C) (s after : SendServer W A C) : SendServerAction W A → Prop
  | handle {p : Caller W A} {sends : ℕ} (hidle : s.Idle p)
      (hnum : after.numCalls = s.numCalls + sends)
      (hcalls : after.calls = Function.update s.calls p (List.range' s.numCalls sends))
      (hclient : after.client = s.client) (hcompleting : after.completing = s.completing) :
      Step message s after (.handle p sends)
  | fault {p : Caller W A} {accepted : Bool} {i : ℕ} {rest : List ℕ} (hfirst : s.calls p = i :: rest)
      (hready : s.stage message i = .ready) (hfault : ¬ after.Defined)
      (hstage : ∀ j, after.stage message j = s.stage message j)
      (hlock : ∀ c, after.locked c = s.locked c) (hnum : after.numCalls = s.numCalls)
      (hcalls : after.calls = s.calls) (hcompleting : after.completing = s.completing) :
      Step message s after (.send p accepted)
  | send {p : Caller W A} {accepted : Bool} {i : ℕ} {rest : List ℕ} {event : SendEvent ℕ}
      (hfirst : s.calls p = i :: rest) (hindex : event.index = i) (hbegun : event.target.Begun)
      (heffect : s.Effect message after event) (hnum : after.numCalls = s.numCalls)
      (hcalls : after.calls = s.calls) (hcompleting : after.completing = s.completing) :
      Step message s after (.send p accepted)
  | wsaSend {p : Caller W A} {accepted : Bool} {i : ℕ} {rest : List ℕ}
      (hfirst : s.calls p = i :: rest)
      (heffect : s.Effect message after (.call (.wsaSend i accepted)))
      (hnum : after.numCalls = s.numCalls) (hcalls : after.calls = Function.update s.calls p rest)
      (hcompleting : after.completing = s.completing) : Step message s after (.send p accepted)
  | dequeue {w : W} {i : ℕ} (hport : s.AtPort w)
      (heffect : s.Effect message after (.call (.shift i))) (hnum : after.numCalls = s.numCalls)
      (hcalls : after.calls = s.calls)
      (hcompleting : after.completing = Function.update s.completing w (some i)) :
      Step message s after (.dequeue w i false)
  | fail {w : W} {i : ℕ} (hport : s.AtPort w) (heffect : s.Effect message after (.fail i))
      (hnum : after.numCalls = s.numCalls) (hcalls : after.calls = s.calls)
      (hcompleting : after.completing = s.completing) : Step message s after (.dequeue w i true)
  | withdraw {w : W} {i : ℕ} (hworker : s.completing w = some i)
      (heffect : s.Effect message after (.call (.withdraw i))) (hnum : after.numCalls = s.numCalls)
      (hcalls : after.calls = s.calls) (hcompleting : after.completing = s.completing) :
      Step message s after (.postSend w)
  | unlock {w : W} {i : ℕ} (hworker : s.completing w = some i)
      (heffect : s.Effect message after (.call (.unlock i))) (hnum : after.numCalls = s.numCalls)
      (hcalls : after.calls = s.calls)
      (hcompleting : after.completing = Function.update s.completing w none) :
      Step message s after (.postSend w)

/-- A step of a call that does not copy. -/
theorem effect_of_perform {event : SendEvent ℕ} (hs : s.Tracked message)
    (hperform : s.perform message event = some after)
    (hcopy : ∀ i, event ≠ .call (.copy i)) : after.Tracked message ∧ s.Effect message after event ∧
      ∃ side, after = s.withClient (message event.index).client side := by
  obtain ⟨htracked, side, hafter, heffect | ⟨-, -, -, i, hi⟩⟩ := perform_cases hs hperform
  · exact ⟨htracked, heffect, side, hafter⟩
  · exact absurd hi (hcopy i)

end Perform

theorem step_of_send {p : Caller W A} {accepted : Bool} (hs : s.Tracked message)
    (hstep : s.send message p accepted = some after) :
    after.Tracked message ∧ s.Step message after (.send p accepted) := by
  unfold send at hstep
  split at hstep
  · cases hstep
  case h_2 i rest hfirst =>
    split at hstep
    case h_1 hstage =>
      obtain ⟨htracked, side, rfl, heffect | ⟨hfault, hsame, hlock, -⟩⟩ := perform_cases hs hstep
      · exact ⟨htracked, .send hfirst rfl (.inl rfl) heffect rfl rfl rfl⟩
      · exact ⟨htracked, .fault hfirst hstage hfault hsame hlock rfl rfl rfl⟩
    case h_2 hstage =>
      obtain ⟨htracked, heffect, side, rfl⟩ := effect_of_perform hs hstep fun _ h ↦ by cases h
      exact ⟨htracked, .send hfirst rfl (.inr (.inl rfl)) heffect rfl rfl rfl⟩
    case h_3 hstage =>
      obtain ⟨htracked, heffect, side, rfl⟩ := effect_of_perform hs hstep fun _ h ↦ by cases h
      exact ⟨htracked, .send hfirst rfl (.inr (.inr rfl)) heffect rfl rfl rfl⟩
    case h_4 hstage =>
      obtain ⟨sent, hsent, rfl⟩ := Option.map_eq_some_iff.mp hstep
      obtain ⟨htracked, heffect, side, rfl⟩ := effect_of_perform hs hsent fun _ h ↦ by cases h
      exact ⟨⟨htracked.tracked, htracked.own⟩,
        .wsaSend hfirst ⟨heffect.source, heffect.target, heffect.lock, heffect.unlocked⟩ rfl rfl rfl⟩
    all_goals cases hstep

theorem step_of_dequeue {w : W} {i : ℕ} {failed : Bool} (hs : s.Tracked message)
    (hstep : s.dequeue message w i failed = some after) :
    after.Tracked message ∧ s.Step message after (.dequeue w i failed) := by
  obtain ⟨hport, hstep⟩ := Option.ite_none_right_eq_some.mp hstep
  cases failed with
  | true =>
    change s.perform message (.fail i) = some after at hstep
    obtain ⟨htracked, heffect, side, rfl⟩ := effect_of_perform hs hstep fun _ h ↦ by cases h
    exact ⟨htracked, .fail hport heffect rfl rfl rfl⟩
  | false =>
    obtain ⟨moved, hmoved, rfl⟩ := Option.map_eq_some_iff.mp hstep
    obtain ⟨htracked, heffect, side, rfl⟩ := effect_of_perform hs hmoved fun _ h ↦ by cases h
    exact ⟨⟨htracked.tracked, htracked.own⟩,
      .dequeue hport ⟨heffect.source, heffect.target, heffect.lock, heffect.unlocked⟩ rfl rfl rfl⟩

theorem step_of_postSend {w : W} (hs : s.Tracked message)
    (hstep : s.postSend message w = some after) :
    after.Tracked message ∧ s.Step message after (.postSend w) := by
  unfold postSend at hstep
  split at hstep
  · cases hstep
  case h_2 i hworker =>
    split at hstep
    case h_1 hstage =>
      obtain ⟨htracked, heffect, side, rfl⟩ := effect_of_perform hs hstep fun _ h ↦ by cases h
      exact ⟨htracked, .withdraw hworker heffect rfl rfl rfl⟩
    case h_2 hstage =>
      obtain ⟨moved, hmoved, rfl⟩ := Option.map_eq_some_iff.mp hstep
      obtain ⟨htracked, heffect, side, rfl⟩ := effect_of_perform hs hmoved fun _ h ↦ by cases h
      exact ⟨⟨htracked.tracked, htracked.own⟩,
        .unlock hworker ⟨heffect.source, heffect.target, heffect.lock, heffect.unlocked⟩ rfl rfl rfl⟩
    all_goals cases hstep

theorem step_cases {action : SendServerAction W A} (hs : s.Tracked message)
    (hstep : s.step message action = some after) :
    after.Tracked message ∧ s.Step message after action := by
  cases action with
  | handle p sends =>
    obtain ⟨hidle, hafter⟩ := Option.ite_none_right_eq_some.mp hstep
    rw [← Option.some.inj hafter]
    exact ⟨⟨hs.tracked, hs.own⟩, .handle hidle rfl rfl rfl rfl⟩
  | send p accepted => exact step_of_send hs hstep
  | dequeue w i failed => exact step_of_dequeue hs hstep
  | postSend w => exact step_of_postSend hs hstep

end SendServer

end ServerCore.Server
