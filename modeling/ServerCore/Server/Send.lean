import Mathlib.Data.Fintype.Basic
import Mathlib.Logic.Function.Basic
import Mathlib.Tactic.Common
import ServerCore.Foundation.TransitionSystem
import ServerCore.Server.Buffer

/-!
# Sending to a client

Several threads may call `Client::Send` on one client. A call copies its data to the send buffer,
notes where, takes the lock in `Produce` and hands the range to `WSASend`; the completion runs
`PostSend`, whose `Consume` moves the buffer and gives the lock back. Only the part from `Produce` on
is under the lock. The main theorem says that the range holds the caller's bytes while they are sent
in every run in which a call copies its data only when no other call is under way. Two calls that
overlap may send other bytes.
-/

namespace ServerCore.Server

open Foundation

/-- How far a call of `Send` has come, its completion included. -/
inductive SendStage
  | ready
  | copied
  | captured
  | produced
  | sent
  | shifted
  | withdrawn
  | completed
  | failed
  deriving DecidableEq, Repr

/-- The call is between its copy and the end of its completion. -/
def SendStage.UnderWay (stage : SendStage) : Prop :=
  stage ≠ .ready ∧ stage ≠ .completed ∧ stage ≠ .failed

instance (stage : SendStage) : Decidable stage.UnderWay :=
  inferInstanceAs (Decidable (_ ∧ _ ∧ _))

/-- The data is in the buffer and `send_context->buffer_` points to it. -/
def SendStage.Captures (stage : SendStage) : Prop :=
  stage = .captured ∨ stage = .produced ∨ stage = .sent

instance (stage : SendStage) : Decidable stage.Captures :=
  inferInstanceAs (Decidable (_ ∨ _ ∨ _))

/-- A call of `Send`, with `send_context->buffer_.buf` as a distance from `buffer_`. -/
structure SendCall where
  stage : SendStage
  buf : ℕ
  deriving DecidableEq, Repr

/-- The send buffer of a client and the calls of `Send` on it. -/
structure Sender (ι : Type) where
  sendBuffer : Buffer
  call : ι → SendCall

inductive SendAction (ι : Type)
  | copy (call : ι)
  | capture (call : ι)
  | produce (call : ι)
  | wsaSend (call : ι) (accepted : Bool)
  | shift (call : ι)
  | withdraw (call : ι)
  | unlock (call : ι)
  deriving DecidableEq, Repr

/-- `SEND_BUFFER_SIZE`. -/
def sendBufferSize : ℕ := 512

namespace Sender

variable {ι : Type} [DecidableEq ι]

def initial (ι : Type) : Sender ι :=
  ⟨Buffer.init sendBufferSize, fun _ ↦ ⟨.ready, 0⟩⟩

def setStage (s : Sender ι) (i : ι) (stage : SendStage) : Sender ι :=
  { s with call := Function.update s.call i { s.call i with stage := stage } }

/-- `memcpy(send_buffer_.GetBuffer(), data, size)`, for data that fits. -/
def copy (s : Sender ι) (i : ι) (data : List UInt8) : Option (Sender ι) :=
  if (s.call i).stage = .ready ∧ s.sendBuffer.getBuffer + data.length ≤ s.sendBuffer.size then
    some ({ s with sendBuffer := s.sendBuffer.fill data }.setStage i .copied)
  else none

def capture (s : Sender ι) (i : ι) : Option (Sender ι) :=
  if (s.call i).stage = .copied then
    some { s with call := Function.update s.call i ⟨.captured, s.sendBuffer.getBuffer⟩ }
  else none

def produce (s : Sender ι) (i : ι) (size : ℕ) : Option (Sender ι) :=
  if (s.call i).stage = .captured then
    (s.sendBuffer.produce size).map fun sendBuffer ↦
      { s with sendBuffer := sendBuffer }.setStage i .produced
  else none

/-- `WSASend` accepts the range, or `Send` returns `FALSE`. -/
def wsaSend (s : Sender ι) (i : ι) (accepted : Bool) : Option (Sender ι) :=
  if (s.call i).stage = .produced then some (s.setStage i (if accepted then .sent else .failed))
  else none

/-- The send completes in full length, and `Consume` moves the buffer. A completion of no bytes does
not get to `PostSend`. -/
def shift (s : Sender ι) (i : ι) (sentBytes : ℕ) : Option (Sender ι) :=
  if (s.call i).stage = .sent ∧ 0 < sentBytes then
    (s.sendBuffer.shift sentBytes).map fun sendBuffer ↦
      { s with sendBuffer := sendBuffer }.setStage i .shifted
  else none

def withdraw (s : Sender ι) (i : ι) (sentBytes : ℕ) : Option (Sender ι) :=
  if (s.call i).stage = .shifted then
    some ({ s with sendBuffer := s.sendBuffer.withdraw sentBytes }.setStage i .withdrawn)
  else none

def unlock (s : Sender ι) (i : ι) : Option (Sender ι) :=
  if (s.call i).stage = .withdrawn then
    some ({ s with sendBuffer := s.sendBuffer.unlock }.setStage i .completed)
  else none

def step (data : ι → List UInt8) (s : Sender ι) : SendAction ι → Option (Sender ι)
  | .copy i => s.copy i (data i)
  | .capture i => s.capture i
  | .produce i => s.produce i (data i).length
  | .wsaSend i accepted => s.wsaSend i accepted
  | .shift i => s.shift i (data i).length
  | .withdraw i => s.withdraw i (data i).length
  | .unlock i => s.unlock i

/-- The calls of `Send` on a client, call `i` with `data i`. -/
def system (data : ι → List UInt8) : System (Sender ι) (SendAction ι) :=
  System.ofStep (fun s ↦ s = initial ι) (step data)

/-! ## Send integrity -/

section Statement

omit [DecidableEq ι]

/-- While a range is being sent it holds the bytes that the caller passed. -/
def Intact (data : ι → List UInt8) (s : Sender ι) : Prop :=
  ∀ i, (s.call i).stage = .sent →
    s.sendBuffer.memory.read (s.call i).buf (data i).length = data i

/-- A call copies its data when no other call is under way. -/
def Alone (s : Sender ι) : SendAction ι → Prop
  | .copy i => ∀ j, j ≠ i → ¬ (s.call j).stage.UnderWay
  | _ => True

/-- At most one call is under way, and its data is where it believes it to be. -/
structure Exclusive (data : ι → List UInt8) (s : Sender ι) : Prop where
  unique : ∀ i j, (s.call i).stage.UnderWay → (s.call j).stage.UnderWay → i = j
  copied : ∀ i, (s.call i).stage = .copied →
    s.sendBuffer.memory.read s.sendBuffer.getBuffer (data i).length = data i
  captured : ∀ i, (s.call i).stage.Captures →
    s.sendBuffer.memory.read (s.call i).buf (data i).length = data i

variable {data : ι → List UInt8} {s after : Sender ι}

theorem exclusive_initial : (initial ι).Exclusive data where
  unique := by simp [initial, SendStage.UnderWay]
  copied := by simp [initial]
  captured := by simp [initial, SendStage.Captures]

theorem Exclusive.intact (hs : s.Exclusive data) : s.Intact data :=
  fun i hi ↦ hs.captured i (Or.inr (Or.inr hi))

end Statement

variable {data : ι → List UInt8} {s after : Sender ι}

/-- The only call under way goes on, to a stage at which its data is in place if it must be. -/
theorem exclusive_of_call {i : ι} {stage : SendStage} {buf : ℕ}
    (halone : ∀ j, j ≠ i → ¬ (s.call j).stage.UnderWay)
    (hcall : after.call = Function.update s.call i ⟨stage, buf⟩)
    (hcopied : stage = .copied →
      after.sendBuffer.memory.read after.sendBuffer.getBuffer (data i).length = data i)
    (hcaptured : stage.Captures →
      after.sendBuffer.memory.read buf (data i).length = data i) : after.Exclusive data := by
  have honly (j : ι) (hj : (after.call j).stage.UnderWay) : j = i := by
    by_contra hne
    rw [hcall, Function.update_of_ne hne] at hj
    exact halone j hne hj
  refine ⟨?_, ?_, ?_⟩
  · intro j k hj hk
    rw [honly j hj, honly k hk]
  · intro j hj
    have hji := honly j (by rw [hj]; decide)
    rw [hji, hcall, Function.update_self] at hj
    rw [hji]
    exact hcopied hj
  · intro j hj
    have hji := honly j (by
      rcases hj with hj | hj | hj
      all_goals
        rw [hj]
        decide)
    rw [hji, hcall, Function.update_self] at hj ⊢
    exact hcaptured hj

omit [DecidableEq ι] in
/-- A call under way is the only one. -/
theorem Exclusive.alone {i : ι} (hs : s.Exclusive data) (hi : (s.call i).stage.UnderWay) (j : ι)
    (hne : j ≠ i) : ¬ (s.call j).stage.UnderWay :=
  fun hj ↦ hne (hs.unique j i hj hi)

theorem exclusive_step {action : SendAction ι} (hs : s.Exclusive data) (halone : s.Alone action)
    (hstep : s.step data action = some after) : after.Exclusive data := by
  cases action with
  | copy i =>
    obtain ⟨-, hafter⟩ := Option.ite_none_right_eq_some.mp hstep
    rw [← Option.some.inj hafter]
    refine exclusive_of_call halone rfl ?_ (fun h ↦ absurd h (by decide))
    intro _
    exact ByteMemory.read_write_self _ _ _
  | capture i =>
    obtain ⟨hstage, hafter⟩ := Option.ite_none_right_eq_some.mp hstep
    rw [← Option.some.inj hafter]
    refine exclusive_of_call (hs.alone (by rw [hstage]; decide)) rfl (fun h ↦ absurd h (by decide)) ?_
    intro _
    exact hs.copied i hstage
  | produce i =>
    obtain ⟨hstage, hafter⟩ := Option.ite_none_right_eq_some.mp hstep
    obtain ⟨produced, hproduced, rfl⟩ := Option.map_eq_some_iff.mp hafter
    obtain ⟨-, rfl⟩ := Buffer.produce_eq_some.mp hproduced
    refine exclusive_of_call (hs.alone (by rw [hstage]; decide)) rfl (fun h ↦ absurd h (by decide)) ?_
    intro _
    exact hs.captured i (Or.inl hstage)
  | wsaSend i accepted =>
    obtain ⟨hstage, hafter⟩ := Option.ite_none_right_eq_some.mp hstep
    rw [← Option.some.inj hafter]
    refine exclusive_of_call (hs.alone (by rw [hstage]; decide)) rfl ?_ ?_
    · cases accepted
      all_goals
        intro h
        cases h
    · intro _
      exact hs.captured i (Or.inr (Or.inl hstage))
  | shift i =>
    obtain ⟨⟨hstage, -⟩, hafter⟩ := Option.ite_none_right_eq_some.mp hstep
    obtain ⟨shifted, -, rfl⟩ := Option.map_eq_some_iff.mp hafter
    exact exclusive_of_call (hs.alone (by rw [hstage]; decide)) rfl (fun h ↦ absurd h (by decide))
      (fun h ↦ absurd h (by decide))
  | withdraw i =>
    obtain ⟨hstage, hafter⟩ := Option.ite_none_right_eq_some.mp hstep
    rw [← Option.some.inj hafter]
    exact exclusive_of_call (hs.alone (by rw [hstage]; decide)) rfl (fun h ↦ absurd h (by decide))
      (fun h ↦ absurd h (by decide))
  | unlock i =>
    obtain ⟨hstage, hafter⟩ := Option.ite_none_right_eq_some.mp hstep
    rw [← Option.some.inj hafter]
    exact exclusive_of_call (hs.alone (by rw [hstage]; decide)) rfl (fun h ↦ absurd h (by decide))
      (fun h ↦ absurd h (by decide))

/-- **Send integrity.** In a run in which a call copies its data only when no other call is under way,
every range holds the bytes that its caller passed, from `WSASend` to the completion. -/
theorem sendIntact_of_alone {history : List (Sender ι × SendAction ι)}
    (hrun : (system data).Run history s) (halone : System.Obeys Alone history) :
    ∀ seen ∈ System.visited history s, seen.Intact data := by
  have hinvariant := hrun.invariant_visited (Exclusive data)
    (fun start hstart ↦ by
      subst hstart
      exact exclusive_initial)
    (fun state action next hs hcondition hstep ↦ exclusive_step hs hcondition hstep) halone
  intro seen hseen
  exact (hinvariant seen hseen).intact

/-- Two calls that send one byte each. -/
def twoBytes (i : Fin 2) : List UInt8 :=
  if i = 0 then [1] else [2]

/-- The second call copies its byte behind the first, whose completion moves it away. -/
def overlapping : List (SendAction (Fin 2)) :=
  [.copy 0, .capture 0, .produce 0, .wsaSend 0 true, .copy 1, .capture 1, .shift 0, .withdraw 0,
    .unlock 0, .produce 1, .wsaSend 1 true]

/-- The second call then sends a byte that nobody passed. -/
theorem sendIntact_fails :
    ¬ ∀ data : Fin 2 → List UInt8, ∀ history s, (system data).Run history s → s.Intact data := by
  intro hclaim
  have hreplay : (System.replay (step twoBytes) (initial (Fin 2)) overlapping).map
      (fun s ↦ decide ((s.call 1).stage = .sent ∧
        s.sendBuffer.memory.read (s.call 1).buf 1 = [0])) = some true := by decide
  obtain ⟨history, s, hrun, htest⟩ := System.exists_run_of_replay
    (fun s ↦ s = initial (Fin 2)) rfl hreplay
  obtain ⟨hsent, hread⟩ := of_decide_eq_true htest
  have hintact := hclaim twoBytes history s hrun 1 hsent
  change s.sendBuffer.memory.read (s.call 1).buf 1 = [2] at hintact
  rw [hread] at hintact
  exact absurd hintact (by decide)

instance [Fintype ι] (action : SendAction ι) : Decidable (s.Alone action) :=
  match action with
  | .copy _ => inferInstanceAs (Decidable (∀ _, _))
  | .capture _ | .produce _ | .wsaSend _ _ | .shift _ | .withdraw _ | .unlock _ => isTrue trivial

/-- The two calls one after the other. -/
def consecutive : List (SendAction (Fin 2)) :=
  [.copy 0, .capture 0, .produce 0, .wsaSend 0 true, .shift 0, .withdraw 0, .unlock 0, .copy 1,
    .capture 1, .produce 1, .wsaSend 1 true]

/-- The main theorem applied to a run that sends both bytes. -/
theorem sendIntact_of_alone_applies :
    ∃ history s, (system twoBytes).Run history s ∧ (s.call 0).stage = .completed ∧
      (s.call 1).stage = .sent ∧ ∀ seen ∈ System.visited history s, seen.Intact twoBytes := by
  have hreplay : (System.replay
      (fun s action ↦ if s.Alone action then s.step twoBytes action else none)
      (initial (Fin 2)) consecutive).map
      (fun s ↦ decide ((s.call 0).stage = .completed ∧ (s.call 1).stage = .sent)) =
        some true := by decide
  obtain ⟨history, s, hrun, htest⟩ := System.exists_run_of_replay
    (fun s ↦ s = initial (Fin 2)) rfl hreplay
  obtain ⟨hfirst, hsecond⟩ := of_decide_eq_true htest
  obtain ⟨hrun, halone⟩ := hrun.of_tested
  exact ⟨history, s, hrun, hfirst, hsecond, sendIntact_of_alone hrun halone⟩

end Sender

end ServerCore.Server
