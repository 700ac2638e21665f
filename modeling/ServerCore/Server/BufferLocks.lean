import ServerCore.Server.Receive
import ServerCore.Server.SendCapacity

/-!
# The buffers of a client after failures

`Send` and `PostReceive` take the lock of their buffer in `Produce`; the completion of the send and the
return of the handler give it back in `Consume`. There is no other way to give it back. A send that
`WSASend` refuses, a completion with an error or of no bytes and a handler that throws leave the lock
taken and the bytes in use for ever.

The main theorem says that when nothing is going on, both buffers are free and empty in exactly those runs
in which none of this has happened and every message and packet had room in its buffer. What `PostReceive`
finds in the buffer is arbitrary here.
-/

namespace ServerCore.Server

open Foundation

/-- `WSASend` takes what it is given, the send completes without error and with bytes, and messages have
room in the send buffer. -/
def SendSide.Orderly {ι : Type} (data : ι → List UInt8) (s : SendSide ι) : SendEvent ι → Prop
  | .call (.wsaSend _ accepted) => accepted = true
  | .call action => s.Fits data (.call action)
  | .fail _ => False

/-- How far a call of `PostReceive` has come, with the length of its packet. -/
inductive PostStage
  | ready
  | waiting (length : ℕ)
  | handling (length : ℕ)
  | finished
  | thrown (length : ℕ)
  deriving DecidableEq, Repr

/-- The bytes that a call at this stage holds, if it has the lock. -/
def PostStage.amount : PostStage → Option ℕ
  | .handling length | .thrown length => some length
  | .ready | .waiting _ | .finished => none

/-- The call has not thrown, and its packet has room in the buffer. -/
def PostStage.Undamaged : PostStage → Prop
  | .waiting length | .handling length => length ≤ recvBufferSize
  | .thrown _ => False
  | .ready | .finished => True

/-- The buffers of a client, with the calls of `Send` and of `PostReceive`. `faulted` is set by a `memmove`
that leaves the receive buffer. -/
structure ClientBuffers (ι κ : Type) where
  send : SendSide ι
  recvBuffer : Buffer
  post : κ → PostStage
  faulted : Bool

/-- A call of `PostReceive` finds any bytes in the buffer. -/
inductive BufferEvent (ι κ : Type)
  | send (event : SendEvent ι)
  | postReceive (call : κ) (memory : ByteMemory) (receivedBytes : ℕ)
  | produce (call : κ)
  | handlerReturns (call : κ)
  | handlerThrows (call : κ)

namespace ClientBuffers

variable {ι κ : Type} [DecidableEq ι] [DecidableEq κ]

def initial (ι κ : Type) : ClientBuffers ι κ where
  send := SendSide.initial ι
  recvBuffer := Buffer.init recvBufferSize
  post _ := .ready
  faulted := false

def setPost (s : ClientBuffers ι κ) (k : κ) (stage : PostStage) : ClientBuffers ι κ :=
  { s with post := Function.update s.post k stage }

/-- `PostReceive` up to `Produce`. -/
def beginPost (packetHeaderSize : BitVec 16) (s : ClientBuffers ι κ) (k : κ) (memory : ByteMemory)
    (receivedBytes : ℕ) : ClientBuffers ι κ :=
  let recvBuffer := { s.recvBuffer with memory := memory }
  { s with recvBuffer := recvBuffer }.setPost k
    (if sub32 recvBuffer.packetSize recvBuffer.offset ≤ receivedBytes then
      .waiting (packetHeaderSize.toNat + recvBuffer.packetSize)
    else .finished)

/-- The `Consume` of `PostReceive`. -/
def consumed (s : ClientBuffers ι κ) (k : κ) : Option Buffer → ClientBuffers ι κ
  | some recvBuffer => { s with recvBuffer := recvBuffer }.setPost k .finished
  | none => { s with faulted := true }

def step (packetHeaderSize : BitVec 16) (data : ι → List UInt8) (s : ClientBuffers ι κ) :
    BufferEvent ι κ → Option (ClientBuffers ι κ)
  | .send event =>
    if s.faulted = false then (s.send.step data event).map fun send ↦ { s with send := send } else none
  | .postReceive k memory receivedBytes =>
    if s.faulted = false ∧ s.send.faulted = false ∧ s.post k = .ready ∧
        receivedBytes ≤ recvBufferSize then
      some (s.beginPost packetHeaderSize k memory receivedBytes)
    else none
  | .produce k =>
    match s.post k with
    | .waiting length =>
      if s.faulted = false ∧ s.send.faulted = false then
        (s.recvBuffer.produce length).map fun recvBuffer ↦
          { s with recvBuffer := recvBuffer }.setPost k (.handling length)
      else none
    | _ => none
  | .handlerReturns k =>
    match s.post k with
    | .handling length =>
      if s.faulted = false ∧ s.send.faulted = false then
        some (s.consumed k (s.recvBuffer.consume length))
      else none
    | _ => none
  | .handlerThrows k =>
    match s.post k with
    | .handling length =>
      if s.faulted = false ∧ s.send.faulted = false then some (s.setPost k (.thrown length)) else none
    | _ => none

/-- Any number of calls of `Send`, call `i` with `data i`, and of `PostReceive` on a client. -/
def system (packetHeaderSize : BitVec 16) (data : ι → List UInt8) :
    System (ClientBuffers ι κ) (BufferEvent ι κ) :=
  System.ofStep (fun s ↦ s = initial ι κ) (step packetHeaderSize data)

/-! ## Quiet moments -/

omit [DecidableEq ι] [DecidableEq κ]

/-- No send is in flight, and no `Send` or `PostReceive` is executing. -/
structure Quiet (s : ClientBuffers ι κ) : Prop where
  send : ∀ i, ¬ (s.send.sender.call i).stage.UnderWay
  waiting : ∀ k length, s.post k ≠ .waiting length
  handling : ∀ k length, s.post k ≠ .handling length

/-- Nothing undefined has happened, and both buffers are free and empty. -/
structure Restored (s : ClientBuffers ι κ) : Prop where
  defined : s.faulted = false ∧ s.send.faulted = false
  sendBuffer : s.send.sender.sendBuffer.locked = false ∧ s.send.sender.sendBuffer.offset = 0
  recvBuffer : s.recvBuffer.locked = false ∧ s.recvBuffer.offset = 0

/-- Sends are orderly, handlers return, and packets have room in the receive buffer. -/
def Orderly (packetHeaderSize : BitVec 16) (data : ι → List UInt8) (s : ClientBuffers ι κ) :
    BufferEvent ι κ → Prop
  | .send event => s.send.Orderly data event
  | .postReceive _ memory receivedBytes =>
    let recvBuffer := { s.recvBuffer with memory := memory }
    sub32 recvBuffer.packetSize recvBuffer.offset ≤ receivedBytes →
      packetHeaderSize.toNat + recvBuffer.packetSize ≤ recvBufferSize
  | .handlerThrows _ => False
  | .produce _ | .handlerReturns _ => True

end ClientBuffers

/-! ## Calls that never consume -/

theorem SendStage.eq_failed_of_amount {stage : SendStage} {size : ℕ}
    (hamount : stage.amount size ≠ none) (hover : ¬ stage.UnderWay) : stage = .failed := by
  cases stage <;> simp_all [amount, UnderWay]

namespace Sender

variable {ι : Type} [DecidableEq ι] {data : ι → List UInt8} {s after : Sender ι}

/-- A step moves one call, and a call that `WSASend` refuses is the only one that fails. -/
theorem call_of_step {action : SendAction ι} (hstep : s.step data action = some after) :
    ∃ i stage buf, after.call = Function.update s.call i ⟨stage, buf⟩ ∧
      (s.call i).stage ≠ .failed ∧ (stage ≠ .failed ↔ ∀ j, action ≠ .wsaSend j false) := by
  cases action with
  | copy i | capture i | withdraw i | unlock i =>
    obtain ⟨hguard, hafter⟩ := Option.ite_none_right_eq_some.mp hstep
    rw [← Option.some.inj hafter]
    refine ⟨i, _, _, rfl, ?_, by simp⟩
    simp [hguard]
  | produce i =>
    obtain ⟨hstage, hafter⟩ := Option.ite_none_right_eq_some.mp hstep
    obtain ⟨produced, -, rfl⟩ := Option.map_eq_some_iff.mp hafter
    refine ⟨i, _, _, rfl, ?_, by simp⟩
    simp [hstage]
  | wsaSend i accepted =>
    obtain ⟨hstage, hafter⟩ := Option.ite_none_right_eq_some.mp hstep
    rw [← Option.some.inj hafter]
    refine ⟨i, _, _, rfl, ?_, ?_⟩
    · simp [hstage]
    · cases accepted <;> simp
  | shift i =>
    obtain ⟨⟨hstage, -⟩, hafter⟩ := Option.ite_none_right_eq_some.mp hstep
    obtain ⟨shifted, -, rfl⟩ := Option.map_eq_some_iff.mp hafter
    refine ⟨i, _, _, rfl, ?_, by simp⟩
    simp [hstage]

end Sender

namespace SendSide

variable {ι : Type} {data : ι → List UInt8} {s after : SendSide ι}

/-- Nothing undefined has happened, and no call has failed. -/
def Undamaged (s : SendSide ι) : Prop :=
  s.faulted = false ∧ ∀ i, (s.sender.call i).stage ≠ .failed

theorem forall_stage_of_call [DecidableEq ι] {call : ι → SendCall} {i : ι} {stage : SendStage}
    {buf : ℕ} (hcall : call = Function.update s.sender.call i ⟨stage, buf⟩)
    (hbefore : (s.sender.call i).stage ≠ .failed) :
    (∀ j, (call j).stage ≠ .failed) ↔
      (∀ j, (s.sender.call j).stage ≠ .failed) ∧ stage ≠ .failed := by
  have hsplit (f : ι → SendCall) (c : SendCall) :
      (∀ j, (Function.update f i c j).stage ≠ .failed) ↔
        c.stage ≠ .failed ∧ ∀ j, j ≠ i → (f j).stage ≠ .failed :=
    Function.forall_update_iff f fun _ c ↦ c.stage ≠ .failed
  have hold := hsplit s.sender.call (s.sender.call i)
  rw [Function.update_eq_self] at hold
  rw [hcall, hsplit, hold, and_iff_right hbefore, and_comm]

variable [DecidableEq ι] {event : SendEvent ι}

/-- A call that does not fault damages nothing unless `WSASend` refuses it. -/
theorem undamaged_call {action : SendAction ι} {sender : Sender ι} (hs : s.faulted = false)
    (hstep : s.sender.step data action = some sender) :
    Undamaged ⟨sender, false⟩ ↔ s.Undamaged ∧ ∀ j, action ≠ .wsaSend j false := by
  obtain ⟨i, stage, buf, hcall, hbefore, hstage⟩ := Sender.call_of_step hstep
  unfold Undamaged
  rw [forall_stage_of_call hcall hbefore, hstage, hs, and_assoc]

theorem undamaged_step (hs : s.sender.Tracked data) (hstep : s.step data event = some after) :
    after.Undamaged ↔ s.Undamaged ∧ s.Orderly data event := by
  cases event with
  | fail i =>
    obtain ⟨hdefined, hstep⟩ := Option.ite_none_right_eq_some.mp hstep
    obtain ⟨sender, hsender, rfl⟩ := Option.map_eq_some_iff.mp hstep
    obtain ⟨-, hfailed⟩ := Option.ite_none_right_eq_some.mp hsender
    apply iff_of_false _ fun h ↦ h.2
    intro h
    apply h.2 i
    rw [← Option.some.inj hfailed]
    simp [Sender.setStage]
  | call action =>
    cases action with
    | copy i =>
      obtain ⟨⟨hdefined, hready⟩, hafter⟩ := Option.ite_none_right_eq_some.mp hstep
      by_cases hfits : s.Fits data (.call (.copy i))
      · obtain ⟨sender, hcopy⟩ := (Sender.copy_eq_some_iff hready).mpr ((hs.room_iff _).mpr hfits)
        rw [orFault_eq hcopy, Option.some.injEq] at hafter
        rw [← hafter,
          undamaged_call hdefined (show s.sender.step data (.copy i) = some sender from hcopy)]
        exact and_congr_right fun _ ↦ iff_of_true (by simp) hfits
      · have hfaulted := faulted_of_not_fits hs hfits hstep
        apply iff_of_false _ fun h ↦ hfits h.2
        intro h
        rw [h.1] at hfaulted
        cases hfaulted
    | shift i =>
      obtain ⟨⟨hdefined, hstage, hpos⟩, hafter⟩ := Option.ite_none_right_eq_some.mp hstep
      obtain ⟨sender, hshift⟩ := hs.exists_shift hstage hpos
      rw [orFault_eq hshift, Option.some.injEq] at hafter
      rw [← hafter,
        undamaged_call hdefined (show s.sender.step data (.shift i) = some sender from hshift)]
      exact and_congr_right fun _ ↦ iff_of_true (by simp) trivial
    | wsaSend i accepted =>
      obtain ⟨hdefined, hafter⟩ := Option.ite_none_right_eq_some.mp hstep
      obtain ⟨sender, hsender, rfl⟩ := Option.map_eq_some_iff.mp hafter
      rw [undamaged_call hdefined hsender]
      apply and_congr_right
      intro _
      unfold Orderly
      cases accepted <;> simp
    | capture i | produce i | withdraw i | unlock i =>
      obtain ⟨hdefined, hafter⟩ := Option.ite_none_right_eq_some.mp hstep
      obtain ⟨sender, hsender, rfl⟩ := Option.map_eq_some_iff.mp hafter
      rw [undamaged_call hdefined hsender]
      exact and_congr_right fun _ ↦ iff_of_true (by simp) trivial

end SendSide

namespace ClientBuffers

variable {ι κ : Type} [DecidableEq ι] [DecidableEq κ] {packetHeaderSize : BitVec 16}
  {data : ι → List UInt8} {s after : ClientBuffers ι κ} {k : κ}

/-! ## The calls of `PostReceive` -/

theorem produce_cases (hstep : s.step packetHeaderSize data (.produce k) = some after) :
    ∃ length recvBuffer, s.post k = .waiting length ∧
      (s.faulted = false ∧ s.send.faulted = false) ∧
      s.recvBuffer.produce length = some recvBuffer ∧
      after = { s with recvBuffer := recvBuffer }.setPost k (.handling length) := by
  cases hpost : s.post k with
  | waiting length =>
    simp only [step, hpost] at hstep
    obtain ⟨hdefined, hstep⟩ := Option.ite_none_right_eq_some.mp hstep
    obtain ⟨recvBuffer, hproduce, rfl⟩ := Option.map_eq_some_iff.mp hstep
    exact ⟨length, recvBuffer, rfl, hdefined, hproduce, rfl⟩
  | ready | handling length | finished | thrown length =>
    simp [step, hpost] at hstep

theorem handlerReturns_cases
    (hstep : s.step packetHeaderSize data (.handlerReturns k) = some after) :
    ∃ length, s.post k = .handling length ∧ (s.faulted = false ∧ s.send.faulted = false) ∧
      after = s.consumed k (s.recvBuffer.consume length) := by
  cases hpost : s.post k with
  | handling length =>
    simp only [step, hpost] at hstep
    obtain ⟨hdefined, hstep⟩ := Option.ite_none_right_eq_some.mp hstep
    exact ⟨length, rfl, hdefined, (Option.some.inj hstep).symm⟩
  | ready | waiting length | finished | thrown length =>
    simp [step, hpost] at hstep

theorem handlerThrows_cases
    (hstep : s.step packetHeaderSize data (.handlerThrows k) = some after) :
    ∃ length, s.post k = .handling length ∧ (s.faulted = false ∧ s.send.faulted = false) ∧
      after = s.setPost k (.thrown length) := by
  cases hpost : s.post k with
  | handling length =>
    simp only [step, hpost] at hstep
    obtain ⟨hdefined, hstep⟩ := Option.ite_none_right_eq_some.mp hstep
    exact ⟨length, rfl, hdefined, (Option.some.inj hstep).symm⟩
  | ready | waiting length | finished | thrown length =>
    simp [step, hpost] at hstep

/-- After something undefined there is no step. -/
theorem step_defined {event : BufferEvent ι κ}
    (hstep : s.step packetHeaderSize data event = some after) :
    s.faulted = false ∧ s.send.faulted = false := by
  cases event with
  | send event =>
    obtain ⟨hdefined, hstep⟩ := Option.ite_none_right_eq_some.mp hstep
    obtain ⟨send, hsend, -⟩ := Option.map_eq_some_iff.mp hstep
    exact ⟨hdefined, SendSide.step_defined hsend⟩
  | postReceive k memory receivedBytes =>
    obtain ⟨⟨hdefined, hsend, -⟩, -⟩ := Option.ite_none_right_eq_some.mp hstep
    exact ⟨hdefined, hsend⟩
  | produce k =>
    obtain ⟨-, -, -, hdefined, -⟩ := produce_cases hstep
    exact hdefined
  | handlerReturns k =>
    obtain ⟨-, -, hdefined, -⟩ := handlerReturns_cases hstep
    exact hdefined
  | handlerThrows k =>
    obtain ⟨-, -, hdefined, -⟩ := handlerThrows_cases hstep
    exact hdefined

/-! ## The account of both buffers -/

/-- What is in use of a buffer is what the call with its lock holds. -/
structure Tracked (data : ι → List UInt8) (s : ClientBuffers ι κ) : Prop where
  send : s.send.sender.Tracked data
  size : s.recvBuffer.size = recvBufferSize
  held : s.recvBuffer.HeldBy fun k ↦ (s.post k).amount
  short : ∀ k length, s.post k = .waiting length → length < 2 ^ 32

omit [DecidableEq ι] [DecidableEq κ] in
theorem tracked_initial (data : ι → List UInt8) : (initial ι κ).Tracked data where
  send := Sender.tracked_initial data
  size := rfl
  held := ⟨fun h ↦ (by cases h), fun _ _ h ↦ (by cases h), fun _ ↦ rfl⟩
  short _ _ h := by cases h

omit [DecidableEq ι] in
/-- A call of `PostReceive` goes on. -/
theorem Tracked.setPost {recvBuffer : Buffer} {stage : PostStage} (hs : s.Tracked data)
    (hsize : recvBuffer.size = s.recvBuffer.size)
    (hheld : recvBuffer.HeldBy (Function.update (fun k ↦ (s.post k).amount) k stage.amount))
    (hshort : ∀ length, stage = .waiting length → length < 2 ^ 32) :
    ({ s with recvBuffer := recvBuffer }.setPost k stage : ClientBuffers ι κ).Tracked data := by
  have hamount : (fun j ↦ (Function.update s.post k stage j).amount) =
      Function.update (fun k ↦ (s.post k).amount) k stage.amount := by
    funext j
    by_cases hj : j = k
    · rw [hj, Function.update_self, Function.update_self]
    · rw [Function.update_of_ne hj, Function.update_of_ne hj]
  refine ⟨hs.send, hsize.trans hs.size, hamount ▸ hheld, fun j length hj ↦ ?_⟩
  change Function.update s.post k stage j = .waiting length at hj
  by_cases hjk : j = k
  · rw [hjk, Function.update_self] at hj
    exact hshort length hj
  · rw [Function.update_of_ne hjk] at hj
    exact hs.short j length hj

omit [DecidableEq ι] in
/-- If the call holds what it held before, the lock and the amount in use stay. -/
theorem Tracked.setPost_of_same (hs : s.Tracked data) (k : κ) (recvBuffer : Buffer)
    {stage : PostStage}
    (hamount : stage.amount = (s.post k).amount) (hsize : recvBuffer.size = s.recvBuffer.size)
    (hlocked : recvBuffer.locked = s.recvBuffer.locked)
    (hoffset : recvBuffer.offset = s.recvBuffer.offset)
    (hshort : ∀ length, stage = .waiting length → length < 2 ^ 32) :
    ({ s with recvBuffer := recvBuffer }.setPost k stage : ClientBuffers ι κ).Tracked data := by
  apply hs.setPost hsize _ hshort
  rw [hamount, Function.update_eq_self k fun k ↦ (s.post k).amount]
  exact hs.held.of_same hlocked hoffset

theorem tracked_step {event : BufferEvent ι κ} (hs : s.Tracked data)
    (hstep : s.step packetHeaderSize data event = some after)
    (hdefined : after.faulted = false ∧ after.send.faulted = false) : after.Tracked data := by
  cases event with
  | send event =>
    obtain ⟨-, hstep⟩ := Option.ite_none_right_eq_some.mp hstep
    obtain ⟨send, hsend, rfl⟩ := Option.map_eq_some_iff.mp hstep
    exact ⟨SendSide.tracked_step hs.send hsend hdefined.2, hs.size, hs.held, hs.short⟩
  | postReceive k memory receivedBytes =>
    obtain ⟨⟨-, -, hready, -⟩, hafter⟩ := Option.ite_none_right_eq_some.mp hstep
    rw [← Option.some.inj hafter]
    have hheader := packetHeaderSize.isLt
    have hword := Buffer.packetSize_lt { s.recvBuffer with memory := memory }
    refine hs.setPost_of_same k { s.recvBuffer with memory := memory } ?_ rfl rfl rfl ?_
    · rw [hready]
      split <;> rfl
    · intro length hlength
      split at hlength
      · rw [← PostStage.waiting.inj hlength]
        omega
      · cases hlength
  | produce k =>
    obtain ⟨length, recvBuffer, hwaiting, -, hproduce, rfl⟩ := produce_cases hstep
    have hsize : recvBuffer.size = s.recvBuffer.size := by
      rw [(Buffer.produce_eq_some.mp hproduce).2]
    exact hs.setPost hsize (hs.held.produce (hs.short k length hwaiting) hproduce)
      fun _ h ↦ by cases h
  | handlerReturns k =>
    obtain ⟨length, hhandling, -, rfl⟩ := handlerReturns_cases hstep
    cases hconsume : s.recvBuffer.consume length with
    | none =>
      rw [hconsume] at hdefined
      exact absurd hdefined.1 (by simp [consumed])
    | some recvBuffer =>
      have hk : (s.post k).amount = some length := by
        rw [hhandling]
        rfl
      exact hs.setPost (Buffer.size_consume hconsume) (hs.held.consume hk hconsume)
        fun _ h ↦ by cases h
  | handlerThrows k =>
    obtain ⟨length, hhandling, -, rfl⟩ := handlerThrows_cases hstep
    exact hs.setPost_of_same k s.recvBuffer (by rw [hhandling]; rfl) rfl rfl rfl
      fun _ h ↦ by cases h

/-! ## Damage is permanent -/

/-- Nothing undefined has happened, no call has ended without `Consume`, and none is about to. -/
structure Undamaged (s : ClientBuffers ι κ) : Prop where
  send : s.send.Undamaged
  defined : s.faulted = false
  post : ∀ k, (s.post k).Undamaged

omit [DecidableEq ι] [DecidableEq κ] in
theorem undamaged_iff : s.Undamaged ↔
    s.send.Undamaged ∧ s.faulted = false ∧ ∀ k, (s.post k).Undamaged :=
  ⟨fun h ↦ ⟨h.send, h.defined, h.post⟩, fun h ↦ ⟨h.1, h.2.1, h.2.2⟩⟩

omit [DecidableEq ι] in
/-- A call of `PostReceive` that goes on damages something if its stage after is damaged, but before was
not. -/
theorem undamaged_setPost {recvBuffer : Buffer} {stage : PostStage} {condition : Prop}
    (hstage : stage.Undamaged ↔ (s.post k).Undamaged ∧ condition) :
    ({ s with recvBuffer := recvBuffer }.setPost k stage : ClientBuffers ι κ).Undamaged ↔
      s.Undamaged ∧ condition := by
  have hsplit (c : PostStage) : (∀ j, (Function.update s.post k c j).Undamaged) ↔
      c.Undamaged ∧ ∀ j, j ≠ k → (s.post j).Undamaged :=
    Function.forall_update_iff s.post fun _ c ↦ c.Undamaged
  have hold := hsplit (s.post k)
  rw [Function.update_eq_self] at hold
  rw [undamaged_iff, undamaged_iff, hold]
  change _ ∧ _ ∧ (∀ j, (Function.update s.post k stage j).Undamaged) ↔ _
  rw [hsplit, hstage]
  tauto

omit [DecidableEq ι] [DecidableEq κ] in
/-- The `Consume` of a call stays in the buffer if its packet has room there. -/
theorem consume_isSome_iff {length : ℕ} (hs : s.Tracked data) (hk : s.post k = .handling length) :
    (∃ recvBuffer, s.recvBuffer.consume length = some recvBuffer) ↔ length ≤ recvBufferSize := by
  have hamount : (s.post k).amount = some length := by
    rw [hk]
    rfl
  obtain ⟨-, hoffset, -⟩ := hs.held.holder k length hamount
  have hsize := hs.size
  constructor
  · intro h
    obtain ⟨recvBuffer, hconsume⟩ := h
    obtain ⟨shifted, hshift, -⟩ := Option.map_eq_some_iff.mp hconsume
    have hstays := (Option.ite_none_right_eq_some.mp hshift).1
    omega
  · intro hfits
    have hstays : s.recvBuffer.offset + sub32 s.recvBuffer.size length ≤ s.recvBuffer.size := by
      rw [hoffset, hsize, sub32_of_le hfits (by decide)]
      omega
    exact ⟨_, by rw [Buffer.consume, Buffer.shift, if_pos hstays, Option.map_some]⟩

theorem undamaged_step {event : BufferEvent ι κ} (hs : s.Tracked data)
    (hstep : s.step packetHeaderSize data event = some after) :
    after.Undamaged ↔ s.Undamaged ∧ s.Orderly packetHeaderSize data event := by
  cases event with
  | send event =>
    obtain ⟨-, hstep⟩ := Option.ite_none_right_eq_some.mp hstep
    obtain ⟨send, hsend, rfl⟩ := Option.map_eq_some_iff.mp hstep
    rw [undamaged_iff, undamaged_iff]
    change send.Undamaged ∧ _ ∧ _ ↔ _ ∧ s.send.Orderly data event
    rw [SendSide.undamaged_step hs.send hsend]
    tauto
  | postReceive k memory receivedBytes =>
    obtain ⟨⟨-, -, hready, -⟩, hafter⟩ := Option.ite_none_right_eq_some.mp hstep
    rw [← Option.some.inj hafter]
    unfold beginPost
    apply undamaged_setPost
    rw [hready]
    unfold Orderly
    dsimp only
    split
    · next htest =>
      constructor
      · exact fun hfits ↦ ⟨trivial, fun _ ↦ hfits⟩
      · exact fun h ↦ h.2 htest
    · next htest => exact iff_of_true trivial ⟨trivial, fun h ↦ absurd h htest⟩
  | produce k =>
    obtain ⟨length, recvBuffer, hwaiting, -, -, rfl⟩ := produce_cases hstep
    apply undamaged_setPost
    rw [hwaiting]
    exact (and_iff_left trivial).symm
  | handlerReturns k =>
    obtain ⟨length, hhandling, ⟨hdefined, -⟩, rfl⟩ := handlerReturns_cases hstep
    have hroom := consume_isSome_iff hs hhandling
    cases hconsume : s.recvBuffer.consume length with
    | none =>
      apply iff_of_false
      · intro h
        exact absurd h.defined (by simp [consumed])
      · intro h
        have hfits := h.1.post k
        rw [hhandling] at hfits
        obtain ⟨recvBuffer, hsome⟩ := hroom.mpr hfits
        rw [hconsume] at hsome
        cases hsome
    | some recvBuffer =>
      have hfits := hroom.mp ⟨recvBuffer, hconsume⟩
      apply undamaged_setPost
      rw [hhandling]
      exact iff_of_true trivial ⟨hfits, trivial⟩
  | handlerThrows k =>
    obtain ⟨length, hhandling, -, rfl⟩ := handlerThrows_cases hstep
    apply undamaged_setPost
    exact iff_of_false id fun h ↦ h.2

/-! ## Quiet clients -/

omit [DecidableEq ι] [DecidableEq κ] in
/-- When nothing is going on, the locks are taken by the calls that have ended without `Consume`. -/
theorem restored_iff_undamaged (hs : s.faulted = false ∧ s.send.faulted = false → s.Tracked data)
    (hquiet : s.Quiet) : s.Restored ↔ s.Undamaged := by
  constructor
  · intro h
    have htracked := hs h.defined
    refine ⟨⟨h.defined.2, fun i hfailed ↦ ?_⟩, h.defined.1, fun k ↦ ?_⟩
    · have hnone := htracked.send.held.none_of_free h.sendBuffer.1 i
      rw [Sender.amount, hfailed] at hnone
      cases hnone
    · have hnone := htracked.held.none_of_free h.recvBuffer.1 k
      cases hpost : s.post k with
      | ready | finished => trivial
      | waiting length => exact absurd hpost (hquiet.waiting k length)
      | handling length => exact absurd hpost (hquiet.handling k length)
      | thrown length =>
        rw [hpost] at hnone
        cases hnone
  · intro h
    have htracked := hs ⟨h.defined, h.send.1⟩
    have hsend : s.send.sender.sendBuffer.locked = false := by
      by_contra hlocked
      obtain ⟨i, hi⟩ := htracked.send.held.held (by simpa using hlocked)
      exact h.send.2 i (SendStage.eq_failed_of_amount hi (hquiet.send i))
    have hrecv : s.recvBuffer.locked = false := by
      by_contra hlocked
      obtain ⟨k, hk⟩ := htracked.held.held (by simpa using hlocked)
      have hpost := h.post k
      cases hstage : s.post k with
      | ready | finished | waiting length => simp [hstage, PostStage.amount] at hk
      | handling length => exact absurd hstage (hquiet.handling k length)
      | thrown length =>
        rw [hstage] at hpost
        exact hpost
    exact ⟨⟨h.defined, h.send.1⟩, ⟨hsend, htracked.send.held.empty hsend⟩,
      ⟨hrecv, htracked.held.empty hrecv⟩⟩

theorem tracked_of_reachable (hs : (system packetHeaderSize data).Reachable s)
    (hdefined : s.faulted = false ∧ s.send.faulted = false) : s.Tracked data := by
  revert hdefined
  apply hs.invariant fun s ↦ s.faulted = false ∧ s.send.faulted = false → s.Tracked data
  · rintro start rfl _
    exact tracked_initial data
  · intro state event next hs hstep hdefined
    exact tracked_step (hs (step_defined hstep)) hstep hdefined

/-- **The buffers after failures.** For any number of calls of `Send` and `PostReceive` on a client: when
nothing is going on at the end of a run, both buffers are free and empty if and only if the run was
orderly. -/
theorem restored_iff_orderly {history : List (ClientBuffers ι κ × BufferEvent ι κ)}
    (hrun : (system packetHeaderSize data).Run history s) (hquiet : s.Quiet) :
    s.Restored ↔ System.Obeys (Orderly packetHeaderSize data) history := by
  have hreachable : (system packetHeaderSize data).Reachable s := ⟨history, hrun⟩
  rw [restored_iff_undamaged (tracked_of_reachable hreachable) hquiet]
  apply hrun.iff_obeys (system packetHeaderSize data).Reachable
  · rintro start rfl
    refine ⟨⟨[], .start rfl⟩, ⟨rfl, fun i hfailed ↦ ?_⟩, rfl, fun k ↦ trivial⟩
    cases hfailed
  · intro state event next hstate hstep
    obtain ⟨before, hbefore⟩ := hstate
    exact ⟨_, hbefore.next hstep⟩
  · intro state event next hstate hstep
    exact undamaged_step (tracked_of_reachable hstate (step_defined hstep)) hstep

/-- The calls of one `Send` up to `WSASend`, and the rest of its completion. -/
def posting (accepted : Bool) : List (BufferEvent Unit Unit) :=
  [.send (.call (.copy ())), .send (.call (.capture ())), .send (.call (.produce ())),
    .send (.call (.wsaSend () accepted))]

def completing : List (BufferEvent Unit Unit) :=
  [.send (.call (.shift ())), .send (.call (.withdraw ())), .send (.call (.unlock ()))]

/-- The end of a run with one call of `Send` and none of `PostReceive`. -/
theorem exists_quiet_run (events : List (BufferEvent Unit Unit)) (stage : SendStage) (locked : Bool)
    (hover : ¬ stage.UnderWay)
    (hreplay : (System.replay (step 2 fun _ ↦ [65]) (initial Unit Unit) events).map
      (fun s ↦ decide ((s.send.sender.call ()).stage = stage ∧ s.post () = .ready ∧
        s.send.sender.sendBuffer.locked = locked)) = some true) :
    ∃ history, ∃ s : ClientBuffers Unit Unit, (system 2 fun _ ↦ [65]).Run history s ∧ s.Quiet ∧
      s.send.sender.sendBuffer.locked = locked := by
  obtain ⟨history, s, hrun, htest⟩ := System.exists_run_of_replay
    (fun s ↦ s = initial Unit Unit) rfl hreplay
  obtain ⟨hstage, hready, hlocked⟩ := of_decide_eq_true htest
  refine ⟨history, s, hrun, ⟨fun _ ↦ hstage ▸ hover, ?_, ?_⟩, hlocked⟩
  · intro k length hwaiting
    rw [hready] at hwaiting
    cases hwaiting
  · intro k length hhandling
    rw [hready] at hhandling
    cases hhandling

/-- `WSASend` refuses what a `Send` gives it, and the lock stays taken. -/
theorem restored_fails : ¬ ∀ data : Unit → List UInt8, ∀ history,
    ∀ s : ClientBuffers Unit Unit, (system 2 data).Run history s → s.Quiet → s.Restored := by
  intro hclaim
  obtain ⟨history, s, hrun, hquiet, hlocked⟩ :=
    exists_quiet_run (posting false) .failed true (by decide) (by decide)
  have hfree := (hclaim _ history s hrun hquiet).sendBuffer.1
  rw [hlocked] at hfree
  cases hfree

/-- The characterisation applied to a send that completes. -/
theorem restored_iff_orderly_applies :
    ∃ history, ∃ s : ClientBuffers Unit Unit, (system 2 fun _ ↦ [65]).Run history s ∧
      s.send.sender.sendBuffer.locked = false ∧ (s.Restored ↔
        System.Obeys (Orderly 2 fun _ ↦ [65]) history) := by
  obtain ⟨history, s, hrun, hquiet, hfree⟩ :=
    exists_quiet_run (posting true ++ completing) .completed false (by decide) (by decide)
  exact ⟨history, s, hrun, hfree, restored_iff_orderly hrun hquiet⟩

end ClientBuffers

end ServerCore.Server
