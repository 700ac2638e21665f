import ServerCore.Server.BufferHolder
import ServerCore.Server.Send

/-!
# The room in the send buffer

`Client::Send` copies its data behind what is in use and does not ask whether it fits: `Produce` has a
debug assertion, after the copy. A call may be refused by `WSASend`, and its completion may report an error
or no bytes; then nobody consumes, and the bytes stay in use with the lock taken.

The main theorem says that nothing is written beyond the block in exactly those runs in which every call
copies no more than the block has room for beside the bytes of the call that holds it.
-/

namespace ServerCore.Server

open Foundation

/-- The bytes that a call at this stage holds, if it has the lock. -/
def SendStage.amount (size : ℕ) : SendStage → Option ℕ
  | .produced | .sent | .shifted | .failed => some size
  | .withdrawn => some 0
  | .ready | .copied | .captured | .completed => none

/-- The calls of `Send` on a client. `faulted` is set by a `memcpy` or `memmove` that leaves the block. -/
structure SendSide (ι : Type) where
  sender : Sender ι
  faulted : Bool

/-- What `Send` and its completions do, and a completion with an error or of no bytes. -/
inductive SendEvent (ι : Type)
  | call (action : SendAction ι)
  | fail (call : ι)
  deriving DecidableEq, Repr

namespace Sender

variable {ι : Type}

/-- What each call holds. -/
def amount (data : ι → List UInt8) (s : Sender ι) (i : ι) : Option ℕ :=
  (s.call i).stage.amount (data i).length

/-- A call that comes to an end without `Consume`: `Send` has returned `FALSE`, or `IocpWork` has
disconnected the client. -/
def abandon [DecidableEq ι] (s : Sender ι) (i : ι) : Option (Sender ι) :=
  if (s.call i).stage = .sent then some (s.setStage i .failed) else none

end Sender

namespace SendSide

variable {ι : Type} [DecidableEq ι]

def initial (ι : Type) : SendSide ι :=
  ⟨Sender.initial ι, false⟩

/-- A copy or a move that does not stay in the block is undefined. -/
def orFault (s : SendSide ι) : Option (Sender ι) → SendSide ι
  | some sender => ⟨sender, false⟩
  | none => ⟨s.sender, true⟩

def step (data : ι → List UInt8) (s : SendSide ι) : SendEvent ι → Option (SendSide ι)
  | .call (.copy i) =>
    if s.faulted = false ∧ (s.sender.call i).stage = .ready then
      some (s.orFault (s.sender.copy i (data i)))
    else none
  | .call (.shift i) =>
    if s.faulted = false ∧ (s.sender.call i).stage = .sent ∧ 0 < (data i).length then
      some (s.orFault (s.sender.shift i (data i).length))
    else none
  | .call action =>
    if s.faulted = false then (s.sender.step data action).map fun sender ↦ ⟨sender, false⟩ else none
  | .fail i =>
    if s.faulted = false then (s.sender.abandon i).map fun sender ↦ ⟨sender, false⟩ else none

/-- The calls of `Send` on a client, call `i` with `data i`. -/
def system (data : ι → List UInt8) : System (SendSide ι) (SendEvent ι) :=
  System.ofStep (fun s ↦ s = initial ι) (step data)

/-! ## What is in use -/

end SendSide

namespace Sender

variable {ι : Type} {data : ι → List UInt8} {s after : Sender ι}

/-- What is in use is what the call with the lock holds, and every call that has copied is short enough
for the block. -/
structure Tracked (data : ι → List UInt8) (s : Sender ι) : Prop where
  size : s.sendBuffer.size = sendBufferSize
  held : s.sendBuffer.HeldBy (s.amount data)
  short : ∀ i, (s.call i).stage ≠ .ready → (data i).length ≤ sendBufferSize

theorem tracked_initial (data : ι → List UInt8) : (initial ι).Tracked data where
  size := rfl
  held := ⟨fun h ↦ (by cases h), fun _ _ h ↦ (by cases h), fun _ ↦ rfl⟩
  short _ h := absurd rfl h

/-- There is room for a message if it fits beside the bytes of the call that has the lock. -/
theorem Tracked.room_iff (hs : s.Tracked data) (size : ℕ) :
    s.sendBuffer.offset + size ≤ s.sendBuffer.size ↔
      size ≤ sendBufferSize ∧ ∀ j n, s.amount data j = some n → size + n ≤ sendBufferSize := by
  rw [hs.size]
  cases hlocked : s.sendBuffer.locked with
  | false =>
    have hnone := hs.held.none_of_free hlocked
    rw [hs.held.empty hlocked, Nat.zero_add]
    constructor
    · intro h
      refine ⟨h, fun j n hj ↦ ?_⟩
      rw [hnone j] at hj
      cases hj
    · exact fun h ↦ h.1
  | true =>
    obtain ⟨i, hi⟩ := hs.held.held hlocked
    obtain ⟨n, hn⟩ := Option.ne_none_iff_exists'.mp hi
    obtain ⟨-, hoffset, hsole⟩ := hs.held.holder i n hn
    rw [hoffset]
    constructor
    · intro h
      refine ⟨by omega, fun j m hj ↦ ?_⟩
      rw [hsole j (by simp [hj]), hn, Option.some.injEq] at hj
      omega
    · intro h
      have hfits := h.2 i n hn
      omega

variable [DecidableEq ι] {i : ι} {stage : SendStage} {buf : ℕ}

/-- A call goes on, and what it holds changes with its stage. -/
theorem Tracked.of_call (hs : s.Tracked data)
    (hcall : after.call = Function.update s.call i ⟨stage, buf⟩)
    (hsize : after.sendBuffer.size = s.sendBuffer.size) (hshort : (data i).length ≤ sendBufferSize)
    (hheld : after.sendBuffer.HeldBy
      (Function.update (s.amount data) i (stage.amount (data i).length))) :
    after.Tracked data := by
  have hamount : after.amount data =
      Function.update (s.amount data) i (stage.amount (data i).length) := by
    funext j
    by_cases hji : j = i
    · rw [hji, Function.update_self, amount, hcall, Function.update_self]
    · rw [Function.update_of_ne hji, amount, hcall, Function.update_of_ne hji]
      rfl
  refine ⟨hsize.trans hs.size, hamount ▸ hheld, fun j hj ↦ ?_⟩
  by_cases hji : j = i
  · rw [hji]
    exact hshort
  · rw [hcall, Function.update_of_ne hji] at hj
    exact hs.short j hj

/-- If it does not change, neither do the lock and the amount in use. -/
theorem Tracked.of_same (hs : s.Tracked data)
    (hcall : after.call = Function.update s.call i ⟨stage, buf⟩)
    (hamount : (s.call i).stage.amount (data i).length = stage.amount (data i).length)
    (hshort : (data i).length ≤ sendBufferSize)
    (hsize : after.sendBuffer.size = s.sendBuffer.size)
    (hlocked : after.sendBuffer.locked = s.sendBuffer.locked)
    (hoffset : after.sendBuffer.offset = s.sendBuffer.offset) : after.Tracked data := by
  apply hs.of_call hcall hsize hshort
  rw [← hamount, show (s.call i).stage.amount (data i).length = s.amount data i from rfl,
    Function.update_eq_self]
  exact hs.held.of_same hlocked hoffset

theorem Tracked.abandon (hs : s.Tracked data) (hstep : s.abandon i = some after) :
    after.Tracked data := by
  obtain ⟨hstage, hafter⟩ := Option.ite_none_right_eq_some.mp hstep
  rw [← Option.some.inj hafter]
  exact hs.of_same rfl (by rw [hstage]; rfl) (hs.short i (by rw [hstage]; decide)) rfl rfl rfl

theorem Tracked.step {action : SendAction ι} (hs : s.Tracked data)
    (hstep : s.step data action = some after) : after.Tracked data := by
  cases action with
  | copy i =>
    obtain ⟨⟨hstage, hroom⟩, hafter⟩ := Option.ite_none_right_eq_some.mp hstep
    rw [← Option.some.inj hafter]
    exact hs.of_same rfl (by rw [hstage]; rfl) ((hs.room_iff _).mp hroom).1 rfl rfl rfl
  | capture i =>
    obtain ⟨hstage, hafter⟩ := Option.ite_none_right_eq_some.mp hstep
    rw [← Option.some.inj hafter]
    exact hs.of_same rfl (by rw [hstage]; rfl) (hs.short i (by rw [hstage]; decide)) rfl rfl rfl
  | produce i =>
    obtain ⟨hstage, hafter⟩ := Option.ite_none_right_eq_some.mp hstep
    obtain ⟨produced, hproduced, rfl⟩ := Option.map_eq_some_iff.mp hafter
    have hshort := hs.short i (by rw [hstage]; decide)
    have hsize : produced.size = s.sendBuffer.size := by
      rw [(Buffer.produce_eq_some.mp hproduced).2]
    exact hs.of_call rfl hsize hshort
      (hs.held.produce (lt_of_le_of_lt hshort (by decide)) hproduced)
  | wsaSend i accepted =>
    obtain ⟨hstage, hafter⟩ := Option.ite_none_right_eq_some.mp hstep
    rw [← Option.some.inj hafter]
    refine hs.of_same rfl ?_ (hs.short i (by rw [hstage]; decide)) rfl rfl rfl
    rw [hstage]
    cases accepted <;> rfl
  | shift i =>
    obtain ⟨⟨hstage, -⟩, hafter⟩ := Option.ite_none_right_eq_some.mp hstep
    obtain ⟨shifted, hshift, rfl⟩ := Option.map_eq_some_iff.mp hafter
    obtain ⟨-, hshifted⟩ := Option.ite_none_right_eq_some.mp hshift
    have hsame : shifted.size = s.sendBuffer.size ∧ shifted.locked = s.sendBuffer.locked ∧
        shifted.offset = s.sendBuffer.offset := by
      rw [← Option.some.inj hshifted]
      exact ⟨rfl, rfl, rfl⟩
    exact hs.of_same rfl (by rw [hstage]; rfl) (hs.short i (by rw [hstage]; decide)) hsame.1
      hsame.2.1 hsame.2.2
  | withdraw i =>
    obtain ⟨hstage, hafter⟩ := Option.ite_none_right_eq_some.mp hstep
    rw [← Option.some.inj hafter]
    have hi : s.amount data i = some (data i).length := by
      rw [amount, hstage]
      rfl
    exact hs.of_call rfl (Buffer.size_withdraw _ _) (hs.short i (by rw [hstage]; decide))
      (hs.held.withdraw hi)
  | unlock i =>
    obtain ⟨hstage, hafter⟩ := Option.ite_none_right_eq_some.mp hstep
    rw [← Option.some.inj hafter]
    have hi : s.amount data i = some 0 := by
      rw [amount, hstage]
      rfl
    exact hs.of_call rfl rfl (hs.short i (by rw [hstage]; decide)) (hs.held.unlock hi)

/-- The `memmove` of a completion stays in the block. -/
theorem Tracked.exists_shift (hs : s.Tracked data) (hstage : (s.call i).stage = .sent)
    (hpos : 0 < (data i).length) : ∃ after, s.shift i (data i).length = some after := by
  have hi : s.amount data i = some (data i).length := by
    rw [amount, hstage]
    rfl
  have hshort := hs.short i (by rw [hstage]; decide)
  obtain ⟨-, hoffset, -⟩ := hs.held.holder i _ hi
  have hstays : s.sendBuffer.offset + sub32 s.sendBuffer.size (data i).length ≤
      s.sendBuffer.size := by
    rw [hoffset, hs.size, sub32_of_le hshort (by decide)]
    omega
  exact ⟨_, by rw [shift, if_pos ⟨hstage, hpos⟩, Buffer.shift, if_pos hstays, Option.map_some]⟩

theorem copy_eq_some_iff (hready : (s.call i).stage = .ready) :
    (∃ after, s.copy i (data i) = some after) ↔
      s.sendBuffer.offset + (data i).length ≤ s.sendBuffer.size := by
  constructor
  · intro h
    obtain ⟨after, hafter⟩ := h
    exact (Option.ite_none_right_eq_some.mp hafter).1.2
  · intro h
    exact ⟨_, if_pos ⟨hready, h⟩⟩

end Sender

namespace SendSide

variable {ι : Type} {data : ι → List UInt8} {s after : SendSide ι}

/-! ## No write beyond the block -/

/-- Nothing has been written or moved beyond the block, and no more is in use than it has. A message that
does not fit would be refused before it is copied. -/
def Within (s : SendSide ι) : Prop :=
  s.faulted = false ∧ s.sender.sendBuffer.offset ≤ s.sender.sendBuffer.size

/-- A call copies no more than the block has room for beside the bytes of the call that has the lock. -/
def Fits (data : ι → List UInt8) (s : SendSide ι) : SendEvent ι → Prop
  | .call (.copy i) => (data i).length ≤ sendBufferSize ∧
    ∀ j n, s.sender.amount data j = some n → (data i).length + n ≤ sendBufferSize
  | _ => True

/-- The invariant. -/
def Sound (data : ι → List UInt8) (s : SendSide ι) : Prop :=
  s.faulted = false ∧ s.sender.Tracked data

theorem Sound.within (hs : s.Sound data) : s.Within := by
  refine ⟨hs.1, ?_⟩
  have hroom := (hs.2.room_iff 0).mpr ⟨Nat.zero_le _, fun j n hj ↦ ?_⟩
  · exact hroom
  · rw [Nat.zero_add]
    have hstage : (s.sender.call j).stage ≠ .ready := by
      intro hready
      rw [Sender.amount, hready] at hj
      cases hj
    have hshort := hs.2.short j hstage
    have hle : n ≤ (data j).length := by
      unfold Sender.amount SendStage.amount at hj
      split at hj
      all_goals
        cases hj
      all_goals omega
    omega

variable [DecidableEq ι] {event : SendEvent ι}

omit [DecidableEq ι] in
theorem orFault_eq {sender : Sender ι} {result : Option (Sender ι)} (h : result = some sender) :
    s.orFault result = ⟨sender, false⟩ := by
  rw [h]
  rfl

theorem step_defined (hstep : s.step data event = some after) : s.faulted = false := by
  cases event with
  | fail i => exact (Option.ite_none_right_eq_some.mp hstep).1
  | call action =>
    cases action with
    | copy i | shift i => exact (Option.ite_none_right_eq_some.mp hstep).1.1
    | capture i | produce i | wsaSend i accepted | withdraw i | unlock i =>
      exact (Option.ite_none_right_eq_some.mp hstep).1

/-- Whatever a call copies, as long as it stays in the block the account is right. -/
theorem tracked_step (hs : s.sender.Tracked data) (hstep : s.step data event = some after)
    (hdefined : after.faulted = false) : after.sender.Tracked data := by
  have hresult {sender : Option (Sender ι)} (h : s.orFault sender = after) :
      sender = some after.sender := by
    cases sender with
    | none =>
      rw [← h] at hdefined
      cases hdefined
    | some sender =>
      rw [← h]
      rfl
  cases event with
  | fail i =>
    obtain ⟨-, hstep⟩ := Option.ite_none_right_eq_some.mp hstep
    obtain ⟨sender, hsender, rfl⟩ := Option.map_eq_some_iff.mp hstep
    exact hs.abandon hsender
  | call action =>
    cases action with
    | copy i =>
      obtain ⟨-, hstep⟩ := Option.ite_none_right_eq_some.mp hstep
      have hcopy := hresult (Option.some.inj hstep)
      exact hs.step (show s.sender.step data (.copy i) = some after.sender from hcopy)
    | shift i =>
      obtain ⟨-, hstep⟩ := Option.ite_none_right_eq_some.mp hstep
      have hshift := hresult (Option.some.inj hstep)
      exact hs.step (show s.sender.step data (.shift i) = some after.sender from hshift)
    | capture i | produce i | wsaSend i accepted | withdraw i | unlock i =>
      obtain ⟨-, hstep⟩ := Option.ite_none_right_eq_some.mp hstep
      obtain ⟨sender, hsender, rfl⟩ := Option.map_eq_some_iff.mp hstep
      exact hs.step hsender

/-- A call that copies no more than fits does nothing undefined, and neither does its completion. -/
theorem faulted_of_fits (hs : s.sender.Tracked data) (hfits : s.Fits data event)
    (hstep : s.step data event = some after) : after.faulted = false := by
  cases event with
  | fail i =>
    obtain ⟨-, hstep⟩ := Option.ite_none_right_eq_some.mp hstep
    obtain ⟨sender, -, rfl⟩ := Option.map_eq_some_iff.mp hstep
    rfl
  | call action =>
    cases action with
    | copy i =>
      obtain ⟨⟨-, hready⟩, hstep⟩ := Option.ite_none_right_eq_some.mp hstep
      obtain ⟨sender, hcopy⟩ := (Sender.copy_eq_some_iff hready).mpr ((hs.room_iff _).mpr hfits)
      rw [orFault_eq hcopy] at hstep
      rw [← Option.some.inj hstep]
    | shift i =>
      obtain ⟨⟨-, hstage, hpos⟩, hstep⟩ := Option.ite_none_right_eq_some.mp hstep
      obtain ⟨sender, hshift⟩ := hs.exists_shift hstage hpos
      rw [orFault_eq hshift] at hstep
      rw [← Option.some.inj hstep]
    | capture i | produce i | wsaSend i accepted | withdraw i | unlock i =>
      obtain ⟨-, hstep⟩ := Option.ite_none_right_eq_some.mp hstep
      obtain ⟨sender, -, rfl⟩ := Option.map_eq_some_iff.mp hstep
      rfl

/-- A message for which there is no room is copied all the same. -/
theorem faulted_of_not_fits (hs : s.sender.Tracked data) (hfits : ¬ s.Fits data event)
    (hstep : s.step data event = some after) : after.faulted = true := by
  cases event with
  | fail i => exact absurd trivial hfits
  | call action =>
    cases action with
    | copy i =>
      obtain ⟨⟨-, hready⟩, hstep⟩ := Option.ite_none_right_eq_some.mp hstep
      have hnone : s.sender.copy i (data i) = none := by
        rw [Option.eq_none_iff_forall_ne_some]
        intro sender hcopy
        have hroom := (Sender.copy_eq_some_iff hready).mp ⟨sender, hcopy⟩
        exact hfits ((hs.room_iff _).mp hroom)
      rw [hnone] at hstep
      rw [← Option.some.inj hstep]
      rfl
    | capture i | produce i | wsaSend i accepted | shift i | withdraw i | unlock i =>
      exact absurd trivial hfits

/-- **The send buffer's room.** For any number of calls on a client, with messages of any size, nothing is
written beyond the block in a run, if and only if every call copies no more than fits beside the bytes of
the call that has the lock. -/
theorem within_visited_iff_fits {history : List (SendSide ι × SendEvent ι)}
    (hrun : (system data).Run history s) :
    (∀ seen ∈ System.visited history s, seen.Within) ↔ System.Obeys (Fits data) history := by
  apply hrun.forall_visited_iff_obeys_of_sound (Sound data) fun _ hs ↦ hs.within
  · rintro start rfl
    exact ⟨rfl, Sender.tracked_initial data⟩
  · intro state event next hs hfits hstep
    have hdefined := faulted_of_fits hs.2 hfits hstep
    exact ⟨hdefined, tracked_step hs.2 hstep hdefined⟩
  · intro state event next hs hfits hstep hwithin
    have hfaulted := faulted_of_not_fits hs.2 hfits hstep
    rw [hwithin.1] at hfaulted
    cases hfaulted

/-- The first call copies. -/
theorem step_copy_initial (data : ι → List UInt8) (i : ι) :
    step data (initial ι) (.call (.copy i)) =
      some ((initial ι).orFault ((Sender.initial ι).copy i (data i))) := by
  simp only [step]
  exact if_pos ⟨rfl, rfl⟩

/-- One message of one byte more than the block has. -/
theorem within_fails : ¬ ∀ data : Unit → List UInt8, ∀ history s,
    (system data).Run history s → s.Within := by
  intro hclaim
  let data (_ : Unit) : List UInt8 := List.replicate (sendBufferSize + 1) 0
  have hstart : (system data).Run [] (initial Unit) := .start rfl
  have hstep := step_copy_initial data ()
  have hfits : ¬ (initial Unit).Fits data (.call (.copy ())) := by
    intro h
    have hshort : (data ()).length ≤ sendBufferSize := h.1
    rw [List.length_replicate] at hshort
    exact absurd hshort (by decide)
  have hfaulted := faulted_of_not_fits (Sender.tracked_initial data) hfits hstep
  have hwithin := hclaim data _ _ (hstart.next hstep)
  rw [hwithin.1] at hfaulted
  cases hfaulted

/-- The characterisation applied to a message of one byte. -/
theorem within_visited_iff_fits_applies :
    ∃ history s, (system fun _ : Unit ↦ [65]).Run history s ∧ s.Within ∧
      (s.sender.call ()).stage = .copied := by
  have hstart : (system fun _ : Unit ↦ [65]).Run [] (initial Unit) := .start rfl
  have hcopy := hstart.next (step_copy_initial (fun _ ↦ [65]) ())
  refine ⟨_, _, hcopy, (within_visited_iff_fits hcopy).mpr ?_ _ List.mem_cons_self, rfl⟩
  rw [System.obeys_cons]
  exact ⟨⟨by decide, fun j n hj ↦ by cases hj⟩, System.obeys_nil _⟩

end SendSide

end ServerCore.Server
