import ServerCore.Server.ReceivePieces

/-!
# The steps of `PostReceive`

While a worker is in `PostReceive` the others go on. Here every access to the receive buffer is a step: the
comparison of the bytes received with the size, `Produce`, the call of the handler, and the parts of
`Consume`.

A client whose pieces are handled one after the other stands at every step where the receiver of whole
pieces puts it. The receiver takes the piece when the handler is called, or when the comparison fails.
-/

namespace ServerCore.Server

open Foundation

/-- How far the handling of a piece has come. The worker has not begun with a piece that has arrived. -/
inductive ReceiveStage
  | idle
  | arrived (received : ℕ)
  | tested (length : ℕ)
  | produced (length : ℕ)
  | called (length : ℕ)
  | shifted (length : ℕ)
  | withdrawn
  deriving DecidableEq, Repr

namespace Buffer

variable (packetHeaderSize : ℕ) (b : Buffer)

/-- The next step of `PostReceive`, if it neither waits for the lock nor leaves the block. -/
def proceed : ReceiveStage → Option (ReceiveStage × Buffer)
  | .idle => none
  | .arrived received =>
    some (if sub32 b.packetSize b.offset ≤ received then .tested (packetHeaderSize + b.packetSize)
      else .idle, b)
  | .tested length => (b.produce length).map fun b ↦ (.produced length, b)
  | .produced length => some (.called length, b)
  | .called length => (b.shift length).map fun b ↦ (.shifted length, b)
  | .shifted length => some (.withdrawn, b.withdraw length)
  | .withdrawn => some (.idle, b.unlock)

/-- What the handler finds, in the step that calls it. -/
def handed : ReceiveStage → List ByteMemory
  | .produced _ => [b.read]
  | .idle | .arrived _ | .tested _ | .called _ | .shifted _ | .withdrawn => []

/-- The next step is a `memmove` that leaves the block. -/
def Overruns : ReceiveStage → Prop
  | .called length => b.shift length = none
  | .idle | .arrived _ | .tested _ | .produced _ | .shifted _ | .withdrawn => False

instance (stage : ReceiveStage) : Decidable (b.Overruns stage) :=
  match stage with
  | .called length => inferInstanceAs (Decidable (b.shift length = none))
  | .idle | .arrived _ | .tested _ | .produced _ | .shifted _ | .withdrawn =>
    inferInstanceAs (Decidable False)

end Buffer

namespace Receiver

variable (packetHeaderSize : BitVec 16)

/-- What the handler finds in a piece, if it is called. -/
def handed (s : Receiver) (data : List UInt8) : List ByteMemory :=
  (((s.filled data).atHandler packetHeaderSize.toNat data.length).map Buffer.read).toList

/-- What the handler has found in a run, first call first. -/
def calls : List (Receiver × List UInt8) → List ByteMemory
  | [] => []
  | (s, data) :: earlier => calls earlier ++ s.handed packetHeaderSize data

/-- The pieces of a run, first piece first. -/
def taken (history : List (Receiver × List UInt8)) : List (List UInt8) :=
  (history.map Prod.snd).reverse

/-- The buffer of a client as against the receiver. `waiting` has the piece that the receiver has not
taken yet. -/
def Stands (s : Receiver) (b : Buffer) (waiting : List (List UInt8)) : ReceiveStage → Prop
  | .idle => waiting = [] ∧ s.faulted = false ∧ b = s.recvBuffer
  | .arrived received => ∃ data, waiting = [data] ∧ s.faulted = false ∧ 0 < data.length ∧
      data.length ≤ s.recvBuffer.getRemained ∧ received = data.length ∧ b = s.filled data
  | .tested length => ∃ data, waiting = [data] ∧ s.faulted = false ∧ 0 < data.length ∧
      data.length ≤ s.recvBuffer.getRemained ∧ sub32 b.packetSize b.offset ≤ data.length ∧
      length = packetHeaderSize.toNat + b.packetSize ∧ b = s.filled data
  | .produced length => ∃ data, waiting = [data] ∧ s.faulted = false ∧ 0 < data.length ∧
      data.length ≤ s.recvBuffer.getRemained ∧
      sub32 (s.filled data).packetSize (s.filled data).offset ≤ data.length ∧
      length = packetHeaderSize.toNat + (s.filled data).packetSize ∧
      (s.filled data).produce length = some b
  | .called length => waiting = [] ∧
      if s.faulted then b.shift length = none else b.consume length = some s.recvBuffer
  | .shifted length => waiting = [] ∧ s.faulted = false ∧ (b.withdraw length).unlock = s.recvBuffer
  | .withdrawn => waiting = [] ∧ s.faulted = false ∧ b.unlock = s.recvBuffer

/-- A client to whose buffer these pieces have come, and whose handler has found this, stands where a
receiver of the pieces puts it. -/
def Follows (stage : ReceiveStage) (b : Buffer) (found : List ByteMemory)
    (arrived : List (List UInt8)) : Prop :=
  ∃ history s waiting, (system packetHeaderSize).Run history s ∧
    found = calls packetHeaderSize history ∧ arrived = taken history ++ waiting ∧
      s.Stands packetHeaderSize b waiting stage

variable {packetHeaderSize} {s : Receiver} {b after : Buffer} {found : List ByteMemory}
  {arrived : List (List UInt8)} {stage next : ReceiveStage} {history : List (Receiver × List UInt8)}

theorem taken_cons (s : Receiver) (data : List UInt8) (history : List (Receiver × List UInt8)) :
    taken ((s, data) :: history) = taken history ++ [data] := by
  simp only [taken, List.map_cons, List.reverse_cons]

theorem idle_of_run (hrun : (system packetHeaderSize).Run history s) (hdefined : s.faulted = false) :
    s.Idle := by
  have hinvariant : s.faulted = false → s.Idle := by
    apply System.Reachable.invariant (S := system packetHeaderSize)
      (fun s ↦ s.faulted = false → s.Idle) _ _ ⟨history, hrun⟩
    · rintro start rfl _
      exact idle_initial
    · intro state data next hidle hstep
      exact idle_receive (hidle (Option.ite_none_right_eq_some.mp hstep).1.1) hstep
  exact hinvariant hdefined

/-- With a header of two bytes no `memmove` leaves the block. -/
theorem defined_of_run (hrun : (system 2).Run history s) : s.faulted = false := by
  induction hrun with
  | start hstart =>
    rw [show _ = initial from hstart]
    rfl
  | @next _ state _ data hbefore hstep ih =>
    obtain ⟨⟨-, hpos, hroom⟩, hprocessed⟩ := Option.ite_none_right_eq_some.mp hstep
    have hidle := idle_of_run hbefore ih
    rw [hidle.getRemained] at hroom
    obtain ⟨⟨recvBuffer, call⟩, hresult⟩ := hidle.postReceive_two hpos hroom
    rw [← Option.some.inj hprocessed, hresult]
    cases call with
    | none => rfl
    | some found => rfl

/-- The receiver takes a piece. -/
theorem run_receive {data : List UInt8} (hrun : (system packetHeaderSize).Run history s)
    (hdefined : s.faulted = false) (hpos : 0 < data.length)
    (hroom : data.length ≤ s.recvBuffer.getRemained) :
    (system packetHeaderSize).Run ((s, data) :: history)
      (s.processed data ((s.filled data).postReceive packetHeaderSize.toNat data.length)) :=
  hrun.next (if_pos ⟨hdefined, hpos, hroom⟩)

theorem follows_initial : Follows packetHeaderSize .idle (Buffer.init recvBufferSize) [] [] :=
  ⟨[], initial, [], .start rfl, rfl, rfl, rfl, rfl, rfl⟩

namespace Follows

theorem waiting_le (hfollows : Follows packetHeaderSize stage b found arrived) :
    ∃ history s, (system packetHeaderSize).Run history s ∧ found = calls packetHeaderSize history ∧
      taken history <+: arrived ∧ arrived.length ≤ history.length + 1 := by
  obtain ⟨history, s, waiting, hrun, hfound, harrived, hstands⟩ := hfollows
  refine ⟨history, s, hrun, hfound, harrived ▸ List.prefix_append _ _, ?_⟩
  have hwaiting : waiting.length ≤ 1 := by
    cases stage with
    | idle | called | shifted | withdrawn => simp [hstands.1]
    | arrived | tested | produced =>
      obtain ⟨data, hdata, -⟩ := hstands
      simp [hdata]
  rw [harrived, List.length_append, taken, List.length_reverse, List.length_map]
  omega

/-- Between two pieces the buffer is empty. -/
theorem idle (hfollows : Follows packetHeaderSize .idle b found arrived) :
    b.getBuffer = 0 ∧ b.getRemained = recvBufferSize := by
  obtain ⟨history, s, waiting, hrun, -, -, -, hdefined, rfl⟩ := hfollows
  have hidle := idle_of_run hrun hdefined
  exact ⟨hidle.offset, hidle.getRemained⟩

/-- A piece arrives. -/
theorem arrive (hfollows : Follows packetHeaderSize .idle b found arrived) {data : List UInt8}
    (hpos : 0 < data.length) (hroom : data.length ≤ recvBufferSize) :
    Follows packetHeaderSize (.arrived data.length) (b.fill data) found (arrived ++ [data]) := by
  have hempty := hfollows.idle
  obtain ⟨history, s, waiting, hrun, hfound, harrived, rfl, hdefined, rfl⟩ := hfollows
  refine ⟨history, s, [data], hrun, hfound, ?_, data, rfl, hdefined, hpos, ?_, rfl, rfl⟩
  · rw [harrived, List.append_nil]
  · rwa [hempty.2]

/-- A step of `PostReceive`. -/
theorem proceed (hfollows : Follows packetHeaderSize stage b found arrived)
    (hstep : b.proceed packetHeaderSize.toNat stage = some (next, after)) :
    Follows packetHeaderSize next after (found ++ b.handed stage) arrived := by
  obtain ⟨history, s, waiting, hrun, hfound, harrived, hstands⟩ := hfollows
  cases stage with
  | idle => cases hstep
  | arrived received =>
    obtain ⟨data, rfl, hdefined, hpos, hroom, rfl, rfl⟩ := hstands
    obtain ⟨hnext, rfl⟩ := Prod.mk.inj (Option.some.inj hstep)
    rw [Buffer.handed, List.append_nil]
    by_cases htest : sub32 (s.filled data).packetSize (s.filled data).offset ≤ data.length
    · rw [if_pos htest] at hnext
      subst hnext
      exact ⟨history, s, [data], hrun, hfound, harrived, data, rfl, hdefined, hpos, hroom, htest, rfl,
        rfl⟩
    · rw [if_neg htest] at hnext
      subst hnext
      have hpost : (s.filled data).postReceive packetHeaderSize.toNat data.length =
          some (s.filled data, none) := if_neg htest
      have hnone : s.handed packetHeaderSize data = [] := by
        rw [handed, Buffer.atHandler, if_neg htest]
        rfl
      have hreceive := run_receive hrun hdefined hpos hroom
      rw [hpost] at hreceive
      refine ⟨_, _, [], hreceive, ?_, ?_, rfl, rfl, rfl⟩
      · rw [calls, hnone, List.append_nil, hfound]
      · rw [harrived, taken_cons, List.append_nil]
  | tested length =>
    obtain ⟨data, rfl, hdefined, hpos, hroom, htest, rfl, rfl⟩ := hstands
    obtain ⟨produced, hproduce, hafter⟩ := Option.map_eq_some_iff.mp hstep
    obtain ⟨rfl, rfl⟩ := Prod.mk.inj hafter
    rw [Buffer.handed, List.append_nil]
    exact ⟨history, s, [data], hrun, hfound, harrived, data, rfl, hdefined, hpos, hroom, htest, rfl,
      hproduce⟩
  | produced length =>
    obtain ⟨data, rfl, hdefined, hpos, hroom, htest, rfl, hproduce⟩ := hstands
    obtain ⟨rfl, rfl⟩ := Prod.mk.inj (Option.some.inj hstep)
    have hhanded : s.handed packetHeaderSize data = [b.read] := by
      rw [handed, Buffer.atHandler, if_pos htest, hproduce]
      rfl
    have hpost : (s.filled data).postReceive packetHeaderSize.toNat data.length =
        (b.consume (packetHeaderSize.toNat + (s.filled data).packetSize)).map
          fun consumed ↦ (consumed, some b.read) := by
      unfold Buffer.postReceive
      dsimp only
      rw [if_pos htest, hproduce, Option.bind_some]
    have hreceive := run_receive hrun hdefined hpos hroom
    refine ⟨_, _, [], hreceive, ?_, ?_, rfl, ?_⟩
    · rw [calls, hhanded, hfound]
      rfl
    · rw [harrived, taken_cons, List.append_nil]
    · rw [hpost]
      cases hconsume : b.consume (packetHeaderSize.toNat + (s.filled data).packetSize) with
      | none =>
        rw [Option.map_none, processed, if_pos rfl]
        exact Option.map_eq_none_iff.mp hconsume
      | some consumed =>
        rw [Option.map_some, processed, if_neg Bool.false_ne_true]
  | called length =>
    obtain ⟨rfl, hconsume⟩ := hstands
    obtain ⟨moved, hshift, hafter⟩ := Option.map_eq_some_iff.mp hstep
    obtain ⟨rfl, rfl⟩ := Prod.mk.inj hafter
    rw [Buffer.handed, List.append_nil]
    have hdefined : s.faulted = false := by
      cases hfault : s.faulted with
      | false => rfl
      | true =>
        rw [if_pos hfault, hshift] at hconsume
        cases hconsume
    rw [hdefined, if_neg Bool.false_ne_true, Buffer.consume, hshift, Option.map_some] at hconsume
    exact ⟨history, s, [], hrun, hfound, harrived, rfl, hdefined, Option.some.inj hconsume⟩
  | shifted length =>
    obtain ⟨rfl, hdefined, hbuffer⟩ := hstands
    obtain ⟨rfl, rfl⟩ := Prod.mk.inj (Option.some.inj hstep)
    rw [Buffer.handed, List.append_nil]
    exact ⟨history, s, [], hrun, hfound, harrived, rfl, hdefined, hbuffer⟩
  | withdrawn =>
    obtain ⟨rfl, hdefined, hbuffer⟩ := hstands
    obtain ⟨rfl, rfl⟩ := Prod.mk.inj (Option.some.inj hstep)
    rw [Buffer.handed, List.append_nil]
    exact ⟨history, s, [], hrun, hfound, harrived, rfl, hdefined, hbuffer⟩

/-- `PostReceive` never waits for the lock. -/
theorem goes_on (hfollows : Follows packetHeaderSize stage b found arrived) (hbegun : stage ≠ .idle) :
    (b.proceed packetHeaderSize.toNat stage).isSome ∨ b.Overruns stage := by
  obtain ⟨history, s, waiting, hrun, -, -, hstands⟩ := hfollows
  cases stage with
  | idle => exact absurd rfl hbegun
  | arrived | produced | shifted | withdrawn => exact .inl rfl
  | tested length =>
    obtain ⟨data, -, hdefined, -, -, -, -, rfl⟩ := hstands
    have hunlocked : (s.filled data).locked = false := (idle_of_run hrun hdefined).unlocked
    left
    rw [Buffer.proceed, Option.isSome_map, Buffer.produce, hunlocked]
    rfl
  | called length =>
    cases hshift : b.shift length with
    | none => exact .inr hshift
    | some moved =>
      left
      rw [Buffer.proceed, hshift]
      rfl

theorem not_overruns (hfollows : Follows 2 stage b found arrived) : ¬ b.Overruns stage := by
  intro hoverruns
  obtain ⟨history, s, waiting, hrun, -, -, hstands⟩ := hfollows
  cases stage with
  | idle | arrived | tested | produced | shifted | withdrawn => exact hoverruns
  | called length =>
    have hshift : b.shift length = none := hoverruns
    have hconsume := hstands.2
    rw [defined_of_run hrun, if_neg Bool.false_ne_true, Buffer.consume, hshift] at hconsume
    cases hconsume

end Follows

end Receiver

end ServerCore.Server
