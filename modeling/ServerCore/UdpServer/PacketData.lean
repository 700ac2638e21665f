import ServerCore.Foundation.SharedPtr
import ServerCore.Foundation.TransitionSystem

/-!
# The data of packets

A `Packet` shares its `data`, a chunk of `data_pool_`, with the packets that were copied from it and
with a `write_io_data` for each time it was sent. The deleter of the `shared_ptr` gives the chunk back.
`iocp_task` frees the memory of a `write_io_data` without destroying the object, or does not free it at
all, so its reference is never released.

A chunk that is given back and taken again counts as a new one. Packets that share their data are not
told apart. Sending a packet that was moved from is undefined behaviour, so it is no step.
-/

namespace ServerCore.UdpServer

open Foundation

/-- `packets` has the `data_` of every `Packet` alive. The `write_io_data`s, by their `data_`, are in
flight, or still in the memory of `w_io_data_pool_` though nothing will come of them, or freed. -/
structure PacketData where
  dataPool : ControlBlocks
  packets : List (Option ℕ)
  inFlight : List ℕ
  abandoned : List ℕ
  recycled : List ℕ

inductive PacketAction
  | construct
  | copy (data : Option ℕ)
  | move (data : Option ℕ)
  | destroy (data : Option ℕ)
  | send (data : ℕ) (isWithIocp accepted : Bool)
  | complete (data : ℕ) (succ : Bool) (bytes : ℕ)
  deriving DecidableEq, Repr

namespace PacketData

/-- No packets yet. -/
def initial : PacketData where
  dataPool := .initial
  packets := []
  inFlight := []
  abandoned := []
  recycled := []

/-- The constructors that take a chunk of `data_pool_`. What they write into it is left out. -/
def construct (s : PacketData) : PacketData :=
  { s with dataPool := s.dataPool.make, packets := some s.dataPool.made :: s.packets }

/-- `Packet(Packet &packet)`. -/
def copy (s : PacketData) (data : Option ℕ) : Option PacketData :=
  if data ∈ s.packets then
    some { s with
      dataPool := match data with
        | some x => s.dataPool.retain x
        | none => s.dataPool
      packets := data :: s.packets }
  else none

/-- `Packet(Packet &&packet)`: the packet moved from is left with an empty pointer. -/
def move (s : PacketData) (data : Option ℕ) : Option PacketData :=
  if data ∈ s.packets then some { s with packets := data :: none :: s.packets.erase data }
  else none

/-- The destructor of a packet. -/
def destroy (s : PacketData) (data : Option ℕ) : Option PacketData :=
  if data ∈ s.packets then
    some { s with
      dataPool := match data with
        | some x => s.dataPool.release x
        | none => s.dataPool
      packets := s.packets.erase data }
  else none

/-- `Socket::Send`, through a socket with or without a completion port. A `WSASendTo` that is not
accepted has no completion. -/
def send (s : PacketData) (data : ℕ) (isWithIocp accepted : Bool) : Option PacketData :=
  if some data ∈ s.packets then
    if !isWithIocp then some s
    else
      let s := { s with dataPool := s.dataPool.retain data }
      if accepted then some { s with inFlight := data :: s.inFlight }
      else some { s with abandoned := data :: s.abandoned }
  else none

/-- `iocp_task` on the completion of a write. `w_io_data_pool_.Free` does not destroy the object. -/
def complete (s : PacketData) (data : ℕ) (succ : Bool) (bytes : ℕ) : Option PacketData :=
  if data ∈ s.inFlight then
    let s := { s with inFlight := s.inFlight.erase data }
    if !succ then some { s with abandoned := data :: s.abandoned }
    else if bytes < 4 then some { s with abandoned := data :: s.abandoned }
    else some { s with recycled := data :: s.recycled }
  else none

def step (s : PacketData) : PacketAction → Option PacketData
  | .construct => some s.construct
  | .copy data => s.copy data
  | .move data => s.move data
  | .destroy data => s.destroy data
  | .send data isWithIocp accepted => s.send data isWithIocp accepted
  | .complete data succ bytes => s.complete data succ bytes

def system : System PacketData PacketAction :=
  System.ofStep (fun s ↦ s = initial) step

variable {s after : PacketData} {x : ℕ}

/-- The packets and the writes in flight that refer to the chunk. -/
def holders (s : PacketData) (x : ℕ) : ℕ :=
  s.packets.count (some x) + s.inFlight.count x

/-- The writes that are over and have never released the chunk. -/
def lost (s : PacketData) (x : ℕ) : ℕ :=
  s.abandoned.count x + s.recycled.count x

/-- Every chunk taken is given back once as soon as nothing refers to it, and not before. -/
def GivenBack (s : PacketData) : Prop :=
  ∀ x < s.dataPool.made, s.dataPool.deleted.count x = if s.holders x = 0 then 1 else 0

/-- The chunk has never been passed to a `write_io_data`. -/
def NeverSent (s : PacketData) (x : ℕ) : Prop :=
  x ∉ s.inFlight ∧ x ∉ s.abandoned ∧ x ∉ s.recycled

/-- The step does not take the last holder of a chunk that was sent. -/
def LastUnsent (s : PacketData) : PacketAction → Prop
  | .destroy (some x) => s.holders x = 1 → s.NeverSent x
  | .complete x _ _ => s.holders x = 1 → s.NeverSent x
  | _ => True

/-! ## The counts -/

/-- The count of a chunk is that of all references to it, the lost ones included. -/
def Counted (s : PacketData) : Prop :=
  s.dataPool.Counts fun x ↦ s.holders x + s.lost x

theorem counted_initial : initial.Counted :=
  ControlBlocks.counts_initial

/-- A chunk is given back in time exactly if no reference to it was lost when its holders are gone. -/
theorem givenBack_iff (hs : s.Counted) :
    s.GivenBack ↔ ∀ x < s.dataPool.made, s.holders x = 0 → s.lost x = 0 := by
  refine forall₂_congr fun x hx ↦ ?_
  rw [hs.deleted x]
  by_cases hholders : s.holders x = 0
  · by_cases hlost : s.lost x = 0
    · simp [hx, hholders, hlost]
    · simp [hholders, hlost]
  · simp [hholders]

theorem neverSent_iff (hholder : s.holders x = 1) (hpacket : s.packets.count (some x) ≠ 0) :
    s.NeverSent x ↔ s.lost x = 0 := by
  have hflight : s.inFlight.count x = 0 := by
    unfold holders at hholder
    omega
  unfold NeverSent lost
  rw [← List.count_eq_zero, ← List.count_eq_zero, ← List.count_eq_zero]
  omega

/-! ## The steps, inverted -/

/-- All that a step can do. -/
inductive PacketStep (s : PacketData) : PacketAction → PacketData → Prop
  | construct : PacketStep s .construct s.construct
  | copy {x : ℕ} (hmem : some x ∈ s.packets) :
      PacketStep s (.copy (some x)) { s with
        dataPool := s.dataPool.retain x
        packets := some x :: s.packets }
  | copyEmpty (hmem : none ∈ s.packets) :
      PacketStep s (.copy none) { s with packets := none :: s.packets }
  | move {data : Option ℕ} (hmem : data ∈ s.packets) :
      PacketStep s (.move data) { s with packets := data :: none :: s.packets.erase data }
  | destroy {x : ℕ} (hmem : some x ∈ s.packets) :
      PacketStep s (.destroy (some x)) { s with
        dataPool := s.dataPool.release x
        packets := s.packets.erase (some x) }
  | destroyEmpty (hmem : none ∈ s.packets) :
      PacketStep s (.destroy none) { s with packets := s.packets.erase none }
  | skip {x : ℕ} {accepted : Bool} (hmem : some x ∈ s.packets) :
      PacketStep s (.send x false accepted) s
  | send {x : ℕ} (hmem : some x ∈ s.packets) :
      PacketStep s (.send x true true) { s with
        dataPool := s.dataPool.retain x
        inFlight := x :: s.inFlight }
  | reject {x : ℕ} (hmem : some x ∈ s.packets) :
      PacketStep s (.send x true false) { s with
        dataPool := s.dataPool.retain x
        abandoned := x :: s.abandoned }
  | abandon {x : ℕ} {succ : Bool} {bytes : ℕ} (hmem : x ∈ s.inFlight) :
      PacketStep s (.complete x succ bytes) { s with
        inFlight := s.inFlight.erase x
        abandoned := x :: s.abandoned }
  | recycle {x : ℕ} {bytes : ℕ} (hmem : x ∈ s.inFlight) :
      PacketStep s (.complete x true bytes) { s with
        inFlight := s.inFlight.erase x
        recycled := x :: s.recycled }

theorem packetStep_send {isWithIocp accepted : Bool}
    (hstep : s.send x isWithIocp accepted = some after) :
    s.PacketStep (.send x isWithIocp accepted) after := by
  obtain ⟨hmem, hstep⟩ := Option.ite_none_right_eq_some.mp hstep
  cases isWithIocp with
  | false => exact Option.some.inj hstep ▸ .skip hmem
  | true =>
    cases accepted with
    | true => exact Option.some.inj hstep ▸ .send hmem
    | false => exact Option.some.inj hstep ▸ .reject hmem

theorem packetStep_complete {succ : Bool} {bytes : ℕ}
    (hstep : s.complete x succ bytes = some after) :
    s.PacketStep (.complete x succ bytes) after := by
  obtain ⟨hmem, hstep⟩ := Option.ite_none_right_eq_some.mp hstep
  dsimp only at hstep
  split at hstep
  · rw [← Option.some.inj hstep]
    exact .abandon hmem
  · rename_i hsucc
    have hsucc : succ = true := by simpa using hsucc
    split at hstep
    · rw [← Option.some.inj hstep]
      exact .abandon hmem
    · rw [← Option.some.inj hstep, hsucc]
      exact .recycle hmem

theorem packetStep_of_step {action : PacketAction} (hstep : s.step action = some after) :
    s.PacketStep action after := by
  cases action with
  | construct => exact Option.some.inj hstep ▸ .construct
  | copy data =>
    obtain ⟨hmem, hafter⟩ := Option.ite_none_right_eq_some.mp hstep
    cases data with
    | some x => exact Option.some.inj hafter ▸ .copy hmem
    | none => exact Option.some.inj hafter ▸ .copyEmpty hmem
  | move data =>
    obtain ⟨hmem, hafter⟩ := Option.ite_none_right_eq_some.mp hstep
    exact Option.some.inj hafter ▸ .move hmem
  | destroy data =>
    obtain ⟨hmem, hafter⟩ := Option.ite_none_right_eq_some.mp hstep
    cases data with
    | some x => exact Option.some.inj hafter ▸ .destroy hmem
    | none => exact Option.some.inj hafter ▸ .destroyEmpty hmem
  | send data isWithIocp accepted => exact packetStep_send hstep
  | complete data succ bytes => exact packetStep_complete hstep

/-! ## One step -/

theorem count_erase_add {α : Type} [BEq α] [LawfulBEq α] [DecidableEq α] {l : List α} {a : α}
    (hmem : a ∈ l) (b : α) : l.count b = (l.erase a).count b + if a = b then 1 else 0 :=
  calc
    l.count b = (a :: l.erase a).count b := (List.perm_cons_erase hmem).count_eq b
    _ = (l.erase a).count b + if a = b then 1 else 0 := by simp [List.count_cons]

theorem holders_pos_of_packet (hmem : some x ∈ s.packets) : s.holders x + s.lost x ≠ 0 := by
  have hpos := List.count_pos_iff.mpr hmem
  unfold holders
  omega

theorem holders_destroy (hmem : some x ∈ s.packets) (y : ℕ) : s.holders y =
    holders { s with
      dataPool := s.dataPool.release x
      packets := s.packets.erase (some x) } y + if x = y then 1 else 0 := by
  have hcount := count_erase_add hmem (some y)
  simp only [Option.some.injEq] at hcount
  dsimp only [holders]
  omega

theorem holders_move {data : Option ℕ} (hmem : data ∈ s.packets) (y : ℕ) :
    holders { s with packets := data :: none :: s.packets.erase data } y = s.holders y := by
  have hperm : (data :: none :: s.packets.erase data).Perm (none :: s.packets) :=
    calc
      List.Perm (data :: none :: s.packets.erase data) (none :: data :: s.packets.erase data) :=
        List.Perm.swap none data _
      List.Perm _ (none :: s.packets) := (List.perm_cons_erase hmem).symm.cons none
  dsimp only [holders]
  rw [hperm.count_eq, List.count_cons_of_ne (by simp)]

theorem holders_complete (abandoned recycled : List ℕ) (hmem : x ∈ s.inFlight) (y : ℕ) :
    s.holders y = holders { s with
      inFlight := s.inFlight.erase x
      abandoned := abandoned
      recycled := recycled } y + if x = y then 1 else 0 := by
  have hcount := count_erase_add hmem y
  dsimp only [holders]
  omega

/-- References change hands. -/
theorem Counted.congr (hs : s.Counted) (hpool : after.dataPool = s.dataPool)
    (h : ∀ y, after.holders y + after.lost y = s.holders y + s.lost y) : after.Counted := by
  unfold Counted
  rw [hpool, funext h]
  exact hs

theorem counted_step {action : PacketAction} (hs : s.Counted) (hstep : s.PacketStep action after) :
    after.Counted := by
  cases hstep with
  | construct =>
    refine ControlBlocks.Counts.make hs fun y ↦ ?_
    simp only [holders, lost, construct, List.count_cons, beq_iff_eq, Option.some.injEq]
    omega
  | @copy x hmem =>
    refine ControlBlocks.Counts.retain hs (holders_pos_of_packet hmem) fun y ↦ ?_
    simp only [holders, lost, List.count_cons, beq_iff_eq, Option.some.injEq]
    omega
  | @destroy x hmem =>
    refine ControlBlocks.Counts.release hs fun y ↦ ?_
    rw [holders_destroy hmem y]
    exact Nat.add_right_comm _ _ _
  | @send x hmem =>
    refine ControlBlocks.Counts.retain hs (holders_pos_of_packet hmem) fun y ↦ ?_
    simp only [holders, lost, List.count_cons, beq_iff_eq]
    omega
  | @reject x hmem =>
    refine ControlBlocks.Counts.retain hs (holders_pos_of_packet hmem) fun y ↦ ?_
    simp only [holders, lost, List.count_cons, beq_iff_eq]
    omega
  | copyEmpty hmem => exact hs.congr rfl fun y ↦ by simp [holders, lost]
  | destroyEmpty hmem => exact hs.congr rfl fun y ↦ by simp [holders, lost]
  | skip => exact hs
  | move hmem =>
    refine hs.congr rfl fun y ↦ ?_
    rw [holders_move hmem y]
    rfl
  | @abandon x succ bytes hmem =>
    refine hs.congr rfl fun y ↦ ?_
    rw [holders_complete (x :: s.abandoned) s.recycled hmem y]
    simp only [lost, List.count_cons, beq_iff_eq]
    omega
  | @recycle x bytes hmem =>
    refine hs.congr rfl fun y ↦ ?_
    rw [holders_complete s.abandoned (x :: s.recycled) hmem y]
    simp only [lost, List.count_cons, beq_iff_eq]
    omega

/-- A step that takes no holder away and loses no reference. -/
theorem GivenBack.of_holders (hs : s.Counted) (hgiven : s.GivenBack) (hcounted : after.Counted)
    (hholders : ∀ y, s.holders y ≤ after.holders y) (hlost : ∀ y, after.lost y = s.lost y)
    (hmade : ∀ y < after.dataPool.made, y < s.dataPool.made ∨ after.holders y ≠ 0) :
    after.GivenBack := by
  refine (givenBack_iff hcounted).mpr fun y hy hnone ↦ ?_
  have hbefore := hholders y
  rcases hmade y hy with hold | hnew
  · rw [hlost]
    exact (givenBack_iff hs).mp hgiven y hold (by omega)
  · exact absurd hnone hnew

/-- The destruction of a packet loses no reference, but shows whether one was lost before. -/
theorem givenBack_destroy_iff (hs : s.Counted) (hgiven : s.GivenBack) (hmem : some x ∈ s.packets)
    (hcounted : after.Counted) (hafter : after = { s with
      dataPool := s.dataPool.release x
      packets := s.packets.erase (some x) }) :
    after.GivenBack ↔ (s.holders x = 1 → s.NeverSent x) := by
  have hpacket : s.packets.count (some x) ≠ 0 := Nat.ne_of_gt (List.count_pos_iff.mpr hmem)
  have hlt : x < s.dataPool.made := ControlBlocks.Counts.lt_made hs (holders_pos_of_packet hmem)
  rw [givenBack_iff hcounted]
  have hholders := holders_destroy hmem
  rw [← hafter] at hholders
  have hlost : after.lost = s.lost := by rw [hafter]; rfl
  have hmade : after.dataPool.made = s.dataPool.made := by rw [hafter]; rfl
  rw [hlost, hmade]
  have hself := hholders x
  rw [if_pos rfl] at hself
  constructor
  · intro hnone hlast
    exact (neverSent_iff hlast hpacket).mpr (hnone x hlt (by omega))
  · intro hunsent y hy hnone
    by_cases hxy : x = y
    · subst hxy
      have hlast : s.holders x = 1 := by omega
      exact (neverSent_iff hlast hpacket).mp (hunsent hlast)
    · have hother := hholders y
      rw [if_neg hxy] at hother
      exact (givenBack_iff hs).mp hgiven y hy (by omega)

/-- The completion of a write loses its reference. -/
theorem givenBack_complete_iff {abandoned recycled : List ℕ} (hs : s.Counted)
    (hgiven : s.GivenBack) (hmem : x ∈ s.inFlight) (hcounted : after.Counted)
    (hafter : after = { s with
      inFlight := s.inFlight.erase x
      abandoned := abandoned
      recycled := recycled })
    (hlost : ∀ y, after.lost y = s.lost y + if x = y then 1 else 0) :
    after.GivenBack ↔ (s.holders x = 1 → s.NeverSent x) := by
  have hflight : s.inFlight.count x ≠ 0 := Nat.ne_of_gt (List.count_pos_iff.mpr hmem)
  have hlt : x < s.dataPool.made := by
    refine ControlBlocks.Counts.lt_made hs ?_
    unfold holders
    omega
  rw [givenBack_iff hcounted]
  have hholders := holders_complete abandoned recycled hmem
  rw [← hafter] at hholders
  have hmade : after.dataPool.made = s.dataPool.made := by rw [hafter]
  rw [hmade]
  have hself := hholders x
  have hlostSelf := hlost x
  rw [if_pos rfl] at hself hlostSelf
  constructor
  · intro hnone hlast
    have hzero := hnone x hlt (by omega)
    omega
  · intro hunsent y hy hnone
    by_cases hxy : x = y
    · subst hxy
      exact absurd hmem (hunsent (by omega)).1
    · have hother := hholders y
      have hlostOther := hlost y
      rw [if_neg hxy] at hother hlostOther
      have hbefore := (givenBack_iff hs).mp hgiven y hy (by omega)
      omega

/-- A step keeps the chunks given back in time exactly if it takes the last holder only of a chunk that
was never sent. -/
theorem givenBack_step_iff {action : PacketAction} (hs : s.Counted) (hgiven : s.GivenBack)
    (hstep : s.PacketStep action after) : after.GivenBack ↔ s.LastUnsent action := by
  have hcounted := counted_step hs hstep
  cases hstep with
  | construct =>
    refine iff_of_true (hgiven.of_holders hs hcounted ?_ (fun _ ↦ rfl) ?_) trivial
    · intro y
      simp only [holders, construct, List.count_cons]
      omega
    · intro y hy
      have hy : y < s.dataPool.made + 1 := hy
      by_cases hlt : y < s.dataPool.made
      · exact Or.inl hlt
      · have heq : y = s.dataPool.made := by omega
        exact Or.inr (by simp [holders, construct, heq])
  | @copy x hmem =>
    refine iff_of_true (hgiven.of_holders hs hcounted ?_ (fun _ ↦ rfl) (fun _ ↦ Or.inl)) trivial
    intro y
    simp only [holders, List.count_cons]
    omega
  | copyEmpty hmem =>
    exact iff_of_true (hgiven.of_holders hs hcounted (fun y ↦ by simp [holders]) (fun _ ↦ rfl)
      (fun _ ↦ Or.inl)) trivial
  | move hmem =>
    exact iff_of_true (hgiven.of_holders hs hcounted (fun y ↦ Nat.le_of_eq (holders_move hmem y).symm)
      (fun _ ↦ rfl) (fun _ ↦ Or.inl)) trivial
  | destroyEmpty hmem =>
    exact iff_of_true (hgiven.of_holders hs hcounted (fun y ↦ by simp [holders]) (fun _ ↦ rfl)
      (fun _ ↦ Or.inl)) trivial
  | skip => exact iff_of_true hgiven trivial
  | @send x hmem =>
    refine iff_of_true (hgiven.of_holders hs hcounted ?_ (fun _ ↦ rfl) (fun _ ↦ Or.inl)) trivial
    intro y
    simp only [holders, List.count_cons]
    omega
  | @reject x hmem =>
    refine iff_of_true ((givenBack_iff hcounted).mpr fun y hy hnone ↦ ?_) trivial
    have hne : x ≠ y := by
      rintro rfl
      have hpos := List.count_pos_iff.mpr hmem
      dsimp only [holders] at hnone
      omega
    have hbefore := (givenBack_iff hs).mp hgiven y hy hnone
    simpa [lost, List.count_cons, hne] using hbefore
  | destroy hmem => exact givenBack_destroy_iff hs hgiven hmem hcounted rfl
  | @abandon x succ bytes hmem =>
    refine givenBack_complete_iff hs hgiven hmem hcounted rfl fun y ↦ ?_
    simp only [lost, List.count_cons, beq_iff_eq]
    omega
  | @recycle x bytes hmem =>
    refine givenBack_complete_iff hs hgiven hmem hcounted rfl fun y ↦ ?_
    simp only [lost, List.count_cons, beq_iff_eq]
    omega

/-- **The reference law of packet data.** In a run every chunk is given back once, as soon as the last
packet and the last write in flight that refer to it are gone, if and only if only chunks that were
never sent lose their last holder. -/
theorem givenBack_visited_iff_lastUnsent {history : List (PacketData × PacketAction)}
    (hrun : system.Run history s) :
    (∀ seen ∈ System.visited history s, seen.GivenBack) ↔ System.Obeys LastUnsent history := by
  apply hrun.forall_visited_iff_obeys Counted
  · rintro state rfl
    exact ⟨counted_initial, fun x hx ↦ absurd hx (Nat.not_lt_zero x)⟩
  · intro state action after hs _ hstep
    exact counted_step hs (packetStep_of_step hstep)
  · intro state action after hs hgiven hstep
    exact givenBack_step_iff hs hgiven (packetStep_of_step hstep)

/-- A packet is sent and destroyed, and the send completes. -/
theorem givenBack_fails : ¬ ∀ history s, system.Run history s → s.GivenBack := by
  intro hclaim
  have hreplay : (System.replay step initial
      [.construct, .send 0 true true, .destroy (some 0), .complete 0 true 6]).map
      (fun s ↦ decide (0 < s.dataPool.made ∧ s.holders 0 = 0 ∧ s.dataPool.deleted = [])) =
        some true := by decide
  obtain ⟨history, s, hrun, htest⟩ := System.exists_run_of_replay
    (fun s ↦ s = initial) rfl hreplay
  obtain ⟨hmade, hholders, hdeleted⟩ := of_decide_eq_true htest
  have hcount := hclaim history s hrun 0 hmade
  rw [if_pos hholders, hdeleted] at hcount
  cases hcount

/-- The characterisation applied to a packet that is copied and moved and then gives its chunk back. -/
theorem givenBack_visited_iff_lastUnsent_applies :
    ∃ history s, system.Run history s ∧ s.dataPool.deleted = [0] ∧
      ((∀ seen ∈ System.visited history s, seen.GivenBack) ↔
        System.Obeys LastUnsent history) := by
  have hreplay : (System.replay step initial
      [.construct, .copy (some 0), .move (some 0), .destroy (some 0), .destroy none,
        .destroy (some 0)]).map (fun s ↦ decide (s.dataPool.deleted = [0])) = some true := by decide
  obtain ⟨history, s, hrun, htest⟩ := System.exists_run_of_replay
    (fun s ↦ s = initial) rfl hreplay
  exact ⟨history, s, hrun, of_decide_eq_true htest, givenBack_visited_iff_lastUnsent hrun⟩

end PacketData

end ServerCore.UdpServer
