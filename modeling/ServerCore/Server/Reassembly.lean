import Mathlib.Data.List.Forall2
import ServerCore.Server.Receive

/-!
# Frame reassembly

`PostReceive` does not count the bytes of a frame that has not arrived whole: the next piece overwrites
them. It compares the bytes received with the size of the body only, takes the size from one signed
byte, and looks at one frame at most. The main theorem says for which pieces the handler is called
exactly for the frames that have arrived.
-/

namespace ServerCore.Server

open Foundation

namespace Connection

variable {frames : List Frame} {s after : Connection} {length : ℕ}

/-- The frames that have arrived whole. -/
def delivered (frames : List Frame) (s : Connection) : List (List UInt8) :=
  Blocks.completed (frames.map Frame.bytes) s.arrived

/-- The handler has been called once for each frame that has arrived, in order, with its bytes. -/
def Reassembled (frames : List Frame) (s : Connection) : Prop :=
  List.Forall₂ (fun call frame ↦ call.read 0 frame.length = frame) s.calls (delivered frames s)

/-- The frames that arrive whole with the next `length` bytes. -/
def arriving (frames : List Frame) (s : Connection) (length : ℕ) : List (List UInt8) :=
  Blocks.completed (Blocks.ahead (frames.map Frame.bytes) s.arrived)
    (Blocks.begun (frames.map Frame.bytes) s.arrived + length)

/-- A piece that the code handles right. If it ends no frame, it is shorter than the size that its
first byte spells. If it ends one frame that it also begins, the low byte of the frame's size is below
128. If it ends one frame that began in an earlier piece, it is as long as the size its first byte
spells, and together with what happens to be in the buffer behind it it spells the frame anew. -/
def Handled (frames : List Frame) (s : Connection) (length : ℕ) : Prop :=
  let piece := s.piece frames length
  match s.arriving frames length with
  | [] => length < uword (piece.headD 0)
  | [frame] =>
    if Blocks.begun (frames.map Frame.bytes) s.arrived = 0 then (frame.headD 0).toNat < 128
    else uword (piece.headD 0) ≤ length ∧
      (s.recvBuffer.memory.write 0 piece).read 0 frame.length = frame
  | _ :: _ :: _ => False

/-- Between two pieces the receive buffer is empty and its lock free. -/
structure Idle (s : Connection) : Prop where
  size : s.recvBuffer.size = recvBufferSize
  offset : s.recvBuffer.offset = 0
  head : s.recvBuffer.head = 0
  unlocked : s.recvBuffer.locked = false

theorem idle_initial : initial.Idle :=
  ⟨rfl, rfl, rfl, rfl⟩

theorem reassembled_initial : initial.Reassembled frames := by
  have hnone (frames : List Frame) :
      Blocks.completed (frames.map Frame.bytes) 0 = [] := by
    cases frames with
    | nil => rfl
    | cons frame rest => exact Blocks.completed_cons_of_lt (by simp [Frame.bytes])
  unfold Reassembled delivered
  rw [show initial.arrived = 0 from rfl, hnone]
  exact List.Forall₂.nil

/-- A size that fits the buffer is below 128. -/
theorem uword_lt {c : UInt8} {received : ℕ} (hle : uword c ≤ received)
    (hreceived : received ≤ recvBufferSize) : uword c < 128 := by
  unfold recvBufferSize at hreceived
  rw [uword_eq] at hle ⊢
  split
  · assumption
  · next h =>
    rw [if_neg h] at hle
    omega

/-- A piece that is taken for a frame is consumed. -/
theorem postReceive_of_le {b : Buffer} {received : ℕ} (hsize : b.size = recvBufferSize)
    (hoffset : b.offset = 0) (hunlocked : b.locked = false) (hreceived : received ≤ recvBufferSize)
    (hle : b.packetSize ≤ received) :
    ∃ memory, b.postReceive defaultPacketHeaderSize received =
      some (⟨memory, b.size, 0, 0, false⟩, some b.read) := by
  have hsmall : b.packetSize < 128 := uword_lt hle hreceived
  have hbound : b.size = 512 := hsize
  apply Buffer.postReceive_of_fits hoffset hunlocked (by omega) hle
  unfold defaultPacketHeaderSize
  omega

theorem length_piece (h : s.arrived + length ≤ (stream frames).length) :
    (s.piece frames length).length = length := by
  unfold piece
  rw [List.length_take, List.length_drop]
  omega

/-- What a piece does between two pieces: the handler is called if the piece is at least as long as
the size that its first byte spells, and the buffer is empty again. -/
theorem receive_of_idle (hs : s.Idle) (hstep : s.receive frames length = some after) :
    0 < length ∧ length ≤ recvBufferSize ∧ s.arrived + length ≤ (stream frames).length ∧
      after.Idle ∧ after.arrived = s.arrived + length ∧
      after.calls = s.calls ++ if uword ((s.piece frames length).headD 0) ≤ length then
        [s.recvBuffer.memory.write 0 (s.piece frames length)] else [] := by
  unfold receive at hstep
  obtain ⟨⟨hpos, hremained, harrived⟩, hstep⟩ := Option.ite_none_right_eq_some.mp hstep
  have hlength : length ≤ recvBufferSize := by
    unfold Buffer.getRemained at hremained
    rw [hs.size, hs.offset, sub32_of_le (Nat.zero_le _) (by decide)] at hremained
    exact hremained
  have hdata : 0 < (s.piece frames length).length := by
    rwa [length_piece harrived]
  have hsize := Buffer.packetSize_fill hs.offset hs.head hdata
  refine ⟨hpos, hlength, harrived, ?_⟩
  rw [← hsize]
  by_cases hle : (s.recvBuffer.fill (s.piece frames length)).packetSize ≤ length
  · obtain ⟨memory, hpost⟩ := postReceive_of_le (b := s.recvBuffer.fill (s.piece frames length))
      hs.size hs.offset hs.unlocked hlength hle
    rw [hpost, Option.map_some, Option.some.injEq] at hstep
    rw [← hstep, if_pos hle, ← Buffer.read_fill hs.offset hs.head]
    exact ⟨⟨hs.size, rfl, rfl, rfl⟩, rfl, rfl⟩
  · have hpost : (s.recvBuffer.fill (s.piece frames length)).postReceive defaultPacketHeaderSize
        length = some (s.recvBuffer.fill (s.piece frames length), none) :=
      Buffer.postReceive_of_lt hs.offset (Nat.not_le.mp hle)
    rw [hpost, Option.map_some, Option.some.injEq] at hstep
    rw [← hstep, if_neg hle]
    exact ⟨⟨hs.size, hs.offset, hs.head, hs.unlocked⟩, rfl, rfl⟩

/-- The piece begins with the bytes of the next frame that have not arrived. -/
theorem piece_eq (frames : List Frame) (s : Connection) (length : ℕ) :
    s.piece frames length =
      ((Blocks.ahead (frames.map Frame.bytes) s.arrived).flatten.drop
        (Blocks.begun (frames.map Frame.bytes) s.arrived)).take length := by
  unfold piece stream
  rw [Blocks.drop_flatten]

/-- The low byte of a frame's size. -/
theorem headD_bytes (frame : Frame) :
    (frame.bytes.headD 0).toNat = frame.body.length % 256 := by
  simp [Frame.bytes]

/-- A frame that lies at the start of the piece is found by a handler that is called, and the handler
is called if the low byte of its size is below 128. -/
theorem whole_frame_iff {data frame rest : List UInt8} {memory : ByteMemory}
    (hframe : frame ∈ frames.map Frame.bytes) (hlength : length ≤ recvBufferSize)
    (hfits : frame.length ≤ length) (hdata : data = (frame ++ rest).take length)
    (hfull : data.length = length) :
    (uword (data.headD 0) ≤ length ∧ (memory.write 0 data).read 0 frame.length = frame) ↔
      (frame.headD 0).toNat < 128 := by
  obtain ⟨f, -, rfl⟩ := List.mem_map.mp hframe
  have htake : data.take f.bytes.length = f.bytes :=
    calc
      data.take f.bytes.length = ((f.bytes ++ rest).take length).take f.bytes.length := by
        rw [hdata]
      _ = (f.bytes ++ rest).take f.bytes.length := by rw [List.take_take, Nat.min_eq_left hfits]
      _ = f.bytes := List.take_left
  have hread : (memory.write 0 data).read 0 f.bytes.length = f.bytes := by
    rw [← ByteMemory.take_read _ 0 (show f.bytes.length ≤ data.length by omega),
      ByteMemory.read_write_self, htake]
  have hfirst : data.headD 0 = f.bytes.headD 0 := by
    rw [← htake]
    cases data with
    | nil => rfl
    | cons first tail => rfl
  have hbody : f.bytes.length = f.body.length + 2 := rfl
  have hlow := headD_bytes f
  rw [hfirst, uword_eq]
  constructor
  · intro h
    by_contra hhigh
    rw [if_neg hhigh] at h
    unfold recvBufferSize at hlength
    omega
  · intro h
    rw [if_pos h]
    exact ⟨by omega, hread⟩

/-- After a piece the calls are right for the frames that arrive exactly if the piece is handled. -/
theorem calls_iff_handled (hlength : length ≤ recvBufferSize)
    (harrived : s.arrived + length ≤ (stream frames).length) :
    List.Forall₂ (fun (call : ByteMemory) frame ↦ call.read 0 frame.length = frame)
      (if uword ((s.piece frames length).headD 0) ≤ length then
        [s.recvBuffer.memory.write 0 (s.piece frames length)] else [])
      (s.arriving frames length) ↔ s.Handled frames length := by
  unfold Handled
  cases harriving : s.arriving frames length with
  | nil =>
    dsimp only
    by_cases hle : uword ((s.piece frames length).headD 0) ≤ length
    · rw [if_pos hle]
      simp only [List.forall₂_nil_right_iff, List.cons_ne_self, false_iff]
      omega
    · rw [if_neg hle]
      simp only [List.forall₂_nil_right_iff, true_iff]
      omega
  | cons frame more =>
    cases more with
    | cons second more =>
      dsimp only
      rw [iff_false]
      intro h
      have hcount := h.length_eq
      split at hcount
      all_goals simp at hcount
    | nil =>
      dsimp only
      have hone : List.Forall₂ (fun (call : ByteMemory) frame ↦ call.read 0 frame.length = frame)
          (if uword ((s.piece frames length).headD 0) ≤ length then
            [s.recvBuffer.memory.write 0 (s.piece frames length)] else []) [frame] ↔
          uword ((s.piece frames length).headD 0) ≤ length ∧
            (s.recvBuffer.memory.write 0 (s.piece frames length)).read 0 frame.length = frame := by
        split
        · next hle =>
          rw [List.forall₂_cons]
          exact ⟨fun h ↦ ⟨hle, h.1⟩, fun h ↦ ⟨h.2, .nil⟩⟩
        · next hle =>
          constructor
          · intro h
            cases h
          · intro h
            exact absurd h.1 hle
      rw [hone]
      by_cases hbegun : Blocks.begun (frames.map Frame.bytes) s.arrived = 0
      · rw [if_pos hbegun]
        obtain ⟨hfits, rest, hahead⟩ := Blocks.eq_cons_of_completed harriving
        have hmem : frame ∈ Blocks.ahead (frames.map Frame.bytes) s.arrived := by
          rw [hahead]
          exact List.mem_cons_self
        rw [hbegun, Nat.zero_add] at hfits
        have hpiece : s.piece frames length = (frame ++ rest.flatten).take length :=
          calc
            s.piece frames length = ((frame :: rest).flatten.drop 0).take length := by
              rw [piece_eq, hbegun, hahead]
            _ = (frame ++ rest.flatten).take length := by rw [List.drop_zero, List.flatten_cons]
        exact whole_frame_iff (Blocks.mem_of_mem_ahead hmem) hlength hfits hpiece
          (length_piece harrived)
      · rw [if_neg hbegun]

/-- From a state in which the calls are right, a piece keeps them right exactly if it is handled. -/
theorem reassembled_step_iff (hidle : s.Idle) (hs : s.Reassembled frames)
    (hstep : s.receive frames length = some after) :
    after.Reassembled frames ↔ s.Handled frames length := by
  obtain ⟨-, hlength, harrived, -, hafter, hcalls⟩ := receive_of_idle hidle hstep
  have hdelivered : after.delivered frames = s.delivered frames ++ s.arriving frames length := by
    unfold delivered arriving
    rw [hafter, Blocks.completed_add]
  rw [← calls_iff_handled hlength harrived]
  unfold Reassembled
  rw [hcalls, hdelivered]
  constructor
  · intro h
    have hdrop := List.forall₂_drop_append _ _ _ h
    rwa [← List.Forall₂.length_eq hs, List.drop_left] at hdrop
  · intro h
    exact List.rel_append hs h

/-- **Reassembly.** The handler has been called exactly for the frames that have arrived, in every
state of a run, if and only if every piece of the run is handled. -/
theorem reassembled_visited_iff_handled {history : List (Connection × ℕ)}
    (hrun : (system frames).Run history s) :
    (∀ seen ∈ System.visited history s, seen.Reassembled frames) ↔
      System.Obeys (Handled frames) history := by
  apply hrun.forall_visited_iff_obeys Idle
  · intro start hstart
    subst hstart
    exact ⟨idle_initial, reassembled_initial⟩
  · intro state piece next hidle _ hstep
    exact (receive_of_idle hidle hstep).2.2.2.1
  · intro state piece next hidle hgood hstep
    exact reassembled_step_iff hidle hgood hstep

/-- A frame with a body of one byte, received in two pieces. -/
def shortFrame : Frame where
  body := [65]
  fits := by decide

/-- The handler is called before the body has arrived. -/
theorem reassembled_fails : ¬ ∀ frames history s, (system frames).Run history s →
    s.Reassembled frames := by
  intro hclaim
  have hreplay : (System.replay (receive [shortFrame]) initial [2]).map
      (fun s ↦ decide (s.calls.length = 1 ∧ s.delivered [shortFrame] = [])) = some true := by
    decide
  obtain ⟨history, s, hrun, htest⟩ := System.exists_run_of_replay
    (fun s ↦ s = initial) rfl hreplay
  obtain ⟨hcalls, hdelivered⟩ := of_decide_eq_true htest
  have hcount := (hclaim [shortFrame] history s hrun).length_eq
  rw [hcalls, hdelivered] at hcount
  cases hcount

/-- The characterisation applied to a run that receives a frame whole. -/
theorem reassembled_visited_iff_handled_applies :
    ∃ history s, (system [shortFrame]).Run history s ∧ s.calls.length = 1 ∧
      ((∀ seen ∈ System.visited history s, seen.Reassembled [shortFrame]) ↔
        System.Obeys (Handled [shortFrame]) history) := by
  have hreplay : (System.replay (receive [shortFrame]) initial [3]).map
      (fun s ↦ decide (s.calls.length = 1)) = some true := by
    decide
  obtain ⟨history, s, hrun, htest⟩ := System.exists_run_of_replay
    (fun s ↦ s = initial) rfl hreplay
  exact ⟨history, s, hrun, of_decide_eq_true htest, reassembled_visited_iff_handled hrun⟩

end Connection

end ServerCore.Server
