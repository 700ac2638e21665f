import ServerCore.Server.Reassembly

/-!
# Pieces of any content

The receiving side of a client when the other side sends whatever it likes. Each piece lies in the space
that `Client::Receive` offers, and `PostReceive` is called after each. Nothing is assumed of the bytes.

`PostReceive` compares the bytes received with the size without the header, and takes the size from one
signed byte. The main theorems say when the handler gets to see bytes that no receive has brought, and
when the length in use is not the one announced; and that, for all that, nothing outside the block is
touched as long as the header has two bytes.

The handler is taken to read the buffer only.
-/

namespace ServerCore.Server

open Foundation

namespace Buffer

/-- The buffer in which `PostReceive` calls the handler, if it does. -/
def atHandler (packetHeaderSize : ℕ) (b : Buffer) (receivedBytes : ℕ) : Option Buffer :=
  if sub32 b.packetSize b.offset ≤ receivedBytes then
    b.produce (packetHeaderSize + b.packetSize)
  else none

/-- `PacketHeader` at `Read()`: the size in its first two bytes. -/
def announced (b : Buffer) : ℕ :=
  b.read.load 0 2

end Buffer

/-- The receive buffer of a client. `pieces`, ghost state, has the place and the length of every piece
received since a packet was last consumed. `faulted` is set by a `memmove` that leaves the block. -/
structure Receiver where
  recvBuffer : Buffer
  pieces : List (ℕ × ℕ)
  faulted : Bool

namespace Receiver

def initial : Receiver :=
  ⟨Buffer.init recvBufferSize, [], false⟩

/-- The buffer with the piece in it, and the pieces with this one. -/
def filled (s : Receiver) (data : List UInt8) : Buffer :=
  s.recvBuffer.fill data

def arrived (s : Receiver) (data : List UInt8) : List (ℕ × ℕ) :=
  (s.recvBuffer.getBuffer, data.length) :: s.pieces

/-- What `PostReceive` leaves behind. -/
def processed (s : Receiver) (data : List UInt8) : Option (Buffer × Option ByteMemory) → Receiver
  | some (recvBuffer, some _) => ⟨recvBuffer, [], false⟩
  | some (recvBuffer, none) => ⟨recvBuffer, s.arrived data, false⟩
  | none => ⟨s.filled data, s.arrived data, true⟩

/-- A piece is received and `PostReceive` is called. -/
def receive (packetHeaderSize : BitVec 16) (s : Receiver) (data : List UInt8) : Option Receiver :=
  if s.faulted = false ∧ 0 < data.length ∧ data.length ≤ s.recvBuffer.getRemained then
    some (s.processed data ((s.filled data).postReceive packetHeaderSize.toNat data.length))
  else none

/-- All sequences of pieces, up to the first `memmove` that leaves the block. -/
def system (packetHeaderSize : BitVec 16) : System Receiver (List UInt8) :=
  System.ofStep (fun s ↦ s = initial) (receive packetHeaderSize)

/-! ## The laws of one piece -/

variable (packetHeaderSize : BitVec 16) (s : Receiver) (data : List UInt8)

/-- Byte `i` of the buffer was written by one of the pieces. -/
def Written (pieces : List (ℕ × ℕ)) (i : ℕ) : Prop :=
  ∃ piece ∈ pieces, piece.1 ≤ i ∧ i < piece.1 + piece.2

/-- If the handler is called, all bytes of its packet were received since the packet before. -/
def SeesReceived : Prop :=
  ((s.filled data).atHandler packetHeaderSize.toNat data.length).isSome →
    ∀ i < packetHeaderSize.toNat + (s.filled data).packetSize, Written (s.arrived data) i

/-- If the handler is called, the length in use is the one announced. It is called if nothing was in use
and the announced length has been received. -/
def Agrees : Prop :=
  (((s.filled data).atHandler packetHeaderSize.toNat data.length).isSome →
      packetHeaderSize.toNat + (s.filled data).packetSize =
        packetHeaderSize.toNat + (s.filled data).announced) ∧
    (s.recvBuffer.offset = 0 →
      packetHeaderSize.toNat + (s.filled data).announced ≤ data.length →
        ((s.filled data).atHandler packetHeaderSize.toNat data.length).isSome)

/-- Nothing outside the block is offered or moved, and no subtraction wraps. -/
structure Contained : Prop where
  offered : s.recvBuffer.getBuffer + s.recvBuffer.getRemained ≤ recvBufferSize
  within : ∀ produced ∈ (s.filled data).atHandler packetHeaderSize.toNat data.length,
    produced.offset ≤ produced.size
  unwrapped : ∀ produced ∈ (s.filled data).atHandler packetHeaderSize.toNat data.length,
    packetHeaderSize.toNat + (s.filled data).packetSize ≤ produced.offset ∧
      packetHeaderSize.toNat + (s.filled data).packetSize ≤ produced.size
  moved : ∀ produced ∈ (s.filled data).atHandler packetHeaderSize.toNat data.length,
    produced.offset + (produced.size - (packetHeaderSize.toNat + (s.filled data).packetSize)) ≤
      recvBufferSize
  defined : ((s.filled data).postReceive packetHeaderSize.toNat data.length).isSome

/-! ## The conditions -/

/-- If the first byte spells a size that has been received, some piece since the last packet, this one
included, is as long as the packet with its header. -/
def Covers : Prop :=
  uword (data.headD 0) ≤ data.length →
    ∃ piece ∈ s.arrived data, packetHeaderSize.toNat + uword (data.headD 0) ≤ piece.2

/-- The second byte of the piece, or the one that has been in the buffer since before. -/
def second : UInt8 :=
  data.getD 1 (s.recvBuffer.memory 1)

/-- If the first byte is below 128 and spells a size that has been received, the second byte is zero. If
it is not below 128, less than the announced length has been received. -/
def SmallSize : Prop :=
  if (data.headD 0).toNat < 128 then
    (data.headD 0).toNat ≤ data.length → s.second data = 0
  else data.length <
    packetHeaderSize.toNat + ((data.headD 0).toNat + 256 * (s.second data).toNat)

/-! ## Between two pieces -/

/-- The buffer is empty and its lock free, and the pieces lie at its start. -/
structure Idle (s : Receiver) : Prop where
  size : s.recvBuffer.size = recvBufferSize
  offset : s.recvBuffer.offset = 0
  head : s.recvBuffer.head = 0
  unlocked : s.recvBuffer.locked = false
  placed : ∀ piece ∈ s.pieces, piece.1 = 0

theorem idle_initial : initial.Idle :=
  ⟨rfl, rfl, rfl, rfl, fun _ hpiece ↦ absurd hpiece (List.not_mem_nil)⟩

variable {packetHeaderSize s data} {after : Receiver}

theorem Idle.getRemained (hs : s.Idle) : s.recvBuffer.getRemained = recvBufferSize := by
  unfold Buffer.getRemained
  rw [hs.size, hs.offset, sub32_of_le (Nat.zero_le _) (by decide), Nat.sub_zero]

theorem Idle.read_filled (hs : s.Idle) (data : List UInt8) :
    (s.filled data).read = s.recvBuffer.memory.write 0 data :=
  Buffer.read_fill hs.offset hs.head data

theorem Idle.packetSize_filled (hs : s.Idle) (hpos : 0 < data.length) :
    (s.filled data).packetSize = uword (data.headD 0) :=
  Buffer.packetSize_fill hs.offset hs.head hpos

theorem Idle.announced_filled (hs : s.Idle) (hpos : 0 < data.length) :
    (s.filled data).announced = (data.headD 0).toNat + 256 * (s.second data).toNat := by
  unfold Buffer.announced
  rw [hs.read_filled]
  cases data with
  | nil => simp at hpos
  | cons first rest =>
    simp only [ByteMemory.load, ByteMemory.write, second]
    simp

theorem Idle.placed_arrived (hs : s.Idle) : ∀ piece ∈ s.arrived data, piece.1 = 0 := by
  intro piece hpiece
  rcases List.mem_cons.mp hpiece with rfl | hpiece
  · exact hs.offset
  · exact hs.placed piece hpiece

/-- The handler is called if the size has been received. -/
theorem Idle.atHandler_eq (hs : s.Idle) :
    (s.filled data).atHandler packetHeaderSize.toNat data.length =
      if (s.filled data).packetSize ≤ data.length then
        some ⟨(s.filled data).memory, recvBufferSize,
          packetHeaderSize.toNat + (s.filled data).packetSize, 0, true⟩
      else none := by
  have hoffset : (s.filled data).offset = 0 := hs.offset
  have hunlocked : (s.filled data).locked = false := hs.unlocked
  have hword := (s.filled data).packetSize_lt
  have hheader := packetHeaderSize.isLt
  unfold Buffer.atHandler
  rw [Buffer.sub32_packetSize hoffset, Buffer.produce_of_empty hoffset hunlocked (by omega),
    show (s.filled data).size = recvBufferSize from hs.size,
    show (s.filled data).head = 0 from hs.head]

theorem Idle.called_iff (hs : s.Idle) (hpos : 0 < data.length) :
    ((s.filled data).atHandler packetHeaderSize.toNat data.length).isSome ↔
      uword (data.headD 0) ≤ data.length := by
  rw [hs.atHandler_eq, hs.packetSize_filled hpos]
  split
  · next hle => exact iff_of_true rfl hle
  · next hlt => exact iff_of_false Bool.false_ne_true hlt

/-- A piece that does not fault leaves an empty buffer. -/
theorem idle_receive (hs : s.Idle) (hstep : s.receive packetHeaderSize data = some after)
    (hafter : after.faulted = false) : after.Idle := by
  obtain ⟨⟨-, hpos, hremained⟩, hstep⟩ := Option.ite_none_right_eq_some.mp hstep
  rw [← Option.some.inj hstep] at hafter ⊢
  have hoffset : (s.filled data).offset = 0 := hs.offset
  have hunlocked : (s.filled data).locked = false := hs.unlocked
  have hsize : (s.filled data).size = 512 := hs.size
  have hword := (s.filled data).packetSize_lt
  have hheader := packetHeaderSize.isLt
  rcases Nat.lt_or_ge data.length (s.filled data).packetSize with hlt | hle
  · rw [Buffer.postReceive_of_lt hoffset hlt]
    exact ⟨hs.size, hs.offset, hs.head, hs.unlocked, hs.placed_arrived⟩
  · rcases Nat.lt_or_ge (s.filled data).size
      (packetHeaderSize.toNat + (s.filled data).packetSize) with hlong | hfits
    · rw [Buffer.postReceive_of_long hoffset hunlocked hle (by omega) hlong] at hafter
      cases hafter
    · obtain ⟨memory, hpost⟩ :=
        Buffer.postReceive_of_fits hoffset hunlocked (by omega) hle hfits
      rw [hpost]
      exact ⟨hs.size, rfl, rfl, rfl, fun _ hpiece ↦ absurd hpiece List.not_mem_nil⟩

/-- The laws of a piece that is received in an empty buffer hold of every piece of every run. -/
theorem obeys_of_idle {law : Receiver → List UInt8 → Prop}
    (hlaw : ∀ s data, s.Idle → 0 < data.length → data.length ≤ recvBufferSize → law s data)
    {history : List (Receiver × List UInt8)} (hrun : (system packetHeaderSize).Run history s) :
    System.Obeys law history := by
  have hany : System.Obeys (fun (_ : Receiver) (_ : List UInt8) ↦ True) history :=
    System.obeys_of_forall (fun _ _ ↦ trivial) history
  refine hrun.obeys_of_invariant (fun s ↦ s.faulted = false → s.Idle) ?_ ?_ ?_ hany
  · rintro start rfl _
    exact idle_initial
  · intro state piece next hidle _ hstep
    have hdefined := (Option.ite_none_right_eq_some.mp hstep).1.1
    exact idle_receive (hidle hdefined) hstep
  · intro state piece next hidle _ hstep
    obtain ⟨⟨hdefined, hpos, hremained⟩, -⟩ := Option.ite_none_right_eq_some.mp hstep
    have hidle := hidle hdefined
    rw [hidle.getRemained] at hremained
    exact hlaw state piece hidle hpos hremained

/-! ## What the handler sees -/

theorem written_iff (hs : s.Idle) {n : ℕ} :
    (∀ i < n, Written (s.arrived data) i) ↔ ∃ piece ∈ s.arrived data, n ≤ piece.2 := by
  constructor
  · intro hwritten
    cases n with
    | zero => exact ⟨_, List.mem_cons_self, Nat.zero_le _⟩
    | succ n =>
      obtain ⟨piece, hpiece, -, hlast⟩ := hwritten n n.lt_succ_self
      have hplace := hs.placed_arrived piece hpiece
      exact ⟨piece, hpiece, by omega⟩
  · intro ⟨piece, hpiece, hlength⟩ i hi
    have hplace := hs.placed_arrived piece hpiece
    exact ⟨piece, hpiece, by omega, by omega⟩

theorem seesReceived_iff (hs : s.Idle) (hpos : 0 < data.length) :
    s.SeesReceived packetHeaderSize data ↔ s.Covers packetHeaderSize data := by
  unfold SeesReceived Covers
  rw [hs.called_iff hpos, written_iff hs, hs.packetSize_filled hpos]

/-- **Only received bytes.** In a run, every packet that the handler gets consists of bytes received since
the packet before, if and only if at every piece of which the first byte spells a size that has been
received, some piece since the packet before is as long as the packet with its header. -/
theorem seesReceived_iff_covers {history : List (Receiver × List UInt8)}
    (hrun : (system packetHeaderSize).Run history s) :
    System.Obeys (SeesReceived packetHeaderSize) history ↔
      System.Obeys (Covers packetHeaderSize) history := by
  have hlaw : System.Obeys (fun s data ↦ s.SeesReceived packetHeaderSize data ↔
      s.Covers packetHeaderSize data) history :=
    obeys_of_idle (fun s data hs hpos _ ↦ seesReceived_iff hs hpos) hrun
  exact forall₂_congr hlaw

/-- The run that receives one piece. -/
theorem exists_run_of_piece (packetHeaderSize : BitVec 16) (data : List UInt8)
    (hpos : 0 < data.length) (hlength : data.length ≤ recvBufferSize) :
    ∃ s, (system packetHeaderSize).Run [(initial, data)] s := by
  have hstart : (system packetHeaderSize).Run [] initial := .start rfl
  have hremained : data.length ≤ initial.recvBuffer.getRemained := by
    rwa [idle_initial.getRemained]
  exact ⟨_, hstart.next (if_pos ⟨rfl, hpos, hremained⟩)⟩

instance : Decidable (s.Covers packetHeaderSize data) := by
  unfold Covers
  infer_instance

instance : Decidable (s.SmallSize packetHeaderSize data) := by
  unfold SmallSize
  infer_instance

/-- The header of a packet of one byte arrives, and the handler is called. -/
theorem seesReceived_fails : ¬ ∀ packetHeaderSize history s,
    (system packetHeaderSize).Run history s →
      System.Obeys (SeesReceived packetHeaderSize) history := by
  intro hclaim
  obtain ⟨s, hrun⟩ := exists_run_of_piece 2 [1, 0] (by decide) (by decide)
  have hcovers := (seesReceived_iff idle_initial (by decide)).mp
    (hclaim 2 _ s hrun (initial, [1, 0]) List.mem_cons_self)
  exact absurd hcovers (by decide)

/-- The characterisation applied to a packet that arrives whole. -/
theorem seesReceived_iff_covers_applies :
    ∃ s, (system 2).Run [(initial, [1, 0, 65])] s ∧
      System.Obeys (SeesReceived 2) [(initial, [1, 0, 65])] := by
  obtain ⟨s, hrun⟩ := exists_run_of_piece 2 [1, 0, 65] (by decide) (by decide)
  refine ⟨s, hrun, (seesReceived_iff_covers hrun).mpr ?_⟩
  rw [System.obeys_cons]
  exact ⟨by decide, System.obeys_nil _⟩

/-! ## The announced length -/

theorem agrees_iff (hs : s.Idle) (hpos : 0 < data.length) (hlength : data.length ≤ recvBufferSize) :
    s.Agrees packetHeaderSize data ↔ s.SmallSize packetHeaderSize data := by
  unfold recvBufferSize at hlength
  have hzero : s.second data = 0 ↔ (s.second data).toNat = 0 := UInt8.toNat_inj.symm
  unfold Agrees SmallSize
  rw [hs.called_iff hpos, hs.announced_filled hpos, hs.packetSize_filled hpos, uword_eq]
  split
  · rw [hzero]
    constructor
    · intro h hle
      have hsame := h.1 hle
      omega
    · intro h
      refine ⟨fun hle ↦ ?_, fun _ hle ↦ ?_⟩
      · have hsecond := h hle
        omega
      · omega
  · constructor
    · intro h
      by_contra hreceived
      have hcalled := h.2 hs.offset (not_lt.mp hreceived)
      omega
    · intro h
      exact ⟨fun hle ↦ by omega, fun _ hle ↦ by omega⟩

/-- **The announced length.** In a run, every packet is as long as its `PacketHeader` says, and is handled
when it has been received, if and only if every piece has a small size. -/
theorem agrees_iff_smallSize {history : List (Receiver × List UInt8)}
    (hrun : (system 2).Run history s) :
    System.Obeys (Agrees 2) history ↔ System.Obeys (SmallSize 2) history := by
  have hlaw : System.Obeys (fun s data ↦ s.Agrees 2 data ↔ s.SmallSize 2 data) history :=
    obeys_of_idle (fun s data hs ↦ agrees_iff hs) hrun
  exact forall₂_congr hlaw

/-- A header that announces 256 bytes is taken for a packet of none. -/
theorem agrees_fails : ¬ ∀ history s, (system 2).Run history s →
    System.Obeys (Agrees 2) history := by
  intro hclaim
  obtain ⟨s, hrun⟩ := exists_run_of_piece 2 [0, 1] (by decide) (by decide)
  have hsmall := (agrees_iff idle_initial (by decide) (by decide)).mp
    (hclaim _ s hrun (initial, [0, 1]) List.mem_cons_self)
  exact absurd hsmall (by decide)

/-- The characterisation applied to a packet of one byte. -/
theorem agrees_iff_smallSize_applies :
    ∃ s, (system 2).Run [(initial, [1, 0, 65])] s ∧
      System.Obeys (Agrees 2) [(initial, [1, 0, 65])] := by
  obtain ⟨s, hrun⟩ := exists_run_of_piece 2 [1, 0, 65] (by decide) (by decide)
  refine ⟨s, hrun, (agrees_iff_smallSize hrun).mpr ?_⟩
  rw [System.obeys_cons]
  exact ⟨by decide, System.obeys_nil _⟩

/-! ## The block -/

/-- A size that is not larger than what has been received leaves room for a header of two bytes. -/
theorem Idle.fits (hs : s.Idle) (hpos : 0 < data.length) (hlength : data.length ≤ recvBufferSize)
    (hle : (s.filled data).packetSize ≤ data.length) :
    (2 : BitVec 16).toNat + (s.filled data).packetSize ≤ recvBufferSize := by
  rw [hs.packetSize_filled hpos] at hle ⊢
  have hsmall := Connection.uword_lt hle hlength
  have htwo : (2 : BitVec 16).toNat = 2 := rfl
  unfold recvBufferSize
  omega

theorem Idle.postReceive_two (hs : s.Idle) (hpos : 0 < data.length)
    (hlength : data.length ≤ recvBufferSize) :
    ∃ result, (s.filled data).postReceive (2 : BitVec 16).toNat data.length = some result := by
  have hoffset : (s.filled data).offset = 0 := hs.offset
  have hunlocked : (s.filled data).locked = false := hs.unlocked
  have hsize : (s.filled data).size = recvBufferSize := hs.size
  rcases Nat.lt_or_ge data.length (s.filled data).packetSize with hlt | hle
  · exact ⟨_, Buffer.postReceive_of_lt hoffset hlt⟩
  · have hfits := hs.fits hpos hlength hle
    rw [← hsize] at hfits
    obtain ⟨memory, hpost⟩ :=
      Buffer.postReceive_of_fits hoffset hunlocked (hsize.trans_lt (by decide)) hle hfits
    exact ⟨_, hpost⟩

theorem contained_of_idle (hs : s.Idle) (hpos : 0 < data.length)
    (hlength : data.length ≤ recvBufferSize) : s.Contained 2 data := by
  have hproduced (produced : Buffer)
      (h : produced ∈ (s.filled data).atHandler (2 : BitVec 16).toNat data.length) :
      produced.size = recvBufferSize ∧
        produced.offset = (2 : BitVec 16).toNat + (s.filled data).packetSize ∧
        produced.offset ≤ recvBufferSize := by
    rw [hs.atHandler_eq] at h
    obtain ⟨hle, h⟩ := Option.ite_none_right_eq_some.mp h
    obtain rfl := Option.some.inj h
    exact ⟨rfl, rfl, hs.fits hpos hlength hle⟩
  obtain ⟨result, hresult⟩ := hs.postReceive_two hpos hlength
  refine ⟨?_, ?_, ?_, ?_, ?_⟩
  · rw [hs.getRemained, Buffer.getBuffer, hs.offset, Nat.zero_add]
  · intro produced h
    obtain ⟨hsize, -, hwithin⟩ := hproduced produced h
    rwa [hsize]
  · intro produced h
    obtain ⟨hsize, hoffset, hwithin⟩ := hproduced produced h
    rw [hsize, ← hoffset]
    exact ⟨le_rfl, hwithin⟩
  · intro produced h
    obtain ⟨hsize, hoffset, hwithin⟩ := hproduced produced h
    rw [hsize, ← hoffset, Nat.add_sub_cancel' hwithin]
  · rw [hresult]
    rfl

/-- **The receive buffer is safe.** With a header of two bytes, whatever has been received, the buffer is
empty between two pieces, and whatever is received next, nothing outside the block is offered or moved. -/
theorem contained_of_reachable (hs : (system 2).Reachable s) :
    s.faulted = false ∧ s.recvBuffer.size = recvBufferSize ∧ s.recvBuffer.offset = 0 ∧
      ∀ data : List UInt8, 0 < data.length → data.length ≤ s.recvBuffer.getRemained →
        s.Contained 2 data := by
  have hinvariant : s.faulted = false ∧ s.Idle := by
    apply hs.invariant fun s ↦ s.faulted = false ∧ s.Idle
    · rintro start rfl
      exact ⟨rfl, idle_initial⟩
    · rintro state data after ⟨-, hidle⟩ hstep
      obtain ⟨⟨-, hpos, hremained⟩, hprocessed⟩ := Option.ite_none_right_eq_some.mp hstep
      rw [hidle.getRemained] at hremained
      obtain ⟨⟨recvBuffer, call⟩, hresult⟩ := hidle.postReceive_two hpos hremained
      have hdefined : after.faulted = false := by
        rw [← Option.some.inj hprocessed, hresult]
        cases call with
        | none => rfl
        | some found => rfl
      exact ⟨hdefined, idle_receive hidle hstep hdefined⟩
  obtain ⟨hdefined, hidle⟩ := hinvariant
  refine ⟨hdefined, hidle.size, hidle.offset, ?_⟩
  intro data hpos hremained
  rw [hidle.getRemained] at hremained
  exact contained_of_idle hidle hpos hremained

/-- The law applied to a piece of the largest length, all of it the largest size. -/
theorem contained_of_reachable_applies :
    initial.Contained 2 (List.replicate recvBufferSize 255) := by
  have hlength : (List.replicate recvBufferSize (255 : UInt8)).length = recvBufferSize :=
    List.length_replicate
  apply (contained_of_reachable ⟨[], .start rfl⟩).2.2.2
  · rw [hlength]
    decide
  · rw [hlength, idle_initial.getRemained]

end Receiver

end ServerCore.Server
