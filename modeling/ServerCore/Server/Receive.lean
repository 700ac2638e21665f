import ServerCore.Foundation.Blocks
import ServerCore.Foundation.TransitionSystem
import ServerCore.Server.Buffer

/-!
# Receiving on a connection

A client sends frames, each a little-endian 16-bit size and that many bytes of body. The stream is
received in pieces, each into the space that `Client::Receive` offers, and `PostReceive` is called
after each piece. It reads the size through a `char *`, which is signed, and calls the packet handler,
which finds the packet at `recv_buffer_.Read()`.
-/

namespace ServerCore.Server

open Foundation

/-- `(UWORD) c` for a signed `char`. -/
def uword (c : UInt8) : ℕ :=
  (c.toBitVec.signExtend 16).toNat

theorem uword_eq (c : UInt8) : uword c = if c.toNat < 128 then c.toNat else 65280 + c.toNat := by
  have hlt := c.toNat_lt
  unfold uword
  rw [BitVec.toNat_signExtend, BitVec.toNat_setWidth, BitVec.msb_eq_decide, UInt8.toNat_toBitVec,
    Nat.mod_eq_of_lt (by omega)]
  by_cases h : c.toNat < 128
  · rw [if_pos h, if_neg (by simpa using h)]
    exact Nat.add_zero _
  · rw [if_neg h, if_pos (by simpa using h)]
    exact Nat.add_comm _ _

namespace Buffer

/-- `packet_size` of `PostReceive`. -/
def packetSize (b : Buffer) : ℕ :=
  uword (b.read 0)

/-- `Client::PostReceive`: the receive buffer afterwards, and what the handler found at `Read()` if
it was called. -/
def postReceive (packetHeaderSize : ℕ) (b : Buffer) (receivedBytes : ℕ) :
    Option (Buffer × Option ByteMemory) :=
  let packetSize := b.packetSize
  if sub32 packetSize b.offset ≤ receivedBytes then
    (b.produce (packetHeaderSize + packetSize)).bind fun produced ↦
      (produced.consume (packetHeaderSize + packetSize)).map fun consumed ↦
        (consumed, some produced.read)
  else some (b, none)

/-! ## An empty buffer -/

variable {b : Buffer} {packetHeaderSize received : ℕ}

theorem packetSize_lt (b : Buffer) : b.packetSize < 2 ^ 16 :=
  BitVec.isLt _

/-- What a piece that is written into an empty buffer leaves at the start of it. -/
theorem read_fill (hoffset : b.offset = 0) (hhead : b.head = 0) (data : List UInt8) :
    (b.fill data).read = b.memory.write 0 data := by
  funext i
  unfold read fill getBuffer
  rw [hoffset, hhead, Nat.zero_add]

theorem packetSize_fill (hoffset : b.offset = 0) (hhead : b.head = 0) {data : List UInt8}
    (hpos : 0 < data.length) : (b.fill data).packetSize = uword (data.headD 0) := by
  unfold packetSize
  rw [read_fill hoffset hhead]
  congr 1
  cases data with
  | nil => simp at hpos
  | cons first rest => rfl

/-- If nothing is in use, the bytes received are compared with the size alone. -/
theorem sub32_packetSize (hoffset : b.offset = 0) : sub32 b.packetSize b.offset = b.packetSize := by
  have hword := b.packetSize_lt
  rw [hoffset, sub32_of_le (Nat.zero_le _) (by omega), Nat.sub_zero]

theorem postReceive_of_lt (hoffset : b.offset = 0) (hlt : received < b.packetSize) :
    b.postReceive packetHeaderSize received = some (b, none) := by
  unfold postReceive
  dsimp only
  rw [sub32_packetSize hoffset, if_neg (Nat.not_le.mpr hlt)]

theorem produce_of_empty (hoffset : b.offset = 0) (hunlocked : b.locked = false) {n : ℕ}
    (hn : n < 2 ^ 32) : b.produce n = some ⟨b.memory, b.size, n, b.head, true⟩ := by
  rw [produce_eq_some, hoffset, Nat.zero_add, Nat.mod_eq_of_lt hn]
  exact ⟨hunlocked, rfl⟩

/-- What is taken for a packet is consumed again, if the block has room for its length. -/
theorem postReceive_of_fits (hoffset : b.offset = 0) (hunlocked : b.locked = false)
    (hsize : b.size < 2 ^ 32) (hle : b.packetSize ≤ received)
    (hfits : packetHeaderSize + b.packetSize ≤ b.size) : ∃ memory,
      b.postReceive packetHeaderSize received =
        some (⟨memory, b.size, 0, 0, false⟩, some b.read) := by
  obtain ⟨n, hn⟩ : ∃ n, n = packetHeaderSize + b.packetSize := ⟨_, rfl⟩
  rw [← hn] at hfits
  have hproduced := produce_of_empty hoffset hunlocked (show n < 2 ^ 32 by omega)
  have hconsumed := consume_offset (b := ⟨b.memory, b.size, n, b.head, true⟩)
    (show n ≤ b.size from hfits) (show b.size < 2 ^ 32 from hsize)
  refine ⟨b.memory.move 0 n (b.size - n), ?_⟩
  unfold postReceive
  dsimp only
  rw [sub32_packetSize hoffset, if_pos hle, ← hn, hproduced, Option.bind_some, hconsumed,
    Option.map_some]
  rfl

/-- A length beyond the block makes the `memmove` of `Consume` leave it. -/
theorem postReceive_of_long (hoffset : b.offset = 0) (hunlocked : b.locked = false)
    (hle : b.packetSize ≤ received) (hlength : packetHeaderSize + b.packetSize < 2 ^ 32)
    (hlong : b.size < packetHeaderSize + b.packetSize) :
    b.postReceive packetHeaderSize received = none := by
  obtain ⟨n, hn⟩ : ∃ n, n = packetHeaderSize + b.packetSize := ⟨_, rfl⟩
  rw [← hn] at hlength hlong
  have hproduced := produce_of_empty hoffset hunlocked hlength
  have hconsumed : (⟨b.memory, b.size, n, b.head, true⟩ : Buffer).consume n = none := by
    unfold consume shift
    rw [if_neg (by dsimp only; omega), Option.map_none]
  unfold postReceive
  dsimp only
  rw [sub32_packetSize hoffset, if_pos hle, ← hn, hproduced, Option.bind_some, hconsumed,
    Option.map_none]

end Buffer

/-- `RECV_BUFFER_SIZE` and `DEFAULT_PACKET_HEADER_SIZE`. -/
def recvBufferSize : ℕ := 512

def defaultPacketHeaderSize : ℕ := 2

/-- A frame that fits into the receive buffer. -/
structure Frame where
  body : List UInt8
  fits : defaultPacketHeaderSize + body.length ≤ recvBufferSize

/-- The frame as it is sent. -/
def Frame.bytes (f : Frame) : List UInt8 :=
  UInt8.ofNat (f.body.length % 256) :: UInt8.ofNat (f.body.length / 256) :: f.body

/-- The receiving side of a connection. `arrived` counts the bytes of the stream received so far, and
`calls` has what the packet handler found each time, first call first. -/
structure Connection where
  recvBuffer : Buffer
  arrived : ℕ
  calls : List ByteMemory

namespace Connection

def initial : Connection :=
  ⟨Buffer.init recvBufferSize, 0, []⟩

/-- The stream of frames. -/
def stream (frames : List Frame) : List UInt8 :=
  (frames.map Frame.bytes).flatten

/-- The next `length` bytes of the stream. -/
def piece (frames : List Frame) (s : Connection) (length : ℕ) : List UInt8 :=
  ((stream frames).drop s.arrived).take length

/-- A piece is received and `PostReceive` is called. -/
def receive (frames : List Frame) (s : Connection) (length : ℕ) : Option Connection :=
  if 0 < length ∧ length ≤ s.recvBuffer.getRemained ∧
      s.arrived + length ≤ (stream frames).length then
    ((s.recvBuffer.fill (s.piece frames length)).postReceive defaultPacketHeaderSize length).map
      fun result ↦ ⟨result.1, s.arrived + length, s.calls ++ result.2.toList⟩
  else none

/-- A connection on which the frames are sent, the actions being the lengths of the pieces. -/
def system (frames : List Frame) : System Connection ℕ :=
  System.ofStep (fun s ↦ s = initial) (receive frames)

end Connection

end ServerCore.Server
