import Mathlib.Data.List.Basic
import ServerCore.MemoryPool.Heap
import ServerCore.UdpServer.Datagram

/-!
# The bytes of a packet

A `Packet` keeps its words and its body in a packed `data`, a chunk of `data_pool_`, and what is sent of
it is a prefix of that chunk. One constructor fills the `data` from a body, another from the bytes of a
datagram. `size` is a `short`. The first constructor and `write_io_data` cast it to `unsigned short`,
and the second constructor does not. The main theorem says for which sizes the two agree.

A `memcpy` that leaves the array or its source is undefined behaviour, and so is a send of bytes
outside the `data`. Both give `none`.
-/

namespace ServerCore.UdpServer

open MemoryPool

/-- `MAX_PACKET_SIZE`. -/
def maxPacketSize : ℕ := 65000

/-- A `short` in memory. -/
def wordBytes (value : BitVec 16) : List UInt8 :=
  [UInt8.ofNat value.toNat, UInt8.ofNat (value.toNat / 256)]

@[simp]
theorem length_wordBytes (value : BitVec 16) : (wordBytes value).length = 2 :=
  rfl

theorem word_wordBytes (value : BitVec 16) : word (wordBytes value) = value := by
  apply BitVec.eq_of_toNat_eq
  have hlt := value.isLt
  simp only [wordBytes, word, UInt8.toNat_ofNat', BitVec.toNat_ofNat]
  omega

theorem wordBytes_word {bytes : List UInt8} (h : bytes.length = 2) :
    wordBytes (word bytes) = bytes := by
  obtain ⟨low, high, rfl⟩ := List.length_eq_two.mp h
  have hlow := low.toNat_lt
  have hhigh := high.toNat_lt
  have hvalue : (word [low, high]).toNat = low.toNat + 256 * high.toNat := by
    rw [word, BitVec.toNat_ofNat]
    omega
  have hfirst : UInt8.ofNat (low.toNat + 256 * high.toNat) = low := by
    apply UInt8.toNat_inj.mp
    rw [UInt8.toNat_ofNat']
    omega
  have hsecond : UInt8.ofNat ((low.toNat + 256 * high.toNat) / 256) = high := by
    apply UInt8.toNat_inj.mp
    rw [UInt8.toNat_ofNat']
    omega
  rw [wordBytes, hvalue, hfirst, hsecond]

namespace Packet

/-- The bytes of a packet on the wire. -/
def image (packet : Packet) : List UInt8 :=
  wordBytes packet.size ++ wordBytes packet.packetType ++ packet.body

/-- `data`, with the whole array `body`. -/
structure Data where
  size : BitVec 16
  packetType : BitVec 16
  body : List UInt8
  length_body : body.length = maxPacketSize

namespace Data

variable (p : Platform)

/-- `memcpy(body, source, len)`. -/
def memcpy (d : Data) (source : List UInt8) (len : ℕ) : Option Data :=
  if h : len ≤ maxPacketSize ∧ len ≤ source.length then
    some { d with
      body := source.take len ++ d.body.drop len
      length_body := by
        rw [List.length_append, List.length_take, List.length_drop, d.length_body]
        omega }
  else none

/-- `Packet(short size, short packet_type, const char* data)`. What the chunk held stays where nothing
is written. -/
def ofBody (chunk : Data) (size packetType : BitVec 16) (data : List UInt8) : Option Data :=
  if maxPacketSize < size.toNat then some chunk
  else memcpy { chunk with size := size, packetType := packetType } data size.toNat

/-- `Packet(const char* data)`. The comparison is one of signed numbers, and the length becomes a
`std::size_t`. -/
def ofBytes (chunk : Data) (data : List UInt8) : Option Data :=
  if data.length < 4 then none
  else
    let d := { chunk with
      size := word (data.take 2)
      packetType := word ((data.drop 2).take 2) }
    if (maxPacketSize : ℤ) < d.size.toInt then some d
    else d.memcpy (data.drop 4) (d.size.signExtend (8 * p.ptrSize)).toNat

/-- The `data` in memory. -/
def bytes (d : Data) : List UInt8 :=
  wordBytes d.size ++ wordBytes d.packetType ++ d.body

/-- The `wsa_buf` of a `write_io_data`: its `len` bytes at `buf`. -/
def wsaBuf (d : Data) : Option (List UInt8) :=
  if d.size.toNat + 4 ≤ d.bytes.length then some (d.bytes.take (d.size.toNat + 4)) else none

/-- What the functions of `Packet` show of it: the bytes of `Data()` are the first `Size()` ones. -/
def packet (d : Data) : Packet where
  size := d.size
  packetType := d.packetType
  body := d.body.take d.size.toNat

end Data

/-- What a sender may ask for. -/
structure Message extends Packet where
  fits : size.toNat ≤ maxPacketSize
  length_body : body.length = size.toNat

/-- The bytes of a datagram that announces its own length. -/
structure WireImage where
  bytes : List UInt8
  length_bytes : bytes.length = 4 + (word (bytes.take 2)).toNat
  fits : (word (bytes.take 2)).toNat ≤ maxPacketSize

/-- The size that the datagram announces. -/
def WireImage.size (w : WireImage) : BitVec 16 :=
  word (w.bytes.take 2)

/-- Whatever the chunks held, the message is sent as `4 + size` bytes, and the packet made from these is
the message, with exactly `size` bytes of the body written. -/
def Message.RoundTrips (p : Platform) (m : Message) : Prop :=
  ∀ chunk chunk' : Data, ∃ sent wire received,
    Data.ofBody chunk m.size m.packetType m.body = some sent ∧
      sent.wsaBuf = some wire ∧ wire.length = 4 + m.size.toNat ∧
      Data.ofBytes p chunk' wire = some received ∧ received.packet = m.toPacket ∧
      received.body = m.body ++ chunk'.body.drop m.size.toNat

/-- Whatever the chunk held, the packet made from the datagram is sent as the same bytes. -/
def WireImage.Resent (p : Platform) (w : WireImage) : Prop :=
  ∀ chunk : Data, ∃ received,
    Data.ofBytes p chunk w.bytes = some received ∧ received.wsaBuf = some w.bytes

variable {p : Platform}

/-! ## The two conversions of a size -/

theorem two_pow_le_sizeT (p : Platform) : 2 ^ 32 ≤ 2 ^ (8 * p.ptrSize) := by
  apply Nat.pow_le_pow_right (by decide)
  have hge := p.ptrSize_ge
  omega

/-- A `short` that is not negative keeps its value as a `std::size_t`. -/
theorem toNat_sizeT {size : BitVec 16} (hsmall : size.toNat < 2 ^ 15) :
    (size.signExtend (8 * p.ptrSize)).toNat = size.toNat := by
  have hwidth := two_pow_le_sizeT p
  rw [BitVec.toNat_signExtend, BitVec.toNat_setWidth, BitVec.msb_eq_decide,
    decide_eq_false (by omega), Nat.mod_eq_of_lt (by omega)]
  rfl

/-- One that is negative becomes larger than the array. -/
theorem maxPacketSize_lt_sizeT {size : BitVec 16} (hlarge : 2 ^ 15 ≤ size.toNat) :
    maxPacketSize < (size.signExtend (8 * p.ptrSize)).toNat := by
  have hlt := size.isLt
  have hwidth := two_pow_le_sizeT p
  rw [BitVec.toNat_signExtend, BitVec.toNat_setWidth, BitVec.msb_eq_decide,
    decide_eq_true (by omega), Nat.mod_eq_of_lt (by omega), if_pos rfl]
  unfold maxPacketSize
  omega

/-- The limit test of the decoder never succeeds. -/
theorem toInt_le_maxPacketSize (size : BitVec 16) : ¬ (maxPacketSize : ℤ) < size.toInt := by
  have hlt : size.toInt < 2 ^ 15 := BitVec.toInt_lt
  unfold maxPacketSize
  omega

/-! ## The constructors -/

namespace Data

variable {chunk d : Data} {size packetType : BitVec 16} {data : List UInt8} {len : ℕ}

theorem memcpy_eq_some_iff {after : Data} : d.memcpy data len = some after ↔
    len ≤ maxPacketSize ∧ len ≤ data.length ∧ after.size = d.size ∧
      after.packetType = d.packetType ∧ after.body = data.take len ++ d.body.drop len := by
  unfold memcpy
  split
  case isTrue hfits =>
    rw [Option.some.injEq]
    constructor
    · rintro rfl
      exact ⟨hfits.1, hfits.2, rfl, rfl, rfl⟩
    · rintro ⟨-, -, hsize, htype, hbody⟩
      obtain ⟨_, _, _, _⟩ := after
      simp only at hsize htype hbody
      simp only [hsize, htype, hbody]
  case isFalse hleaves =>
    constructor
    · intro hnone
      cases hnone
    · rintro ⟨hmax, hlength, -⟩
      exact absurd ⟨hmax, hlength⟩ hleaves

/-- What the `data` is sent as. -/
theorem wsaBuf_eq (hfits : d.packet.size.toNat ≤ maxPacketSize) :
    d.wsaBuf = some d.packet.image := by
  have hfits : d.size.toNat ≤ maxPacketSize := hfits
  have hwords : (wordBytes d.size ++ wordBytes d.packetType).length = 4 := rfl
  have hlength : d.bytes.length = 4 + maxPacketSize := by
    rw [bytes, List.length_append, hwords, d.length_body]
  rw [wsaBuf, if_pos (by omega), bytes, List.take_append, List.take_of_length_le (by omega), hwords,
    Nat.add_sub_cancel]
  rfl

theorem packet_of_copied (hsize : d.size = size) (hdata : size.toNat ≤ data.length)
    (hbody : d.body = data.take size.toNat ++ chunk.body.drop size.toNat) :
    d.packet = ⟨size, d.packetType, data.take size.toNat⟩ := by
  rw [packet, hsize, hbody, List.take_left' (List.length_take_of_le hdata)]

theorem ofBody_spec (chunk : Data) (packetType : BitVec 16) (hfits : size.toNat ≤ maxPacketSize)
    (hdata : size.toNat ≤ data.length) : ∃ d, ofBody chunk size packetType data = some d ∧
      d.packet = ⟨size, packetType, data.take size.toNat⟩ ∧
      d.body = data.take size.toNat ++ chunk.body.drop size.toNat := by
  have hlength : (data.take size.toNat ++ chunk.body.drop size.toNat).length = maxPacketSize := by
    rw [List.length_append, List.length_take_of_le hdata, List.length_drop, chunk.length_body]
    omega
  refine ⟨⟨size, packetType, _, hlength⟩, ?_, packet_of_copied rfl hdata rfl, rfl⟩
  rw [ofBody, if_neg (by omega)]
  exact memcpy_eq_some_iff.mpr ⟨hfits, hdata, rfl, rfl, rfl⟩

theorem ofBytes_eq (chunk : Data) (hlong : 4 ≤ data.length) : ofBytes p chunk data =
    memcpy { chunk with size := word (data.take 2), packetType := word ((data.drop 2).take 2) }
      (data.drop 4) ((word (data.take 2)).signExtend (8 * p.ptrSize)).toNat := by
  rw [ofBytes, if_neg (by omega)]
  exact if_neg (toInt_le_maxPacketSize _)

/-- The bytes may be followed by others, as in a receive buffer. -/
theorem ofBytes_spec (p : Platform) (chunk : Data) (hsize : word (data.take 2) = size)
    (hlong : 4 + size.toNat ≤ data.length) (hsmall : size.toNat < 2 ^ 15) :
    ∃ d, ofBytes p chunk data = some d ∧
      d.packet = ⟨size, word ((data.drop 2).take 2), (data.drop 4).take size.toNat⟩ ∧
      d.body = (data.drop 4).take size.toNat ++ chunk.body.drop size.toNat := by
  have hfits : size.toNat ≤ maxPacketSize := by
    unfold maxPacketSize
    omega
  have hdata : size.toNat ≤ (data.drop 4).length := by
    rw [List.length_drop]
    omega
  have hlength : ((data.drop 4).take size.toNat ++ chunk.body.drop size.toNat).length =
      maxPacketSize := by
    rw [List.length_append, List.length_take_of_le hdata, List.length_drop, chunk.length_body]
    omega
  refine ⟨⟨size, word ((data.drop 2).take 2), _, hlength⟩, ?_, packet_of_copied rfl hdata rfl, rfl⟩
  rw [ofBytes_eq chunk (by omega), hsize, toNat_sizeT hsmall]
  exact memcpy_eq_some_iff.mpr ⟨hfits, hdata, rfl, rfl, rfl⟩

/-- The `memcpy` of a negative size is out of bounds. -/
theorem ofBytes_eq_none (p : Platform) (chunk : Data)
    (hlarge : 2 ^ 15 ≤ (word (data.take 2)).toNat) : ofBytes p chunk data = none := by
  by_cases hshort : data.length < 4
  · rw [ofBytes, if_pos hshort]
  · have hleaves := maxPacketSize_lt_sizeT (p := p) hlarge
    rw [ofBytes_eq chunk (by omega), memcpy, dif_neg (by omega)]

end Data

/-! ## The round trips -/

section Image

variable (packet : Packet)

theorem length_image : packet.image.length = 4 + packet.body.length := by
  rw [image, List.length_append]
  rfl

theorem size_image : word (packet.image.take 2) = packet.size := by
  have htake : packet.image.take 2 = wordBytes packet.size := by
    rw [image, List.append_assoc]
    exact List.take_left' rfl
  rw [htake, word_wordBytes]

theorem packetType_image : word ((packet.image.drop 2).take 2) = packet.packetType := by
  have hdrop : packet.image.drop 2 = wordBytes packet.packetType ++ packet.body := by
    rw [image, List.append_assoc]
    exact List.drop_left' rfl
  rw [hdrop, List.take_left' (length_wordBytes _), word_wordBytes]

theorem body_image : packet.image.drop 4 = packet.body :=
  List.drop_left' rfl

/-- Bytes are the image of the packet that is read from them. -/
theorem image_ofDatagram {datagram : List UInt8} (hlong : 4 ≤ datagram.length) :
    (Packet.ofDatagram datagram).image = datagram := by
  have hsize : wordBytes (word (datagram.take 2)) = datagram.take 2 :=
    wordBytes_word (by rw [List.length_take]; omega)
  have htype : wordBytes (word ((datagram.drop 2).take 2)) = (datagram.drop 2).take 2 :=
    wordBytes_word (by rw [List.length_take, List.length_drop]; omega)
  calc
    (Packet.ofDatagram datagram).image =
        datagram.take 2 ++ ((datagram.drop 2).take 2 ++ (datagram.drop 2).drop 2) := by
      rw [image, Packet.ofDatagram, hsize, htype, List.append_assoc, List.drop_drop]
    _ = datagram := by
      rw [List.take_append_drop, List.take_append_drop]

end Image

/-- A message is sent as its image. -/
theorem Message.wsaBuf_ofBody (m : Message) (chunk : Data) : ∃ sent,
    Data.ofBody chunk m.size m.packetType m.body = some sent ∧ sent.wsaBuf = some m.image := by
  obtain ⟨sent, hsent, hpacket, -⟩ :=
    Data.ofBody_spec chunk m.packetType m.fits m.length_body.ge
  rw [List.take_of_length_le m.length_body.le] at hpacket
  refine ⟨sent, hsent, ?_⟩
  rw [Data.wsaBuf_eq (by rw [hpacket]; exact m.fits), hpacket]

/-- A chunk of zeros. -/
def Data.zero : Data := ⟨0, 0, List.replicate maxPacketSize 0, List.length_replicate⟩

theorem Message.roundTrips_iff (m : Message) : m.RoundTrips p ↔ m.size.toNat < 2 ^ 15 := by
  constructor
  · intro htrip
    obtain ⟨sent, wire, received, hsent, hwire, -, hreceived, -⟩ := htrip .zero .zero
    obtain ⟨sent', hsent', hwire'⟩ := m.wsaBuf_ofBody .zero
    obtain rfl := Option.some.inj (hsent.symm.trans hsent')
    obtain rfl := Option.some.inj (hwire.symm.trans hwire')
    by_contra hlarge
    have hnone : Data.ofBytes p .zero m.image = none := by
      apply Data.ofBytes_eq_none
      rw [size_image]
      exact not_lt.mp hlarge
    rw [hnone] at hreceived
    cases hreceived
  · intro hsmall chunk chunk'
    obtain ⟨sent, hsent, hwire⟩ := m.wsaBuf_ofBody chunk
    have hlength : m.image.length = 4 + m.size.toNat := by
      rw [length_image, m.length_body]
    obtain ⟨received, hreceived, hpacket, hbody⟩ :=
      Data.ofBytes_spec p chunk' m.size_image hlength.ge hsmall
    rw [body_image, List.take_of_length_le m.length_body.le] at hpacket hbody
    rw [packetType_image] at hpacket
    exact ⟨sent, _, received, hsent, hwire, hlength, hreceived, hpacket, hbody⟩

theorem WireImage.resent_iff (w : WireImage) : w.Resent p ↔ w.size.toNat < 2 ^ 15 := by
  constructor
  · intro hresent
    obtain ⟨received, hreceived, -⟩ := hresent .zero
    by_contra hlarge
    rw [Data.ofBytes_eq_none p .zero (not_lt.mp hlarge)] at hreceived
    cases hreceived
  · intro hsmall chunk
    have hlength : w.bytes.length = 4 + w.size.toNat := w.length_bytes
    have hsize : word (w.bytes.take 2) = w.size := rfl
    obtain ⟨received, hreceived, hpacket, -⟩ :=
      Data.ofBytes_spec p chunk hsize hlength.ge hsmall
    have hrest : (w.bytes.drop 4).length ≤ w.size.toNat := by
      rw [List.length_drop]
      omega
    rw [List.take_of_length_le hrest] at hpacket
    refine ⟨received, hreceived, ?_⟩
    calc
      received.wsaBuf = some received.packet.image :=
        Data.wsaBuf_eq (by rw [hpacket]; exact w.fits)
      _ = some (Packet.ofDatagram w.bytes).image := by
        rw [hpacket]
        rfl
      _ = some w.bytes := by
        rw [image_ofDatagram (by omega)]

/-- Messages survive being sent and received, and datagrams being received and sent, exactly if their
size is below 32768. -/
theorem roundTrips_iff_and_resent_iff (p : Platform) :
    (∀ m : Message, m.RoundTrips p ↔ m.size.toNat < 2 ^ 15) ∧
      ∀ w : WireImage, w.Resent p ↔ w.size.toNat < 2 ^ 15 :=
  ⟨fun m ↦ m.roundTrips_iff, fun w ↦ w.resent_iff⟩

/-- A message of 32768 bytes is sent, but no packet can be made of what was sent. -/
theorem roundTrips_fails : ¬ Message.RoundTrips .x64
    ⟨⟨0x8000, 0, List.replicate 32768 0⟩, by decide, List.length_replicate⟩ := by
  rw [Message.roundTrips_iff]
  decide

/-! ## The packets of the sessions -/

/-- The reply to a SYN, made from the receive buffer. -/
theorem exists_ofBody_reply (chunk : Data) {datagram rest : List UInt8}
    (h : datagram.length = 6) : ∃ d,
      Data.ofBody chunk 2 (-2) ((datagram ++ rest).drop 4) = some d ∧
        d.packet = ⟨2, -2, (datagram.drop 4).take 2⟩ := by
  have hlength : (datagram.drop 4).length = 2 := by
    rw [List.length_drop, h]
  have hdrop : (datagram ++ rest).drop 4 = datagram.drop 4 ++ rest :=
    List.drop_append_of_le_length (by omega)
  have hroom : (2 : BitVec 16).toNat ≤ (datagram.drop 4 ++ rest).length := by
    rw [List.length_append, hlength]
    exact Nat.le_add_right 2 _
  obtain ⟨d, hd, hpacket, -⟩ := Data.ofBody_spec chunk (-2) (by decide) hroom
  rw [hdrop]
  refine ⟨d, hd, hpacket.trans ?_⟩
  congr 1
  exact List.take_append_of_le_length hlength.ge

/-- The packet that `phandler_` gets of a data datagram at the front of a receive buffer. -/
theorem exists_ofBytes_datagram (chunk : Data) {datagram rest : List UInt8}
    (hlow : 4 ≤ datagram.length) (hhigh : datagram.length ≤ socketBufSize)
    (hdata : Branch.ofDatagram datagram = .data) :
    ∃ d, Data.ofBytes p chunk (datagram ++ rest) = some d ∧
      d.packet = Packet.ofDatagram datagram := by
  have hsize : (Packet.ofDatagram datagram).size.toNat + 4 = datagram.length :=
    size_of_branch_data hlow hhigh hdata
  have hsmall : (Packet.ofDatagram datagram).size.toNat < 2 ^ 15 := by
    unfold socketBufSize at hhigh
    omega
  have hdrop (n : ℕ) (hn : n ≤ 4) : (datagram ++ rest).drop n = datagram.drop n ++ rest :=
    List.drop_append_of_le_length (by omega)
  have htake (n k : ℕ) (hn : n + k ≤ datagram.length) :
      (datagram.drop n ++ rest).take k = (datagram.drop n).take k := by
    apply List.take_append_of_le_length
    rw [List.length_drop]
    omega
  have hwords : word ((datagram ++ rest).take 2) = (Packet.ofDatagram datagram).size :=
    congrArg word (htake 0 2 (by omega))
  obtain ⟨d, hd, hpacket, -⟩ := Data.ofBytes_spec p chunk hwords (by
    rw [List.length_append]
    omega) hsmall
  have hbody : (datagram.drop 4).length ≤ (Packet.ofDatagram datagram).size.toNat := by
    rw [List.length_drop]
    omega
  refine ⟨d, hd, ?_⟩
  rw [hpacket, hdrop 2 (by omega), hdrop 4 le_rfl, htake 2 2 (by omega), htake 4 _ (by omega),
    List.take_of_length_le hbody]
  rfl

end Packet

end ServerCore.UdpServer
