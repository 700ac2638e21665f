import ServerCore.UdpServer.PacketCodec

/-!
# What of a packet's storage is sent

`Session::Send` hands a prefix of the `data` to `WSASendTo`, as long as `size` says. The chunk of
`data` comes from `data_pool_` with whatever an earlier packet left in it. Two constructors fill in a
body, a third one only the words, and `SetSize` and `SetType` change the words afterwards. A copied
`Packet` shares the `data`, so changes made through a copy are changes of the same chunk.

Two theorems: the prefix lies inside the `data` exactly if the size that ends up there is at most
`MAX_PACKET_SIZE`, and its bytes depend on the caller alone exactly if both words are the caller's and
the body that was copied reaches as far as the size.
-/

namespace ServerCore.UdpServer.Packet

open MemoryPool

/-- A call of one of the constructors that take a chunk. -/
inductive Construction
  | ofBody (size packetType : BitVec 16) (data : List UInt8)
  | ofSize (size packetType : BitVec 16)
  | ofBytes (data : List UInt8)

/-- `SetSize` and `SetType`. -/
inductive Change
  | setSize (size : BitVec 16)
  | setType (packetType : BitVec 16)

namespace Data

/-- `sizeof(Packet::data)`. -/
def sizeOf : ℕ := 4 + maxPacketSize

/-- `Packet(short size, short packet_type)`. The comparison is one of signed numbers. -/
def ofSize (chunk : Data) (size packetType : BitVec 16) : Data :=
  if (maxPacketSize : ℤ) < size.toInt then chunk
  else { chunk with size := size, packetType := packetType }

def change (d : Data) : Change → Data
  | .setSize size => { d with size := size }
  | .setType packetType => { d with packetType := packetType }

/-- The `data` after these calls of `SetSize` and `SetType`. -/
def changed (d : Data) (changes : List Change) : Data :=
  changes.foldl change d

/-- The `wsa_buf.len` of a `write_io_data`. -/
def wsaLen (d : Data) : ℕ := d.size.toNat + 4

end Data

/-- What the constructor makes of a chunk. -/
def Construction.build (p : Platform) (chunk : Data) : Construction → Option Data
  | .ofBody size packetType data => chunk.ofBody size packetType data
  | .ofSize size packetType => some (chunk.ofSize size packetType)
  | .ofBytes data => chunk.ofBytes p data

/-- The words the constructor stores, if it stores any. -/
def Construction.words : Construction → Option (BitVec 16 × BitVec 16)
  | .ofBody size packetType _ =>
    if size.toNat ≤ maxPacketSize then some (size, packetType) else none
  | .ofSize size packetType => some (size, packetType)
  | .ofBytes data => some (word (data.take 2), word ((data.drop 2).take 2))

/-- The bytes the constructor copies to the front of the body. -/
def Construction.copied : Construction → List UInt8
  | .ofBody size _ data => if size.toNat ≤ maxPacketSize then data.take size.toNat else []
  | .ofSize _ _ => []
  | .ofBytes data => (data.drop 4).take (word (data.take 2)).toNat

/-- The value of the last `SetSize`. -/
def lastSize : List Change → Option (BitVec 16)
  | [] => none
  | .setSize size :: rest => lastSize rest <|> some size
  | .setType _ :: rest => lastSize rest

/-- The value of the last `SetType`. -/
def lastType : List Change → Option (BitVec 16)
  | [] => none
  | .setSize _ :: rest => lastType rest
  | .setType packetType :: rest => lastType rest <|> some packetType

/-- The size the caller has given the packet last. -/
def Construction.givenSize (c : Construction) (changes : List Change) : Option (BitVec 16) :=
  lastSize changes <|> c.words.map Prod.fst

/-- The type the caller has given the packet last. -/
def Construction.givenType (c : Construction) (changes : List Change) : Option (BitVec 16) :=
  lastType changes <|> c.words.map Prod.snd

/-- The size the packet ends up with, which for a rejected packet is the one its chunk had, is at most
`MAX_PACKET_SIZE`. -/
def Construction.SizeFits (c : Construction) (chunk : Data) (changes : List Change) : Prop :=
  ((c.givenSize changes).getD chunk.size).toNat ≤ maxPacketSize

/-- Both words are given by the caller, and so are all bytes of the body that the size covers. -/
def Construction.CoversSize (c : Construction) (changes : List Change) : Prop :=
  ∃ size packetType, c.givenSize changes = some size ∧ c.givenType changes = some packetType ∧
    size.toNat ≤ c.copied.length

/-- One sequence of bytes is sent, whatever the chunk held. -/
def Construction.SendsOwnBytes (p : Platform) (c : Construction) (changes : List Change) : Prop :=
  ∃ sent, ∀ chunk d, c.build p chunk = some d → (d.changed changes).wsaBuf = some sent

variable {p : Platform} {c : Construction} {chunk d : Data} {changes : List Change}

/-! ## The words and the body -/

namespace Data

theorem size_changed (d : Data) (changes : List Change) :
    (d.changed changes).size = (lastSize changes).getD d.size := by
  induction changes generalizing d with
  | nil => rfl
  | cons first rest ih =>
    have hrest : (d.changed (first :: rest)).size = (lastSize rest).getD (d.change first).size :=
      ih (d.change first)
    rw [hrest]
    cases first with
    | setSize size => cases hlast : lastSize rest <;> simp [lastSize, hlast, change]
    | setType packetType => rfl

theorem packetType_changed (d : Data) (changes : List Change) :
    (d.changed changes).packetType = (lastType changes).getD d.packetType := by
  induction changes generalizing d with
  | nil => rfl
  | cons first rest ih =>
    have hrest : (d.changed (first :: rest)).packetType =
        (lastType rest).getD (d.change first).packetType := ih (d.change first)
    rw [hrest]
    cases first with
    | setSize size => rfl
    | setType packetType => cases hlast : lastType rest <;> simp [lastType, hlast, change]

theorem body_changed (d : Data) (changes : List Change) : (d.changed changes).body = d.body := by
  induction changes generalizing d with
  | nil => rfl
  | cons first rest ih =>
    calc
      (d.changed (first :: rest)).body = (d.change first).body := ih (d.change first)
      _ = d.body := by cases first <;> rfl

/-- Both words of a `short` constructor are stored: no `short` is above the limit. -/
theorem ofSize_eq (chunk : Data) (size packetType : BitVec 16) :
    chunk.ofSize size packetType = { chunk with size := size, packetType := packetType } :=
  if_neg (toInt_le_maxPacketSize size)

/-- The prefix that is sent is the image of the packet, if it lies inside the `data`. -/
theorem wsaBuf_eq_some_iff {sent : List UInt8} :
    d.wsaBuf = some sent ↔ d.size.toNat ≤ maxPacketSize ∧ sent = d.packet.image := by
  by_cases hfits : d.size.toNat ≤ maxPacketSize
  · rw [wsaBuf_eq hfits, Option.some.injEq, eq_comm]
    simp [hfits]
  · have hlength : d.bytes.length = 4 + maxPacketSize := by
      rw [bytes, List.length_append, d.length_body]
      rfl
    rw [wsaBuf, if_neg (by omega)]
    simp [hfits]

/-- A datagram that a packet can be made of is copied as far as its first word says. -/
theorem ofBytes_eq_some_iff {data : List UInt8} : chunk.ofBytes p data = some d ↔
    4 ≤ data.length ∧ (word (data.take 2)).toNat < 2 ^ 15 ∧
      memcpy { chunk with size := word (data.take 2), packetType := word ((data.drop 2).take 2) }
        (data.drop 4) (word (data.take 2)).toNat = some d := by
  constructor
  · intro hbuilt
    have hlong : 4 ≤ data.length := by
      by_contra hshort
      rw [ofBytes, if_pos (by omega)] at hbuilt
      cases hbuilt
    have hsmall : (word (data.take 2)).toNat < 2 ^ 15 := by
      by_contra hlarge
      rw [ofBytes_eq_none p chunk (by omega)] at hbuilt
      cases hbuilt
    rw [ofBytes_eq chunk hlong, toNat_sizeT hsmall] at hbuilt
    exact ⟨hlong, hsmall, hbuilt⟩
  · rintro ⟨hlong, hsmall, hcopied⟩
    rw [ofBytes_eq chunk hlong, toNat_sizeT hsmall]
    exact hcopied

end Data

namespace Construction

/-- What a constructor leaves in the chunk, if it is defined. -/
theorem build_spec (hbuilt : c.build p chunk = some d) :
    d.size = (c.words.map Prod.fst).getD chunk.size ∧
      d.packetType = (c.words.map Prod.snd).getD chunk.packetType ∧
      d.body = c.copied ++ chunk.body.drop c.copied.length ∧ c.copied.length ≤ maxPacketSize := by
  cases c with
  | ofBody size packetType data =>
    have hbuilt : chunk.ofBody size packetType data = some d := hbuilt
    unfold Data.ofBody at hbuilt
    by_cases hfits : size.toNat ≤ maxPacketSize
    · rw [if_neg (by omega)] at hbuilt
      obtain ⟨-, hdata, hsize, htype, hbody⟩ := Data.memcpy_eq_some_iff.mp hbuilt
      have hlength := List.length_take_of_le hdata
      simp only [words, copied, if_pos hfits, hlength]
      exact ⟨hsize, htype, hbody, hfits⟩
    · rw [if_pos (by omega), Option.some.injEq] at hbuilt
      simp [words, copied, if_neg hfits, hbuilt]
  | ofSize size packetType =>
    rw [build, Data.ofSize_eq, Option.some.injEq] at hbuilt
    simp [words, copied, ← hbuilt]
  | ofBytes data =>
    obtain ⟨-, -, hcopied⟩ := Data.ofBytes_eq_some_iff.mp hbuilt
    obtain ⟨hfits, hdata, hsize, htype, hbody⟩ := Data.memcpy_eq_some_iff.mp hcopied
    have hlength := List.length_take_of_le hdata
    simp only [words, copied, hlength]
    exact ⟨hsize, htype, hbody, hfits⟩

/-- Whether a constructor is defined does not depend on the chunk. -/
theorem exists_build (hbuilt : c.build p chunk = some d) (other : Data) :
    ∃ d', c.build p other = some d' := by
  have hcopy {source target after : Data} {data : List UInt8} {len : ℕ}
      (hcopied : source.memcpy data len = some after) : ∃ after', target.memcpy data len = some after' := by
    obtain ⟨hmax, hdata, -⟩ := Data.memcpy_eq_some_iff.mp hcopied
    exact ⟨_, dif_pos ⟨hmax, hdata⟩⟩
  cases c with
  | ofBody size packetType data =>
    change ∃ d', other.ofBody size packetType data = some d'
    have hbuilt : chunk.ofBody size packetType data = some d := hbuilt
    unfold Data.ofBody at hbuilt ⊢
    split at hbuilt
    case isTrue hlarge => exact ⟨other, if_pos hlarge⟩
    case isFalse hfits =>
      rw [if_neg hfits]
      exact hcopy hbuilt
  | ofSize size packetType => exact ⟨_, rfl⟩
  | ofBytes data =>
    obtain ⟨hlong, hsmall, hcopied⟩ := Data.ofBytes_eq_some_iff.mp hbuilt
    obtain ⟨d', hd'⟩ := hcopy hcopied
    exact ⟨d', Data.ofBytes_eq_some_iff.mpr ⟨hlong, hsmall, hd'⟩⟩

theorem size_built (hbuilt : c.build p chunk = some d) (changes : List Change) :
    (d.changed changes).size = (c.givenSize changes).getD chunk.size := by
  rw [d.size_changed, (build_spec hbuilt).1, givenSize]
  cases lastSize changes <;> rfl

theorem packetType_built (hbuilt : c.build p chunk = some d) (changes : List Change) :
    (d.changed changes).packetType = (c.givenType changes).getD chunk.packetType := by
  rw [d.packetType_changed, (build_spec hbuilt).2.1, givenType]
  cases lastType changes <;> rfl

/-! ## The length -/

/-- **In bounds.** The length that `write_io_data` announces for a packet is within its `data` exactly
if the size it ends up with is at most `MAX_PACKET_SIZE`. -/
theorem wsaLen_le_iff_sizeFits (hbuilt : c.build p chunk = some d) (changes : List Change) :
    (d.changed changes).wsaLen ≤ Data.sizeOf ↔ c.SizeFits chunk changes := by
  unfold Data.wsaLen Data.sizeOf SizeFits
  rw [size_built hbuilt changes]
  omega

/-- A packet of size -1 is announced as 65539 bytes of a `data` that has 65004. -/
theorem wsaLen_le_fails :
    ¬ ∀ (p : Platform) (c : Construction) (chunk d : Data) (changes : List Change),
      c.build p chunk = some d → (d.changed changes).wsaLen ≤ Data.sizeOf := by
  intro hclaim
  have hlen := hclaim .x64 (.ofSize (-1) 0) .zero _ [] rfl
  rw [Data.ofSize_eq] at hlen
  exact absurd hlen (by decide)

/-- The characterisation applied to a packet that is shortened after it was made. -/
theorem wsaLen_le_iff_sizeFits_applies :
    ((Data.zero.ofSize 5 7).changed [.setSize 3]).wsaLen ≤ Data.sizeOf ↔
      (Construction.ofSize 5 7).SizeFits .zero [.setSize 3] :=
  wsaLen_le_iff_sizeFits (p := .x64) rfl _

/-! ## The bytes -/

/-- What is sent of a packet whose size is covered by the copied body. -/
theorem image_of_covered (hbuilt : c.build p chunk = some d) {size packetType : BitVec 16}
    (hsize : c.givenSize changes = some size) (htype : c.givenType changes = some packetType)
    (hcovered : size.toNat ≤ c.copied.length) :
    (d.changed changes).wsaBuf = some (Packet.image ⟨size, packetType, c.copied.take size.toNat⟩) := by
  obtain ⟨-, -, hbody, hmax⟩ := build_spec hbuilt
  have hsize' : (d.changed changes).size = size := by
    rw [size_built hbuilt, hsize, Option.getD_some]
  have htype' : (d.changed changes).packetType = packetType := by
    rw [packetType_built hbuilt, htype, Option.getD_some]
  apply Data.wsaBuf_eq_some_iff.mpr
  constructor
  · rw [hsize']
    exact hcovered.trans hmax
  · rw [Data.packet, hsize', htype', Data.body_changed, hbody, List.take_append_of_le_length hcovered]

/-- A chunk that holds the same value everywhere. -/
def filled (value : BitVec 16) : Data :=
  ⟨value, value, List.replicate maxPacketSize (UInt8.ofNat value.toNat), List.length_replicate⟩

/-- What is sent decides both words and what is sent of the body. -/
theorem image_injective {first second : Packet} (himage : first.image = second.image) :
    first.size = second.size ∧ first.packetType = second.packetType ∧ first.body = second.body := by
  refine ⟨?_, ?_, ?_⟩
  · rw [← first.size_image, himage, second.size_image]
  · rw [← first.packetType_image, himage, second.packetType_image]
  · rw [← first.body_image, himage, second.body_image]

/-- Chunks that differ everywhere are told apart by what is sent, unless the caller has given all of it. -/
theorem coversSize_of_sendsOwnBytes (hbuilt : c.build p chunk = some d)
    (hown : c.SendsOwnBytes p changes) : c.CoversSize changes := by
  obtain ⟨sent, hsent⟩ := hown
  obtain ⟨zeros, hzeros⟩ := exists_build hbuilt (filled 0)
  obtain ⟨ones, hones⟩ := exists_build hbuilt (filled 1)
  obtain ⟨hfits, rfl⟩ := Data.wsaBuf_eq_some_iff.mp (hsent _ _ hzeros)
  obtain ⟨-, himage⟩ := Data.wsaBuf_eq_some_iff.mp (hsent _ _ hones)
  obtain ⟨hsizes, htypes, hbodies⟩ := image_injective himage
  simp only [Data.packet, size_built hzeros, size_built hones, packetType_built hzeros,
    packetType_built hones, Data.body_changed, (build_spec hzeros).2.2.1,
    (build_spec hones).2.2.1] at hfits hsizes htypes hbodies
  cases hsize : c.givenSize changes with
  | none =>
    rw [hsize] at hsizes
    exact absurd hsizes (by simp [filled])
  | some size =>
    cases htype : c.givenType changes with
    | none =>
      rw [htype] at htypes
      exact absurd htypes (by simp [filled])
    | some packetType =>
      refine ⟨size, packetType, hsize, htype, ?_⟩
      rw [hsize, Option.getD_some] at hfits
      by_contra hlonger
      -- the first byte behind the copied ones is sent, and it is the chunk's
      have hmax := (build_spec hbuilt).2.2.2
      simp only [hsize, Option.getD_some, List.take_append, List.append_cancel_left_eq] at hbodies
      simp only [filled, List.drop_replicate, List.take_replicate, List.replicate_inj] at hbodies
      rcases hbodies.2 with hnone | hbyte
      · omega
      · exact absurd hbyte (by decide)

end Construction

end ServerCore.UdpServer.Packet
