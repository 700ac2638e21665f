import ServerCore.UdpServer.PacketCodec
import ServerCore.UdpServer.SessionTable

/-!
# The datagram grammar

The forms of a datagram in terms of its length and of its first two words, which are signed numbers. They
are compared with the branches of `iocp_task`, which sees the size as an unsigned number of 32 bits. A data
datagram announces its own length, so the packet that is made of it takes the whole rest of the datagram
and no byte more.

The state of the maps and of the counters is arbitrary here, reachable or not.
-/

namespace ServerCore.UdpServer

open Foundation MemoryPool

namespace Grammar

variable (datagram : List UInt8)

/-- The signed number in the first word. -/
def size : ℤ :=
  (Packet.ofDatagram datagram).size.toInt

/-- The signed number in the second word. -/
def packetType : ℤ :=
  (Packet.ofDatagram datagram).packetType.toInt

def Syn : Prop :=
  datagram.length = 6 ∧ size datagram = 2 ∧ packetType datagram = -1

def Ack : Prop :=
  datagram.length = 6 ∧ size datagram = 2 ∧ packetType datagram = -3

def Heartbeat : Prop :=
  datagram.length = 4 ∧ size datagram = 0 ∧ packetType datagram = -1

/-- Neither of the other forms, though these announce their own lengths, too. -/
def Data : Prop :=
  4 ≤ datagram.length ∧ 0 ≤ size datagram ∧ size datagram = datagram.length - 4 ∧
    ¬ Syn datagram ∧ ¬ Ack datagram ∧ ¬ Heartbeat datagram

variable {datagram}

/-! ## The forms and the branches -/

theorem size_eq_iff (value : BitVec 16) :
    size datagram = value.toInt ↔ (Packet.ofDatagram datagram).size = value :=
  BitVec.toInt_inj

theorem packetType_eq_iff (value : BitVec 16) :
    packetType datagram = value.toInt ↔ (Packet.ofDatagram datagram).packetType = value :=
  BitVec.toInt_inj

theorem syn_iff : Syn datagram ↔ datagram.length = 6 ∧
    (Packet.ofDatagram datagram).size = 2 ∧ (Packet.ofDatagram datagram).packetType = -1 :=
  and_congr_right' (and_congr (size_eq_iff 2) (packetType_eq_iff (-1)))

theorem ack_iff : Ack datagram ↔ datagram.length = 6 ∧
    (Packet.ofDatagram datagram).size = 2 ∧ (Packet.ofDatagram datagram).packetType = -3 :=
  and_congr_right' (and_congr (size_eq_iff 2) (packetType_eq_iff (-3)))

theorem heartbeat_iff : Heartbeat datagram ↔ datagram.length = 4 ∧
    (Packet.ofDatagram datagram).size = 0 ∧ (Packet.ofDatagram datagram).packetType = -1 :=
  and_congr_right' (and_congr (size_eq_iff 0) (packetType_eq_iff (-1)))

/-- The size of a datagram that fits into the buffer announces its length if it does so unsigned. -/
theorem announces_iff (hlow : 4 ≤ datagram.length) (hhigh : datagram.length ≤ socketBufSize) :
    ((Packet.ofDatagram datagram).size.signExtend 32 + 4).toNat = datagram.length ↔
      0 ≤ size datagram ∧ size datagram = datagram.length - 4 := by
  have hlt := (Packet.ofDatagram datagram).size.isLt
  rw [toNat_signExtend_add_four hlow hhigh, size, BitVec.toInt_eq_toNat_cond]
  unfold socketBufSize at hhigh
  split
  · omega
  · omega

theorem isA_syn_iff (hfits : datagram.length ≤ socketBufSize) :
    SessionTable.IsA .syn datagram ↔ Syn datagram := by
  have hform : Branch.ofDatagram datagram = .syn ↔ Syn datagram :=
    branch_eq_syn_iff.trans syn_iff.symm
  rw [SessionTable.IsA, hform]
  exact ⟨fun h ↦ h.2.2, fun h ↦ ⟨hfits, h.1 ▸ by decide, h⟩⟩

theorem isA_ack_iff (hfits : datagram.length ≤ socketBufSize) :
    SessionTable.IsA .ack datagram ↔ Ack datagram := by
  have hform : Branch.ofDatagram datagram = .ack ↔ Ack datagram :=
    branch_eq_ack_iff.trans ack_iff.symm
  rw [SessionTable.IsA, hform]
  exact ⟨fun h ↦ h.2.2, fun h ↦ ⟨hfits, h.1 ▸ by decide, h⟩⟩

theorem isA_heartbeat_iff (hfits : datagram.length ≤ socketBufSize) :
    SessionTable.IsA .heartbeat datagram ↔ Heartbeat datagram := by
  have hform : Branch.ofDatagram datagram = .heartbeat ↔ Heartbeat datagram :=
    branch_eq_heartbeat_iff.trans heartbeat_iff.symm
  rw [SessionTable.IsA, hform]
  exact ⟨fun h ↦ h.2.2, fun h ↦ ⟨hfits, h.1.ge, h⟩⟩

theorem isA_data_iff (hfits : datagram.length ≤ socketBufSize) :
    SessionTable.IsA .data datagram ↔ Data datagram := by
  rw [SessionTable.IsA, and_iff_right hfits]
  apply and_congr_right
  intro hlow
  calc
    Branch.ofDatagram datagram = .data ↔
        ((Packet.ofDatagram datagram).size.signExtend 32 + 4).toNat = datagram.length ∧
          ¬ Syn datagram ∧ ¬ Ack datagram ∧ ¬ Heartbeat datagram := by
      rw [Branch.ofDatagram, branch_eq_data_iff, syn_iff, ack_iff, heartbeat_iff]
    _ ↔ 0 ≤ size datagram ∧ size datagram = datagram.length - 4 ∧
          ¬ Syn datagram ∧ ¬ Ack datagram ∧ ¬ Heartbeat datagram := by
      rw [announces_iff hlow hfits, and_assoc]

end Grammar

namespace SessionTable

variable (s : SessionTable) (endpoint : Endpoint) (datagram : List UInt8)

/-- The step hands a packet to `phandler_`. -/
def Delivers (x : SessionId) (packet : Packet) : Prop :=
  (s.receive endpoint datagram).events = .packet x packet :: s.events

/-- The session of the endpoint takes data: its counter is above -2 when it has been incremented. -/
def Takes (x : SessionId) : Prop :=
  s.sessions.find endpoint = some x ∧ -2 < (s.isAlive x + 1).toInt

/-- The datagram has no form, or the entry is missing that its form needs. -/
def Ignores : Prop :=
  (¬ Grammar.Syn datagram ∧ ¬ Grammar.Ack datagram ∧ ¬ Grammar.Heartbeat datagram ∧
      ¬ Grammar.Data datagram) ∨
    (Grammar.Ack datagram ∧ s.pendingSessions.find endpoint = none) ∨
    ((Grammar.Heartbeat datagram ∨ Grammar.Data datagram) ∧ s.sessions.find endpoint = none)

variable {s endpoint datagram} {x : SessionId} {packet : Packet}

theorem not_delivers_of_events (hsame : (s.receive endpoint datagram).events = s.events) :
    ¬ s.Delivers endpoint datagram x packet := by
  intro hdelivers
  rw [Delivers, hsame] at hdelivers
  exact List.cons_ne_self _ _ hdelivers.symm

theorem delivers_data_iff (hdata : IsA .data datagram) :
    s.Delivers endpoint datagram x packet ↔
      s.Takes endpoint x ∧ packet = Packet.ofDatagram datagram := by
  unfold Delivers Takes
  rw [receive_of_isA hdata]
  change (s.data endpoint datagram).events = _ ↔ _
  unfold data
  cases hfind : s.sessions.find endpoint with
  | none =>
    simp [List.cons_ne_self _ _ |>.symm]
  | some y =>
    dsimp only
    split
    case isTrue halive =>
      simp only [List.cons.injEq, and_true, TableEvent.packet.injEq, Option.some.injEq]
      constructor
      · rintro ⟨rfl, rfl⟩
        exact ⟨⟨rfl, halive⟩, rfl⟩
      · rintro ⟨⟨rfl, -⟩, rfl⟩
        exact ⟨rfl, rfl⟩
    case isFalse halive =>
      constructor
      · intro h
        exact absurd h.symm (List.cons_ne_self _ _)
      · rintro ⟨⟨hy, hx⟩, -⟩
        obtain rfl := Option.some.inj hy
        exact absurd hx halive

/-- The other branches announce a reply or a session, or nothing. -/
theorem not_delivers_of_not_data (hdata : ¬ IsA .data datagram) :
    ¬ s.Delivers endpoint datagram x packet := by
  by_cases hkind : ∃ branch, IsA branch datagram
  · obtain ⟨branch, hbranch⟩ := hkind
    cases branch with
    | syn =>
      unfold Delivers
      rw [receive_of_isA hbranch]
      intro h
      cases (List.cons.inj h).1
    | ack =>
      unfold Delivers
      rw [receive_of_isA hbranch]
      change (s.ack endpoint).events ≠ _
      unfold ack
      split
      · exact (List.cons_ne_self _ _).symm
      · intro h
        cases (List.cons.inj h).1
    | heartbeat =>
      apply not_delivers_of_events
      rw [receive_of_isA hbranch]
      change (s.heartbeat endpoint).events = s.events
      unfold heartbeat
      split
      · rfl
      · rfl
    | data => exact absurd hbranch hdata
    | other =>
      apply not_delivers_of_events
      rw [receive_of_isA hbranch]
      rfl
  · apply not_delivers_of_events
    rw [receive_of_not_isA fun branch h ↦ hkind ⟨branch, h⟩]

/-- What is delivered is the datagram, to the session of its endpoint. -/
theorem delivers_iff (hfits : datagram.length ≤ socketBufSize) :
    s.Delivers endpoint datagram x packet ↔
      Grammar.Data datagram ∧ s.Takes endpoint x ∧ packet = Packet.ofDatagram datagram := by
  by_cases hdata : IsA .data datagram
  · rw [delivers_data_iff hdata, and_iff_right ((Grammar.isA_data_iff hfits).mp hdata)]
  · rw [← Grammar.isA_data_iff hfits]
    exact iff_of_false (not_delivers_of_not_data hdata) fun h ↦ hdata h.1

/-- A datagram that is ignored changes nothing. -/
theorem receive_of_ignores (hfits : datagram.length ≤ socketBufSize)
    (h : s.Ignores endpoint datagram) : s.receive endpoint datagram = s := by
  unfold Ignores at h
  rw [← Grammar.isA_syn_iff hfits, ← Grammar.isA_ack_iff hfits, ← Grammar.isA_heartbeat_iff hfits,
    ← Grammar.isA_data_iff hfits] at h
  rcases h with ⟨hsyn, hack, hheartbeat, hdata⟩ | ⟨hack, hnone⟩ | ⟨hheartbeat | hdata, hnone⟩
  · by_cases hother : IsA .other datagram
    · exact receive_of_isA hother
    · apply receive_of_not_isA
      intro branch
      cases branch with
      | syn => exact hsyn
      | ack => exact hack
      | heartbeat => exact hheartbeat
      | data => exact hdata
      | other => exact hother
  · rw [receive_of_isA hack]
    change s.ack endpoint = s
    unfold ack
    rw [hnone]
  · rw [receive_of_isA hheartbeat]
    change s.heartbeat endpoint = s
    unfold heartbeat
    rw [hnone]
  · rw [receive_of_isA hdata]
    change s.data endpoint datagram = s
    unfold data
    rw [hnone]

/-- `Packet(const char* data)` of a data datagram, which gets no byte beyond the datagram. -/
theorem exists_ofBytes_of_data (p : Platform) (chunk : Packet.Data)
    (hfits : datagram.length ≤ socketBufSize) (hdata : Grammar.Data datagram) :
    ∃ received, Packet.Data.ofBytes p chunk datagram = some received ∧
      received.packet = Packet.ofDatagram datagram ∧
      received.body = datagram.drop 4 ++ chunk.body.drop (datagram.length - 4) := by
  have hsize : (Packet.ofDatagram datagram).size.toNat + 4 = datagram.length :=
    size_of_branch_data hdata.1 hfits ((Grammar.isA_data_iff hfits).mpr hdata).2.2
  have hsmall : (Packet.ofDatagram datagram).size.toNat < 2 ^ 15 := by
    unfold socketBufSize at hfits
    omega
  have hwords : word (datagram.take 2) = (Packet.ofDatagram datagram).size := rfl
  obtain ⟨received, hreceived, hpacket, hbody⟩ :=
    Packet.Data.ofBytes_spec p chunk hwords (by omega) hsmall
  have hwhole : (datagram.drop 4).take (Packet.ofDatagram datagram).size.toNat =
      datagram.drop 4 := by
    apply List.take_of_length_le
    rw [List.length_drop]
    omega
  rw [hwhole] at hpacket hbody
  refine ⟨received, hreceived, hpacket, ?_⟩
  rw [hbody, ← hsize, Nat.add_sub_cancel]

/-- **The datagram grammar.** In every state, a packet is delivered if and only if the datagram has the
form of data and its endpoint has a session that takes data. The packet is then made of the received bytes
alone, and of all of them. A datagram without a form, or without the entry it needs, leaves the maps and
the counters as they were. -/
theorem delivers_iff_data_and_takes (p : Platform) (s : SessionTable) (endpoint : Endpoint)
    {datagram : List UInt8} (hfits : datagram.length ≤ socketBufSize) :
    ((∃ x packet, s.Delivers endpoint datagram x packet) ↔
        Grammar.Data datagram ∧ ∃ x, s.Takes endpoint x) ∧
      (∀ x packet, s.Delivers endpoint datagram x packet → s.Takes endpoint x ∧
        ∀ chunk : Packet.Data, ∃ received, Packet.Data.ofBytes p chunk datagram = some received ∧
          received.packet = packet ∧
          received.body = datagram.drop 4 ++ chunk.body.drop (datagram.length - 4)) ∧
      (s.Ignores endpoint datagram →
        (s.receive endpoint datagram).pendingSessions = s.pendingSessions ∧
          (s.receive endpoint datagram).sessions = s.sessions ∧
          (s.receive endpoint datagram).isAlive = s.isAlive) := by
  refine ⟨?_, ?_, ?_⟩
  · simp only [delivers_iff hfits]
    constructor
    · rintro ⟨x, packet, hdata, htakes, -⟩
      exact ⟨hdata, x, htakes⟩
    · rintro ⟨hdata, x, htakes⟩
      exact ⟨x, _, hdata, htakes, rfl⟩
  · intro x packet hdelivers
    obtain ⟨hdata, htakes, rfl⟩ := (delivers_iff hfits).mp hdelivers
    exact ⟨htakes, fun chunk ↦ exists_ofBytes_of_data p chunk hfits hdata⟩
  · intro hignores
    rw [receive_of_ignores hfits hignores]
    exact ⟨rfl, rfl, rfl⟩

/-- A datagram with one byte of data, from an endpoint with an entry. -/
theorem delivers_iff_data_and_takes_applies :
    ∃ x packet, Delivers
      { initial with sessions := OrderedMap.empty.insert ⟨1, 1⟩ (⟨⟨1, 1⟩, 0⟩ : SessionId) }
      ⟨1, 1⟩ [1, 0, 7, 0, 65] x packet := by
  apply (delivers_iff_data_and_takes .x64 _ ⟨1, 1⟩ (by decide)).1.mpr
  refine ⟨?_, ⟨⟨1, 1⟩, 0⟩, ?_, ?_⟩
  · unfold Grammar.Data Grammar.Syn Grammar.Ack Grammar.Heartbeat
    decide
  · decide
  · decide

end SessionTable

end ServerCore.UdpServer
