import ServerCore.Foundation.ByteMemory

/-!
# Endpoints, datagrams and packets

The server files sessions by the endpoint a datagram came from, and tells the kinds of datagrams apart
by their length and their first two 16-bit words. On the little-endian platforms of the solution a
`short` is read from two bytes, low byte first, and is signed.
-/

namespace ServerCore.UdpServer

open Foundation

/-- The fields of `sockaddr_in` that the order on endpoints compares. -/
structure Endpoint where
  sAddr : BitVec 32
  sinPort : BitVec 16
  deriving DecidableEq, Repr

namespace Endpoint

/-- `operator<`. -/
def Less (lhs rep : Endpoint) : Prop :=
  lhs.sAddr < rep.sAddr ∨ (lhs.sAddr = rep.sAddr ∧ lhs.sinPort < rep.sinPort)

/-- A `std::map` takes incomparable keys for the same key; these are the equal ones. -/
theorem eq_iff_incomparable (first second : Endpoint) :
    first = second ↔ ¬ first.Less second ∧ ¬ second.Less first := by
  constructor
  · intro heq
    subst heq
    simp [Less]
  · intro h
    obtain ⟨haddr, hport⟩ := first
    obtain ⟨haddr', hport'⟩ := second
    unfold Less at h
    simp only [not_or, not_and, BitVec.not_lt] at h
    have hsame := BitVec.le_antisymm h.2.1 h.1.1
    rw [hsame, BitVec.le_antisymm (h.2.2 hsame.symm) (h.1.2 hsame)]

end Endpoint

/-- `std::map<Endpoint, Session*>`, the sessions being numbered. -/
abbrev SessionMap := List (Endpoint × ℕ)

namespace SessionMap

def find (m : SessionMap) (endpoint : Endpoint) : Option ℕ :=
  (List.find? (fun node ↦ node.1 = endpoint) m).map Prod.snd

/-- `insert` leaves the map as it is when the key is present. -/
def insert (m : SessionMap) (endpoint : Endpoint) (session : ℕ) : SessionMap :=
  if (m.find endpoint).isSome then m else (endpoint, session) :: m

/-- `erase` of the node that holds the session. -/
def erase (m : SessionMap) (session : ℕ) : SessionMap :=
  m.filter fun node ↦ node.2 ≠ session

/-- The sessions in the map. -/
def values (m : SessionMap) : List ℕ :=
  m.map Prod.snd

theorem mem_values_of_find {m : SessionMap} {endpoint : Endpoint} {session : ℕ}
    (h : m.find endpoint = some session) : session ∈ m.values := by
  obtain ⟨node, hnode, rfl⟩ := Option.map_eq_some_iff.mp h
  exact List.mem_map_of_mem (List.mem_of_find?_eq_some hnode)

theorem mem_values_insert {m : SessionMap} {endpoint : Endpoint} {session other : ℕ}
    (h : other ∈ (m.insert endpoint session).values) : other = session ∨ other ∈ m.values := by
  unfold insert at h
  split at h
  · exact Or.inr h
  · simpa [values] using h

theorem mem_values_insert_of_mem {m : SessionMap} {endpoint : Endpoint} {session other : ℕ}
    (h : other ∈ m.values) : other ∈ (m.insert endpoint session).values := by
  unfold insert
  split
  · exact h
  · simpa [values] using Or.inr h

@[simp]
theorem mem_values_erase {m : SessionMap} {session other : ℕ} :
    other ∈ (m.erase session).values ↔ other ≠ session ∧ other ∈ m.values := by
  simp only [values, erase, List.mem_map, List.mem_filter, decide_eq_true_eq]
  constructor
  · intro h
    obtain ⟨node, ⟨hmem, hne⟩, rfl⟩ := h
    exact ⟨hne, node, hmem, rfl⟩
  · intro h
    obtain ⟨hne, node, hmem, rfl⟩ := h
    exact ⟨node, ⟨hmem, hne⟩, rfl⟩

end SessionMap

/-- `Packet`, without the storage of its data. -/
structure Packet where
  size : BitVec 16
  packetType : BitVec 16
  body : List UInt8
  deriving DecidableEq, Repr

/-- A `short` read from two bytes. -/
def word : List UInt8 → BitVec 16
  | [low, high] => BitVec.ofNat 16 (low.toNat + 256 * high.toNat)
  | _ => 0

/-- The packet that a datagram spells. -/
def Packet.ofDatagram (datagram : List UInt8) : Packet where
  size := word (datagram.take 2)
  packetType := word ((datagram.drop 2).take 2)
  body := datagram.drop 4

/-- `socket_buf_size`, the length of a receive buffer. -/
def socketBufSize : ℕ := 512

/-- The branches of `iocp_task` for a datagram, `other` being none of them. -/
inductive Branch
  | syn
  | ack
  | heartbeat
  | data
  | other
  deriving DecidableEq, Repr

/-- Which branch is taken. `size + 4 == bytes` compares as 32-bit unsigned numbers. -/
def branch (size type : BitVec 16) (bytes : ℕ) : Branch :=
  if bytes = 6 ∧ size = 2 ∧ type = -1 then .syn
  else if bytes = 6 ∧ size = 2 ∧ type = -3 then .ack
  else if bytes = 4 ∧ size = 0 ∧ type = -1 then .heartbeat
  else if (size.signExtend 32 + 4).toNat = bytes then .data
  else .other

/-- The branch that a datagram chooses by its words and its length. -/
def Branch.ofDatagram (datagram : List UInt8) : Branch :=
  branch (Packet.ofDatagram datagram).size (Packet.ofDatagram datagram).packetType datagram.length

/-- The comparison with the byte count leaves no room for a negative size. -/
theorem toNat_signExtend_add_four {size : BitVec 16} {bytes : ℕ} (hlow : 4 ≤ bytes)
    (hhigh : bytes ≤ socketBufSize) :
    (size.signExtend 32 + 4).toNat = bytes ↔ size.toNat + 4 = bytes := by
  have hlt := size.isLt
  unfold socketBufSize at hhigh
  rw [BitVec.toNat_add, BitVec.toNat_signExtend, BitVec.toNat_setWidth, BitVec.msb_eq_decide,
    show (4 : BitVec 32).toNat = 4 from rfl]
  by_cases hneg : 2 ^ 15 ≤ size.toNat
  · rw [decide_eq_true hneg, if_pos rfl]
    omega
  · rw [decide_eq_false hneg, if_neg Bool.false_ne_true]
    omega

section Branch

variable {size type : BitVec 16} {bytes : ℕ}

theorem branch_eq_syn_iff :
    branch size type bytes = .syn ↔ bytes = 6 ∧ size = 2 ∧ type = -1 := by
  unfold branch
  split_ifs
  all_goals simp_all

theorem branch_eq_ack_iff :
    branch size type bytes = .ack ↔ bytes = 6 ∧ size = 2 ∧ type = -3 := by
  unfold branch
  split_ifs
  all_goals simp_all

theorem branch_eq_heartbeat_iff :
    branch size type bytes = .heartbeat ↔ bytes = 4 ∧ size = 0 ∧ type = -1 := by
  unfold branch
  split_ifs
  all_goals simp_all

theorem branch_eq_data_iff : branch size type bytes = .data ↔
    (size.signExtend 32 + 4).toNat = bytes ∧ ¬ (bytes = 6 ∧ size = 2 ∧ type = -1) ∧
      ¬ (bytes = 6 ∧ size = 2 ∧ type = -3) ∧ ¬ (bytes = 4 ∧ size = 0 ∧ type = -1) := by
  unfold branch
  split_ifs
  all_goals simp_all

/-- A data datagram announces its own length, and the size is not negative. -/
theorem size_of_branch_data (hlow : 4 ≤ bytes) (hhigh : bytes ≤ socketBufSize)
    (h : branch size type bytes = .data) : size.toNat + 4 = bytes :=
  (toNat_signExtend_add_four hlow hhigh).mp (branch_eq_data_iff.mp h).1

end Branch

end ServerCore.UdpServer
