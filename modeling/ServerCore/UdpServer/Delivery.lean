import ServerCore.UdpServer.ReceiveBuffers

/-!
# Delivery to the handlers

A handler thread reads the worker's locals and the receive buffer through references. Nothing makes
the worker wait for it: the block that declares the locals ends, the buffer goes back to the pool and
the next receive posts it again. The main theorem says that handlers get what their datagram carried
in every run in which the threads load the captured locals while the block is open and read the
buffer before the kernel writes to it again. A run without this care delivers another datagram.
-/

namespace ServerCore.UdpServer

open Foundation

/-- A worker at this point is in the branch of data datagrams. -/
def Pc.Data (pc : Pc) : Prop :=
  pc = .findSession ∨ pc = .incrementSession ∨ pc = .startPacket

instance (pc : Pc) : Decidable pc.Data :=
  inferInstanceAs (Decidable (_ ∨ _ ∨ _))

theorem Branch.eq_data_of_pc {b : Branch} (h : b.pc.Data) : b = .data := by
  cases b with
  | data => rfl
  | syn | ack | heartbeat | other => exact absurd h (by decide)

namespace SessionManager

variable {ι : Type} {s after : SessionManager ι}

/-- Every handler was called with the session of its own datagram and with that datagram. -/
def Intact (s : SessionManager ι) : Prop :=
  (∀ call ∈ s.packetCalls, call.session = call.origin.session ∧
    call.packet = Packet.ofDatagram call.origin.datagram) ∧
  ∀ call ∈ s.acceptCalls, call.session = call.origin

/-- The handler threads load what they capture while it is in scope, and no datagram arrives in a
buffer that a handler thread is about to read. -/
def Timely (s : SessionManager ι) : Action ι → Prop
  | .loadPending i _ => ∀ t ∈ s.acceptThreads[i]?, t.scope.isSome = true
  | .loadSession i _ | .loadReadIoData i _ => ∀ t ∈ s.packetThreads[i]?, t.scope.isSome = true
  | .complete chunk _ _ _ =>
    ∀ t ∈ s.packetThreads, t.readIoData = some chunk → t.body.isSome = true
  | _ => True

instance (action : Action ι) : Decidable (s.Timely action) :=
  match action with
  | .loadPending i _ => inferInstanceAs (Decidable (∀ t ∈ s.acceptThreads[i]?, _))
  | .loadSession i _ | .loadReadIoData i _ =>
    inferInstanceAs (Decidable (∀ t ∈ s.packetThreads[i]?, _))
  | .complete _ _ _ _ => inferInstanceAs (Decidable (∀ t ∈ s.packetThreads, _))
  | .recv _ _ | .dequeue _ _ | .iocpTask _ | .callAccept _ | .readHeader _ | .readBody _
  | .callPacket _ | .tick => isTrue trivial

/-! ## What the threads have read -/

/-- The captured locals are those of the datagram, and whatever was read is right. -/
structure PacketSound (s : SessionManager ι) (t : PacketThread ι) : Prop where
  scope : ∀ w ∈ t.scope, (s.worker w).pc = .free ∧ (s.worker w).session = t.origin.session ∧
    (s.worker w).readIoData = t.chunk ∧ (s.worker w).datagram = t.origin.datagram
  session : ∀ session ∈ t.session, session = t.origin.session
  readIoData : ∀ chunk ∈ t.readIoData, chunk = t.chunk
  buffer : t.readIoData.isSome = true → t.body = none → s.Delivered t.chunk t.origin.datagram
  header : ∀ header ∈ t.header, header =
    ((Packet.ofDatagram t.origin.datagram).size, (Packet.ofDatagram t.origin.datagram).packetType)
  ordered : t.header = none → t.body = none
  body : ∀ body ∈ t.body, body = (Packet.ofDatagram t.origin.datagram).body
  length : 4 ≤ t.origin.datagram.length ∧ t.origin.datagram.length ≤ socketBufSize
  data : Branch.ofDatagram t.origin.datagram = .data

structure AcceptSound (s : SessionManager ι) (t : AcceptThread ι) : Prop where
  scope : ∀ w ∈ t.scope, (s.worker w).pc = .free ∧ (s.worker w).pendingSession = t.origin
  pendingSession : ∀ session ∈ t.pendingSession, session = t.origin

/-- The invariant of the runs in which all reads are timely. -/
structure Deliveries (s : SessionManager ι) : Prop where
  buffers : s.Buffers
  data : ∀ w, (s.worker w).pc.Data → Branch.ofDatagram (s.worker w).datagram = .data
  packetThreads : ∀ t ∈ s.packetThreads, s.PacketSound t
  acceptThreads : ∀ t ∈ s.acceptThreads, s.AcceptSound t
  intact : s.Intact

theorem deliveries_initial : (initial ι).Deliveries where
  buffers := buffers_initial
  data := by simp [initial, Pc.Data]
  packetThreads := by simp [initial]
  acceptThreads := by simp [initial]
  intact := by simp [Intact, initial]

/-- The words of a datagram, read from the buffer that holds it. -/
theorem Delivered.header {chunk : ℕ} {datagram : List UInt8} (h : s.Delivered chunk datagram)
    (hlength : 4 ≤ datagram.length) :
    word ((s.buffer chunk).read 0 2) = (Packet.ofDatagram datagram).size ∧
      word ((s.buffer chunk).read 2 2) = (Packet.ofDatagram datagram).packetType := by
  have hread := h.1
  constructor
  · rw [← ByteMemory.take_read _ 0 (show 2 ≤ datagram.length by omega), hread]
    rfl
  · have hdrop := ByteMemory.drop_read (s.buffer chunk) 0 datagram.length 2
    rw [hread] at hdrop
    rw [← ByteMemory.take_read _ 2 (show 2 ≤ datagram.length - 2 by omega), ← hdrop]
    rfl

/-- The body of a data datagram, read from the buffer that holds it. -/
theorem Delivered.body {chunk : ℕ} {datagram : List UInt8} (h : s.Delivered chunk datagram)
    (hlength : 4 ≤ datagram.length) (hdata : Branch.ofDatagram datagram = .data) :
    (s.buffer chunk).read 4 (Packet.ofDatagram datagram).size.toNat =
      (Packet.ofDatagram datagram).body := by
  have hsize := size_of_branch_data hlength h.2 hdata
  have hdrop := ByteMemory.drop_read (s.buffer chunk) 0 datagram.length 4
  rw [h.1] at hdrop
  rw [show (Packet.ofDatagram datagram).size.toNat = datagram.length - 4 by omega]
  exact hdrop.symm

/-- What a thread has read stays right while its worker stands still and its buffer is not written. -/
theorem PacketSound.congr {t : PacketThread ι} (ht : s.PacketSound t)
    (hworker : ∀ w, (s.worker w).pc = .free → after.worker w = s.worker w)
    (hbuffer : t.readIoData.isSome = true → t.body = none →
      after.buffer t.chunk = s.buffer t.chunk) : after.PacketSound t where
  scope := by
    intro w hw
    rw [hworker w (ht.scope w hw).1]
    exact ht.scope w hw
  session := ht.session
  readIoData := ht.readIoData
  buffer := by
    intro hloaded hbody
    unfold Delivered
    rw [hbuffer hloaded hbody]
    exact ht.buffer hloaded hbody
  header := ht.header
  ordered := ht.ordered
  body := ht.body
  length := ht.length
  data := ht.data

theorem AcceptSound.congr {t : AcceptThread ι} (ht : s.AcceptSound t)
    (hworker : ∀ w, (s.worker w).pc = .free → after.worker w = s.worker w) :
    after.AcceptSound t where
  scope := by
    intro w hw
    rw [hworker w (ht.scope w hw).1]
    exact ht.scope w hw
  pendingSession := ht.pendingSession

/-- The buffers and the workers whose locals are captured stay as they are. -/
structure Undisturbed (s after : SessionManager ι) : Prop where
  buffer : after.buffer = s.buffer
  captured : ∀ w, (s.worker w).pc = .free → after.worker w = s.worker w
  data : ∀ w, (after.worker w).pc.Data →
    (s.worker w).pc.Data ∧ (after.worker w).datagram = (s.worker w).datagram

theorem Undisturbed.of_worker (hbuffer : after.buffer = s.buffer)
    (hworker : after.worker = s.worker) : s.Undisturbed after where
  buffer := hbuffer
  captured := by simp [hworker]
  data := by simp [hworker]

/-- What a step must keep that only adds to the threads and to the calls. -/
theorem Deliveries.of_threads (hs : s.Deliveries) (hbuffers : after.Buffers)
    (h : s.Undisturbed after)
    (hpacket : ∀ t ∈ after.packetThreads, t ∈ s.packetThreads ∨ after.PacketSound t)
    (haccept : ∀ t ∈ after.acceptThreads, t ∈ s.acceptThreads ∨ after.AcceptSound t)
    (hintact : after.Intact) : after.Deliveries where
  buffers := hbuffers
  data := by
    intro w hw
    rw [(h.data w hw).2]
    exact hs.data w (h.data w hw).1
  packetThreads := by
    intro t ht
    rcases hpacket t ht with hold | hnew
    · apply (hs.packetThreads t hold).congr h.captured
      intro _ _
      rw [h.buffer]
    · exact hnew
  acceptThreads := by
    intro t ht
    rcases haccept t ht with hold | hnew
    · exact (hs.acceptThreads t hold).congr h.captured
    · exact hnew
  intact := hintact

/-- A step that leaves the threads and the calls alone. -/
theorem Deliveries.of_undisturbed (hs : s.Deliveries) (hbuffers : after.Buffers)
    (h : s.Undisturbed after) (hpacket : after.packetThreads = s.packetThreads)
    (haccept : after.acceptThreads = s.acceptThreads)
    (hpacketCalls : after.packetCalls = s.packetCalls)
    (hacceptCalls : after.acceptCalls = s.acceptCalls) : after.Deliveries := by
  apply hs.of_threads hbuffers h
  · intro t ht
    exact Or.inl (hpacket ▸ ht)
  · intro t ht
    exact Or.inl (haccept ▸ ht)
  · unfold Intact
    rw [hpacketCalls, hacceptCalls]
    exact hs.intact

/-- One packet handler goes on. -/
theorem Deliveries.of_setPacket {i : ℕ} {t : PacketThread ι} (hs : s.Deliveries)
    (hbuffers : after.Buffers) (hafter : after.worker = s.worker ∧ after.buffer = s.buffer ∧
      after.packetThreads = s.packetThreads.set i t ∧ after.acceptThreads = s.acceptThreads)
    (ht : s.PacketSound t) (hintact : after.Intact) : after.Deliveries := by
  obtain ⟨hworker, hbuffer, hpacket, haccept⟩ := hafter
  refine hs.of_threads hbuffers (.of_worker hbuffer hworker) ?_ ?_ hintact
  · intro other hother
    rw [hpacket] at hother
    rcases List.mem_or_eq_of_mem_set hother with hold | heq
    · exact Or.inl hold
    · rw [heq]
      exact Or.inr (ht.congr (fun w _ ↦ by rw [hworker]) (fun _ _ ↦ by rw [hbuffer]))
  · intro other hother
    exact Or.inl (haccept ▸ hother)

/-- One accept handler goes on. -/
theorem Deliveries.of_setAccept {i : ℕ} {t : AcceptThread ι} (hs : s.Deliveries)
    (hbuffers : after.Buffers) (hafter : after.worker = s.worker ∧ after.buffer = s.buffer ∧
      after.packetThreads = s.packetThreads ∧ after.acceptThreads = s.acceptThreads.set i t)
    (ht : s.AcceptSound t) (hintact : after.Intact) : after.Deliveries := by
  obtain ⟨hworker, hbuffer, hpacket, haccept⟩ := hafter
  refine hs.of_threads hbuffers (.of_worker hbuffer hworker) ?_ ?_ hintact
  · intro other hother
    exact Or.inl (hpacket ▸ hother)
  · intro other hother
    rw [haccept] at hother
    rcases List.mem_or_eq_of_mem_set hother with hold | heq
    · exact Or.inl hold
    · rw [heq]
      exact Or.inr (ht.congr (fun w _ ↦ by rw [hworker]))

/-! ## The handler threads -/

theorem deliveries_loadPending {i value : ℕ} (hs : s.Deliveries) (hbuffers : after.Buffers)
    (htimely : s.Timely (.loadPending i value)) (hstep : s.loadPending i value = some after) :
    after.Deliveries := by
  obtain ⟨t, ht, ⟨hnew, hcaptures⟩, rfl⟩ := loadPending_eq_some.mp hstep
  have hsound := hs.acceptThreads t (List.mem_of_getElem? ht)
  refine hs.of_setAccept hbuffers ⟨rfl, rfl, rfl, rfl⟩ ?_ hs.intact
  refine { hsound with pendingSession := ?_ }
  intro session hsession
  obtain ⟨w, hw⟩ := Option.isSome_iff_exists.mp (htimely t ht)
  rw [← Option.some.inj hsession, ← hcaptures w hw]
  exact (hsound.scope w hw).2

theorem deliveries_callAccept {i : ℕ} (hs : s.Deliveries) (hbuffers : after.Buffers)
    (hstep : s.callAccept i = some after) : after.Deliveries := by
  obtain ⟨t, session, ht, hsession, -, rfl⟩ := callAccept_eq_some.mp hstep
  have hsound := hs.acceptThreads t (List.mem_of_getElem? ht)
  refine hs.of_setAccept hbuffers ⟨rfl, rfl, rfl, rfl⟩ { hsound with } ⟨hs.intact.1, ?_⟩
  intro call hcall
  rcases List.mem_cons.mp hcall with rfl | hold
  · exact hsound.pendingSession session hsession
  · exact hs.intact.2 call hold

theorem deliveries_loadSession {i value : ℕ} (hs : s.Deliveries) (hbuffers : after.Buffers)
    (htimely : s.Timely (.loadSession i value)) (hstep : s.loadSession i value = some after) :
    after.Deliveries := by
  obtain ⟨t, ht, ⟨hnew, hcaptures⟩, rfl⟩ := loadSession_eq_some.mp hstep
  have hsound := hs.packetThreads t (List.mem_of_getElem? ht)
  refine hs.of_setPacket hbuffers ⟨rfl, rfl, rfl, rfl⟩ ?_ hs.intact
  refine { hsound with session := ?_ }
  intro session hsession
  obtain ⟨w, hw⟩ := Option.isSome_iff_exists.mp (htimely t ht)
  rw [← Option.some.inj hsession, ← hcaptures w hw]
  exact (hsound.scope w hw).2.1

theorem deliveries_loadReadIoData {i value : ℕ} (hs : s.Deliveries) (hbuffers : after.Buffers)
    (htimely : s.Timely (.loadReadIoData i value))
    (hstep : s.loadReadIoData i value = some after) : after.Deliveries := by
  obtain ⟨t, ht, ⟨hnew, hcaptures⟩, rfl⟩ := loadReadIoData_eq_some.mp hstep
  have hsound := hs.packetThreads t (List.mem_of_getElem? ht)
  obtain ⟨w, hw⟩ := Option.isSome_iff_exists.mp (htimely t ht)
  obtain ⟨hpc, -, hchunk, hdatagram⟩ := hsound.scope w hw
  refine hs.of_setPacket hbuffers ⟨rfl, rfl, rfl, rfl⟩ ?_ hs.intact
  refine { hsound with readIoData := ?_, buffer := ?_ }
  · intro chunk hloaded
    rw [← Option.some.inj hloaded, ← hcaptures w hw]
    exact hchunk
  · intro _ _
    -- the worker still has the buffer in hand
    have hheld := (hs.buffers.heldBytes w (by rw [hpc]; decide)).1
    rw [hchunk, hdatagram] at hheld
    exact hheld

theorem deliveries_readHeader {i : ℕ} (hs : s.Deliveries) (hbuffers : after.Buffers)
    (hstep : s.readHeader i = some after) : after.Deliveries := by
  obtain ⟨t, chunk, ht, hchunk, hnew, rfl⟩ := readHeader_eq_some.mp hstep
  have hsound := hs.packetThreads t (List.mem_of_getElem? ht)
  have hheld := hsound.buffer (by rw [hchunk]; rfl) (hsound.ordered hnew)
  have hwords := hheld.header hsound.length.1
  refine hs.of_setPacket hbuffers ⟨rfl, rfl, rfl, rfl⟩ ?_ hs.intact
  refine { hsound with header := ?_, ordered := fun h ↦ by cases h }
  intro header hheader
  rw [← Option.some.inj hheader, hsound.readIoData chunk hchunk, hwords.1, hwords.2]

theorem deliveries_readBody {i : ℕ} (hs : s.Deliveries) (hbuffers : after.Buffers)
    (hstep : s.readBody i = some after) : after.Deliveries := by
  obtain ⟨t, chunk, header, ht, hchunk, hheader, ⟨hnew, -⟩, rfl⟩ := readBody_eq_some.mp hstep
  have hsound := hs.packetThreads t (List.mem_of_getElem? ht)
  have hheld := hsound.buffer (by rw [hchunk]; rfl) hnew
  refine hs.of_setPacket hbuffers ⟨rfl, rfl, rfl, rfl⟩ ?_ hs.intact
  refine { hsound with
    buffer := fun _ h ↦ by cases h
    ordered := fun h ↦ by
      rw [hheader] at h
      cases h
    body := ?_ }
  intro body hbody
  rw [← Option.some.inj hbody, hsound.readIoData chunk hchunk, hsound.header header hheader]
  exact hheld.body hsound.length.1 hsound.data

theorem deliveries_callPacket {i : ℕ} (hs : s.Deliveries) (hbuffers : after.Buffers)
    (hstep : s.callPacket i = some after) : after.Deliveries := by
  obtain ⟨t, session, header, body, ht, hsession, hheader, hbody, -, rfl⟩ :=
    callPacket_eq_some.mp hstep
  have hsound := hs.packetThreads t (List.mem_of_getElem? ht)
  refine hs.of_setPacket hbuffers ⟨rfl, rfl, rfl, rfl⟩ { hsound with } ⟨?_, hs.intact.2⟩
  intro call hcall
  rcases List.mem_cons.mp hcall with rfl | hold
  · rw [hsound.header header hheader, hsound.body body hbody]
    exact ⟨hsound.session session hsession, rfl⟩
  · exact hs.intact.1 call hold

/-! ## The workers -/

variable [DecidableEq ι]

/-- One worker moves whose locals nobody captures. -/
theorem Undisturbed.of_setWorker {w : ι} {locals : Worker}
    (hworker : after.worker = Function.update s.worker w locals)
    (hbuffer : after.buffer = s.buffer) (hpc : (s.worker w).pc ≠ .free)
    (hdata : locals.pc.Data → (s.worker w).pc.Data ∧ locals.datagram = (s.worker w).datagram) :
    s.Undisturbed after where
  buffer := hbuffer
  captured := by
    intro v hv
    have hne : v ≠ w := by
      intro heq
      exact hpc (heq ▸ hv)
    rw [hworker, Function.update_of_ne hne]
  data := by
    intro v hv
    rw [hworker] at hv ⊢
    by_cases hvw : v = w
    · rw [hvw, Function.update_self] at hv ⊢
      exact hdata hv
    · rw [Function.update_of_ne hvw] at hv ⊢
      exact ⟨hv, rfl⟩

/-- A worker goes on to another point. -/
theorem Undisturbed.of_goto {w : ι} {pc : Pc} (hworker : after.worker = (s.goto w pc).worker)
    (hbuffer : after.buffer = s.buffer) (hpc : (s.worker w).pc ≠ .free)
    (hdata : pc.Data → (s.worker w).pc.Data) : s.Undisturbed after :=
  of_setWorker hworker hbuffer hpc fun h ↦ ⟨hdata h, rfl⟩

theorem deliveries_startAccept {w : ι} (hs : s.Deliveries) (hbuffers : (s.startAccept w).Buffers)
    (hpc : (s.worker w).pc = .startAccept) : (s.startAccept w).Deliveries := by
  refine hs.of_threads hbuffers
    (.of_goto rfl rfl (by rw [hpc]; decide) (fun h ↦ absurd h (by decide)))
    (fun t ht ↦ Or.inl ht) ?_ hs.intact
  intro t ht
  rcases List.mem_append.mp ht with hold | hnew
  · exact Or.inl hold
  · apply Or.inr
    rw [List.mem_singleton.mp hnew]
    refine ⟨?_, by simp⟩
    intro v hv
    rw [← Option.some.inj hv]
    simp [startAccept, goto, setWorker]

theorem deliveries_startPacket {w : ι} (hs : s.Deliveries) (hbuffers : (s.startPacket w).Buffers)
    (hpc : (s.worker w).pc = .startPacket) : (s.startPacket w).Deliveries := by
  refine hs.of_threads hbuffers
    (.of_goto rfl rfl (by rw [hpc]; decide) (fun h ↦ absurd h (by decide))) ?_
    (fun t ht ↦ Or.inl ht) hs.intact
  intro t ht
  rcases List.mem_append.mp ht with hold | hnew
  · exact Or.inl hold
  · apply Or.inr
    rw [List.mem_singleton.mp hnew]
    have hheld := hs.buffers.heldBytes w (by rw [hpc]; decide)
    exact {
      scope := by
        intro v hv
        rw [← Option.some.inj hv]
        simp [startPacket, goto, setWorker]
      session := by simp
      readIoData := by simp
      buffer := by simp
      header := by simp
      ordered := fun _ ↦ rfl
      body := by simp
      length := ⟨hheld.2, hheld.1.2⟩
      data := hs.data w (by rw [hpc]; decide) }

/-- The block ends: the threads that captured its locals keep what they have read. -/
theorem deliveries_free {w : ι} (hs : s.Deliveries) (hbuffers : (s.free w).Buffers) :
    (s.free w).Deliveries := by
  have hother (v : ι) (hv : v ≠ w) : (s.free w).worker v = s.worker v := by
    simp [free, goto, setWorker, hv]
  refine ⟨hbuffers, ?_, ?_, ?_, hs.intact⟩
  · intro v hv
    by_cases hvw : v = w
    · simp [free, goto, setWorker, hvw, Pc.Data] at hv
    · rw [hother v hvw] at hv ⊢
      exact hs.data v hv
  · intro t ht
    obtain ⟨t, hmem, rfl⟩ := List.mem_map.mp ht
    have hsound := hs.packetThreads t hmem
    unfold PacketThread.leave
    split
    · exact { hsound with scope := by simp, buffer := hsound.buffer }
    · next hscope =>
      refine { hsound with scope := ?_, buffer := hsound.buffer }
      intro v hv
      rw [hother v (fun heq ↦ hscope (heq ▸ hv))]
      exact hsound.scope v hv
  · intro t ht
    obtain ⟨t, hmem, rfl⟩ := List.mem_map.mp ht
    have hsound := hs.acceptThreads t hmem
    unfold AcceptThread.leave
    split
    · exact { hsound with scope := by simp }
    · next hscope =>
      refine { hsound with scope := ?_ }
      intro v hv
      rw [hother v (fun heq ↦ hscope (heq ▸ hv))]
      exact hsound.scope v hv

omit [DecidableEq ι] in
/-- A datagram arrives in a buffer that no handler thread is about to read. -/
theorem deliveries_complete {chunk : ℕ} {succ : Bool} {endpoint : Endpoint} {datagram : List UInt8}
    (hs : s.Deliveries) (hbuffers : after.Buffers)
    (htimely : s.Timely (.complete chunk succ endpoint datagram))
    (hafter : after = { s with
      posted := s.posted.erase chunk
      completed := ⟨chunk, succ, datagram⟩ :: s.completed
      buffer := Function.update s.buffer chunk ((s.buffer chunk).write 0 datagram)
      remoteEndpoint := Function.update s.remoteEndpoint chunk endpoint }) :
    after.Deliveries := by
  subst hafter
  refine ⟨hbuffers, hs.data, ?_, ?_, hs.intact⟩
  · intro t ht
    have hsound := hs.packetThreads t ht
    refine hsound.congr (fun _ _ ↦ rfl) ?_
    intro hloaded hbody
    apply Function.update_of_ne
    intro heq
    obtain ⟨loaded, hread⟩ := Option.isSome_iff_exists.mp hloaded
    have hlate := htimely t ht (by rw [hread, hsound.readIoData loaded hread, heq])
    rw [hbody] at hlate
    cases hlate
  · intro t ht
    exact (hs.acceptThreads t ht).congr (fun _ _ ↦ rfl)

/-- A worker dequeues a datagram, and takes the branch of data datagrams for data only. -/
theorem deliveries_take {w : ι} {c : Completion} (hs : s.Deliveries) (hbuffers : after.Buffers)
    (hpc : (s.worker w).pc = .waiting) (hmem : c ∈ s.completed) (hfull : 4 ≤ c.datagram.length)
    (hafter : after = { s with completed := s.completed.erase c }.setWorker w { s.worker w with
      pc := (branch (word ((s.buffer c.chunk).read 0 2)) (word ((s.buffer c.chunk).read 2 2))
        c.datagram.length).pc
      readIoData := c.chunk
      datagram := c.datagram }) : after.Deliveries := by
  have hwords := (hs.buffers.completedBytes c hmem).header hfull
  rw [hwords.1, hwords.2] at hafter
  subst hafter
  have hother (v : ι) (hv : v ≠ w) (locals : Worker) :
      ({ s with completed := s.completed.erase c }.setWorker w locals).worker v = s.worker v := by
    simp [setWorker, hv]
  refine ⟨hbuffers, ?_, ?_, ?_, hs.intact⟩
  · intro v hv
    by_cases hvw : v = w
    · simp only [setWorker, hvw, Function.update_self] at hv ⊢
      exact Branch.eq_data_of_pc hv
    · rw [hother v hvw] at hv ⊢
      exact hs.data v hv
  all_goals
    intro t ht
  · refine (hs.packetThreads t ht).congr (fun v hv ↦ hother v ?_ _) (fun _ _ ↦ rfl)
    intro heq
    rw [heq, hpc] at hv
    cases hv
  · refine (hs.acceptThreads t ht).congr (fun v hv ↦ hother v ?_ _)
    intro heq
    rw [heq, hpc] at hv
    cases hv

/-- A worker goes on without starting a thread or leaving its block. -/
theorem Deliveries.of_moved {w : ι} {before next : Pc} {newSession pendingSession session : ℕ}
    (hs : s.Deliveries) (hbuffers : after.Buffers) (hpc : (s.worker w).pc = before)
    (hbefore : before ≠ .free) (hnext : next.Data → before.Data)
    (hworker : after.worker = Function.update s.worker w ⟨next, (s.worker w).readIoData, newSession,
      pendingSession, session, (s.worker w).datagram⟩)
    (hbuffer : after.buffer = s.buffer) (hpacket : after.packetThreads = s.packetThreads)
    (haccept : after.acceptThreads = s.acceptThreads)
    (hpacketCalls : after.packetCalls = s.packetCalls)
    (hacceptCalls : after.acceptCalls = s.acceptCalls) : after.Deliveries := by
  rw [← hpc] at hbefore hnext
  have hundisturbed := Undisturbed.of_setWorker hworker hbuffer hbefore fun h ↦ ⟨hnext h, rfl⟩
  exact hs.of_undisturbed hbuffers hundisturbed hpacket haccept hpacketCalls hacceptCalls

theorem deliveries_iocpTask {w : ι} (hs : s.Deliveries) (hbuffers : after.Buffers)
    (hstep : s.iocpTask w = some after) : after.Deliveries := by
  cases iocpStep_of_iocpTask hstep with
  | startAccept hpc => exact deliveries_startAccept hs hbuffers hpc
  | startPacket hpc => exact deliveries_startPacket hs hbuffers hpc
  | free hpc => exact deliveries_free hs hbuffers
  | missSession hpc =>
    rcases hpc with hpc | hpc
    all_goals exact hs.of_moved hbuffers hpc (by decide) (by decide) rfl rfl rfl rfl rfl rfl
  | construct hpc | refusePending hpc | insertPending hpc | reply hpc | missPending hpc
  | findPending hpc | erasePending hpc | refuseSession hpc | insertSession hpc
  | findHeartbeat hpc | incrementHeartbeat hpc | findSession hpc | deliver hpc | discard hpc =>
    exact hs.of_moved hbuffers hpc (by decide) (by decide) rfl rfl rfl rfl rfl rfl

omit [DecidableEq ι] in
theorem deliveries_tick (hs : s.Deliveries) (hbuffers : after.Buffers)
    (hstep : s.runTick = some after) : after.Deliveries := by
  obtain ⟨_, _, _, _, rfl⟩ := tick_frame hstep
  exact hs.of_undisturbed hbuffers (.of_worker rfl rfl) rfl rfl rfl rfl

theorem deliveries_step {action : Action ι} (hs : s.Deliveries) (htimely : s.Timely action)
    (hstep : s.step action = some after) : after.Deliveries := by
  have hbuffers := buffers_step hs.buffers (receiveStep_of_step hstep)
  cases action with
  | recv w chunk =>
    obtain ⟨⟨hpc, -⟩, rfl⟩ := recv_eq_some.mp hstep
    rcases hpc with hpc | hpc
    all_goals
      exact hs.of_moved hbuffers hpc (by decide) (by decide) rfl rfl rfl rfl rfl rfl
  | complete chunk succ endpoint datagram =>
    exact deliveries_complete hs hbuffers htimely (complete_eq_some.mp hstep).2.symm
  | dequeue w c =>
    obtain ⟨hpc, hmem, ⟨-, rfl⟩ | ⟨hfull, hafter⟩⟩ := dequeue_cases hstep
    · exact hs.of_undisturbed hbuffers (.of_worker rfl rfl) rfl rfl rfl rfl
    · exact deliveries_take hs hbuffers hpc hmem hfull.2 hafter
  | iocpTask w => exact deliveries_iocpTask hs hbuffers hstep
  | loadPending i value => exact deliveries_loadPending hs hbuffers htimely hstep
  | callAccept i => exact deliveries_callAccept hs hbuffers hstep
  | loadSession i value => exact deliveries_loadSession hs hbuffers htimely hstep
  | loadReadIoData i value => exact deliveries_loadReadIoData hs hbuffers htimely hstep
  | readHeader i => exact deliveries_readHeader hs hbuffers hstep
  | readBody i => exact deliveries_readBody hs hbuffers hstep
  | callPacket i => exact deliveries_callPacket hs hbuffers hstep
  | tick => exact deliveries_tick hs hbuffers hstep

/-- **Delivery.** In a run in which the handler threads read in time, every handler is called with
the session found for its own datagram and with the size, the type and the body of that datagram, or
with the session that its own ACK established. -/
theorem intact_of_timely {history : List (SessionManager ι × Action ι)}
    (hrun : (system ι).Run history s) (htimely : System.Obeys Timely history) :
    ∀ seen ∈ System.visited history s, seen.Intact := by
  have hinvariant := hrun.invariant_visited Deliveries
    (fun start hstart ↦ by
      subst hstart
      exact deliveries_initial)
    (fun state action next hs hcondition hstep ↦ deliveries_step hs hcondition hstep) htimely
  intro seen hseen
  exact (hinvariant seen hseen).intact

/-- The packet handler loads what it captures, the worker frees and reposts the buffer, and the next
datagram arrives before the handler has read the first one. -/
def overtaken : List (Action (Fin 1)) :=
  handshake ⟨1, 1⟩ ++ [.iocpTask 0, .recv 0 0] ++ served ⟨1, 1⟩ [1, 0, 0, 0, 65] 3 ++
    [.loadSession 0 0, .loadReadIoData 0 0, .iocpTask 0, .recv 0 0,
      .complete 0 true ⟨1, 1⟩ [1, 0, 0, 0, 66], .readHeader 0, .readBody 0, .callPacket 0]

/-- The handler of a datagram is called with the body of the next one. -/
theorem intact_fails : ¬ ∀ history s, (system (Fin 1)).Run history s → s.Intact := by
  intro hclaim
  have hreplay : (System.replay step (initial (Fin 1)) overtaken).map
      (fun s ↦ decide (⟨⟨0, [1, 0, 0, 0, 65]⟩, 0, ⟨1, 0, [66]⟩⟩ ∈ s.packetCalls)) =
        some true := by decide +kernel
  obtain ⟨history, s, hrun, htest⟩ := System.exists_run_of_replay
    (fun s ↦ s = initial (Fin 1)) rfl hreplay
  have hbody := ((hclaim history s hrun).1 _ (of_decide_eq_true htest)).2
  exact absurd hbody (by decide)

/-- Both handlers read in time. -/
def inTime : List (Action (Fin 1)) :=
  handshake ⟨1, 1⟩ ++ [.loadPending 0 0, .iocpTask 0, .callAccept 0, .recv 0 0] ++
    served ⟨1, 1⟩ [1, 0, 0, 0, 65] 3 ++
    [.loadSession 0 0, .loadReadIoData 0 0, .iocpTask 0, .readHeader 0, .readBody 0, .recv 0 0,
      .complete 0 true ⟨1, 1⟩ [1, 0, 0, 0, 66], .callPacket 0]

/-- The main theorem applied to a run that calls both handlers. -/
theorem intact_of_timely_applies :
    ∃ history s, (system (Fin 1)).Run history s ∧ s.acceptCalls ≠ [] ∧ s.packetCalls ≠ [] ∧
      ∀ seen ∈ System.visited history s, seen.Intact := by
  have hreplay : (System.replay
      (fun s action ↦ if s.Timely action then s.step action else none)
      (initial (Fin 1)) inTime).map
      (fun s ↦ decide (s.acceptCalls ≠ [] ∧ s.packetCalls ≠ [])) = some true := by decide +kernel
  obtain ⟨history, s, hrun, htest⟩ := System.exists_run_of_replay
    (fun s ↦ s = initial (Fin 1)) rfl hreplay
  obtain ⟨haccept, hpacket⟩ := of_decide_eq_true htest
  obtain ⟨hrun, htimely⟩ := hrun.of_tested
  exact ⟨history, s, hrun, haccept, hpacket, intact_of_timely hrun htimely⟩

end SessionManager

end ServerCore.UdpServer
