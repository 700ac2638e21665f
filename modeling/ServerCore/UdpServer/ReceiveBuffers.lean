import Mathlib.Data.List.Nodup
import Mathlib.Data.List.Perm.Basic
import Mathlib.Tactic.Common
import ServerCore.UdpServer.Steps

/-!
# Receive buffers

A receive buffer goes round: `Recv` takes a chunk from the pool and posts it, the kernel fills it, a
worker dequeues it and has it in hand until it frees it. `ReceiveStep` lists all that a step can do
to the buffers, so that facts about them need no look at the step function again. The invariant
`Buffers` says that no buffer is at two places of the round and that a buffer completed or in hand
holds the bytes received.
-/

namespace ServerCore.UdpServer

open Foundation

/-- A worker at this point has a receive buffer in hand. -/
def Pc.Holds (pc : Pc) : Prop :=
  pc ≠ .starting ∧ pc ≠ .waiting ∧ pc ≠ .recv

instance (pc : Pc) : Decidable pc.Holds :=
  inferInstanceAs (Decidable (_ ∧ _ ∧ _))

theorem Branch.holds_pc (b : Branch) : b.pc.Holds := by
  cases b <;> decide

namespace SessionManager

variable {ι : Type} [DecidableEq ι] {s after : SessionManager ι}

/-- The worker goes on to the end of its branch: its completion succeeded with at least four bytes,
and it finds the session it looks up. -/
def Answered (s : SessionManager ι) : Action ι → Prop
  | .dequeue _ c => c.succ = true ∧ 4 ≤ c.datagram.length
  | .iocpTask w =>
    match (s.worker w).pc with
    | .findPending =>
      (s.pendingSessions.find (s.remoteEndpoint (s.worker w).readIoData)).isSome = true
    | .findHeartbeat | .findSession =>
      (s.sessions.find (s.remoteEndpoint (s.worker w).readIoData)).isSome = true
    | _ => True
  | _ => True

/-- The buffers, and what the workers have in hand, stay as they are. -/
structure Quiet (s after : SessionManager ι) : Prop where
  posted : after.posted = s.posted
  completed : after.completed = s.completed
  live : after.live = s.live
  buffer : after.buffer = s.buffer
  waiting : ∀ w, (after.worker w).pc = .waiting ↔ (s.worker w).pc = .waiting
  starting : ∀ w, (after.worker w).pc = .starting ↔ (s.worker w).pc = .starting
  holds : ∀ w, (after.worker w).pc.Holds ↔ (s.worker w).pc.Holds
  readIoData : ∀ w, (after.worker w).readIoData = (s.worker w).readIoData
  datagram : ∀ w, (after.worker w).datagram = (s.worker w).datagram

/-- All that a step can do to the buffers. -/
inductive ReceiveStep (s : SessionManager ι) : Action ι → SessionManager ι → Prop
  | recv {w : ι} {chunk : ℕ} (hpc : (s.worker w).pc = .starting ∨ (s.worker w).pc = .recv)
      (hfresh : chunk ∉ s.live) :
      ReceiveStep s (.recv w chunk) ({ s with
        live := chunk :: s.live
        posted := chunk :: s.posted
        remoteEndpoint := Function.update s.remoteEndpoint chunk ⟨0, 0⟩ }.goto w .waiting)
  | complete {chunk : ℕ} {succ : Bool} {endpoint : Endpoint} {datagram : List UInt8}
      (hposted : chunk ∈ s.posted) (hlength : datagram.length ≤ socketBufSize) :
      ReceiveStep s (.complete chunk succ endpoint datagram) { s with
        posted := s.posted.erase chunk
        completed := ⟨chunk, succ, datagram⟩ :: s.completed
        buffer := Function.update s.buffer chunk ((s.buffer chunk).write 0 datagram)
        remoteEndpoint := Function.update s.remoteEndpoint chunk endpoint }
  | drop {w : ι} {c : Completion} (hpc : (s.worker w).pc = .waiting) (hmem : c ∈ s.completed)
      (hshort : ¬ s.Answered (.dequeue w c)) :
      ReceiveStep s (.dequeue w c) { s with completed := s.completed.erase c }
  | take {w : ι} {c : Completion} {next : Branch} (hpc : (s.worker w).pc = .waiting)
      (hmem : c ∈ s.completed) (hfull : s.Answered (.dequeue w c))
      (hnext : next = branch (word ((s.buffer c.chunk).read 0 2))
        (word ((s.buffer c.chunk).read 2 2)) c.datagram.length) :
      ReceiveStep s (.dequeue w c) ({ s with completed := s.completed.erase c }.setWorker w
        { s.worker w with pc := next.pc, readIoData := c.chunk, datagram := c.datagram })
  | leak {w : ι} (hpc : (s.worker w).pc.Holds) (hfailed : ¬ s.Answered (.iocpTask w)) :
      ReceiveStep s (.iocpTask w) (s.goto w .waiting)
  | release {w : ι} (hpc : (s.worker w).pc = .free) :
      ReceiveStep s (.iocpTask w) (s.free w)
  | quiet {action : Action ι} {after : SessionManager ι} (hquiet : s.Quiet after)
      (hanswered : s.Answered action) : ReceiveStep s action after

/-- A worker that keeps its buffer in hand leaves the buffers alone. -/
theorem quiet_of_setWorker {w : ι} {before next : Pc} {newSession pendingSession session : ℕ}
    (hpc : (s.worker w).pc = before) (hbefore : before.Holds) (hnext : next.Holds)
    (hworker : after.worker = Function.update s.worker w ⟨next, (s.worker w).readIoData, newSession,
      pendingSession, session, (s.worker w).datagram⟩)
    (hposted : after.posted = s.posted) (hcompleted : after.completed = s.completed)
    (hlive : after.live = s.live) (hbuffer : after.buffer = s.buffer) : s.Quiet after := by
  have hmoved (property : Worker → Prop)
      (hsame : property ⟨next, (s.worker w).readIoData, newSession, pendingSession, session,
        (s.worker w).datagram⟩ ↔ property (s.worker w)) (v : ι) :
      property (after.worker v) ↔ property (s.worker v) := by
    rw [hworker]
    by_cases hv : v = w
    · rw [hv, Function.update_self]
      exact hsame
    · rw [Function.update_of_ne hv]
  rw [← hpc] at hbefore
  exact {
    posted := hposted
    completed := hcompleted
    live := hlive
    buffer := hbuffer
    waiting := hmoved (fun l ↦ l.pc = .waiting) (iff_of_false hnext.2.1 hbefore.2.1)
    starting := hmoved (fun l ↦ l.pc = .starting) (iff_of_false hnext.1 hbefore.1)
    holds := hmoved (fun l ↦ l.pc.Holds) (iff_of_true hnext hbefore)
    readIoData := fun v ↦ (hmoved (fun l ↦ l.readIoData = (s.worker v).readIoData) (by
      by_cases hv : v = w <;> simp [hv]) v).mpr rfl
    datagram := fun v ↦ (hmoved (fun l ↦ l.datagram = (s.worker v).datagram) (by
      by_cases hv : v = w <;> simp [hv]) v).mpr rfl }

omit [DecidableEq ι] in
/-- A step that moves no worker leaves the buffers alone. -/
theorem quiet_of_worker (hposted : after.posted = s.posted)
    (hcompleted : after.completed = s.completed) (hlive : after.live = s.live)
    (hbuffer : after.buffer = s.buffer) (hworker : after.worker = s.worker) : s.Quiet after := by
  constructor <;> simp [*]

/-- The branches of `iocp_task`. -/
theorem receiveStep_iocpTask {w : ι} (hstep : s.iocpTask w = some after) :
    s.ReceiveStep (.iocpTask w) after := by
  cases iocpStep_of_iocpTask hstep with
  | free hpc => exact .release hpc
  | missPending hpc hfind => exact .leak (by rw [hpc]; decide) (by simp [Answered, hpc, hfind])
  | missSession hpc hfind =>
    rcases hpc with hpc | hpc
    all_goals exact .leak (by rw [hpc]; decide) (by simp [Answered, hpc, hfind])
  | findPending hpc hfind | findHeartbeat hpc hfind | findSession hpc hfind =>
    apply ReceiveStep.quiet _ (by simp [Answered, hpc, hfind])
    exact quiet_of_setWorker hpc (by decide) (by decide) rfl rfl rfl rfl rfl
  | construct hpc | refusePending hpc | insertPending hpc | reply hpc | erasePending hpc
  | refuseSession hpc | insertSession hpc | startAccept hpc | incrementHeartbeat hpc
  | deliver hpc | discard hpc | startPacket hpc =>
    apply ReceiveStep.quiet _ (by simp [Answered, hpc])
    exact quiet_of_setWorker hpc (by decide) (by decide) rfl rfl rfl rfl rfl

/-- Every step is one of these. -/
theorem receiveStep_of_step {action : Action ι} (hstep : s.step action = some after) :
    s.ReceiveStep action after := by
  cases action with
  | recv w chunk =>
    obtain ⟨⟨hpc, hfresh⟩, rfl⟩ := recv_eq_some.mp hstep
    exact .recv hpc hfresh
  | complete chunk succ endpoint datagram =>
    obtain ⟨⟨hposted, hlength⟩, rfl⟩ := complete_eq_some.mp hstep
    exact .complete hposted hlength
  | dequeue w c =>
    obtain ⟨hpc, hmem, ⟨hshort, rfl⟩ | ⟨hfull, rfl⟩⟩ := dequeue_cases hstep
    · exact .drop hpc hmem hshort
    · exact .take hpc hmem hfull rfl
  | iocpTask w => exact receiveStep_iocpTask hstep
  | loadPending | callAccept | loadSession | loadReadIoData | readHeader | readBody
  | callPacket =>
    obtain ⟨_, _, _, _, rfl⟩ := handler_frame hstep trivial
    exact .quiet (quiet_of_worker rfl rfl rfl rfl rfl) trivial
  | tick =>
    obtain ⟨_, _, _, _, rfl⟩ := tick_frame hstep
    exact .quiet (quiet_of_worker rfl rfl rfl rfl rfl) trivial

/-! ## The invariant -/

section Initial

omit [DecidableEq ι]

/-- The chunks whose receive is outstanding or has completed and waits for a worker. -/
def inFlight (s : SessionManager ι) : List ℕ :=
  s.posted ++ s.completed.map Completion.chunk

/-- The bytes of a completion are in the buffer. -/
def Delivered (s : SessionManager ι) (chunk : ℕ) (datagram : List UInt8) : Prop :=
  (s.buffer chunk).read 0 datagram.length = datagram ∧ datagram.length ≤ socketBufSize

/-- No buffer is at two places, all are taken from the pool, and those completed or in hand hold the
bytes received. -/
structure Buffers (s : SessionManager ι) : Prop where
  liveNodup : s.live.Nodup
  flightNodup : s.inFlight.Nodup
  flightLive : ∀ chunk ∈ s.inFlight, chunk ∈ s.live
  heldLive : ∀ w, (s.worker w).pc.Holds → (s.worker w).readIoData ∈ s.live
  heldFlight : ∀ w, (s.worker w).pc.Holds → (s.worker w).readIoData ∉ s.inFlight
  heldDistinct : ∀ v w, (s.worker v).pc.Holds → (s.worker w).pc.Holds →
    (s.worker v).readIoData = (s.worker w).readIoData → v = w
  completedBytes : ∀ c ∈ s.completed, s.Delivered c.chunk c.datagram
  heldBytes : ∀ w, (s.worker w).pc.Holds →
    s.Delivered (s.worker w).readIoData (s.worker w).datagram ∧ 4 ≤ (s.worker w).datagram.length

theorem buffers_initial : (initial ι).Buffers := by
  have hidle (w : ι) : ¬ ((initial ι).worker w).pc.Holds := by
    simp [initial, Pc.Holds]
  exact {
    liveNodup := List.nodup_nil
    flightNodup := List.nodup_nil
    flightLive := by simp [inFlight, initial]
    heldLive := fun w h ↦ absurd h (hidle w)
    heldFlight := fun w h ↦ absurd h (hidle w)
    heldDistinct := fun v _ h ↦ absurd h (hidle v)
    completedBytes := by simp [initial]
    heldBytes := fun w h ↦ absurd h (hidle w) }

/-- What a step must keep when no worker gets a buffer into its hands. -/
theorem Buffers.of_held (hs : s.Buffers)
    (hheld : ∀ v, (after.worker v).pc.Holds → (s.worker v).pc.Holds ∧
      (after.worker v).readIoData = (s.worker v).readIoData ∧
      (after.worker v).datagram = (s.worker v).datagram)
    (hlive : after.live.Nodup) (hflight : after.inFlight.Nodup)
    (hflightLive : ∀ chunk ∈ after.inFlight, chunk ∈ after.live)
    (hplace : ∀ v, (after.worker v).pc.Holds → (s.worker v).readIoData ∈ after.live ∧
      (s.worker v).readIoData ∉ after.inFlight ∧
      after.buffer (s.worker v).readIoData = s.buffer (s.worker v).readIoData)
    (hbytes : ∀ c ∈ after.completed, after.Delivered c.chunk c.datagram) : after.Buffers where
  liveNodup := hlive
  flightNodup := hflight
  flightLive := hflightLive
  heldLive := by
    intro v hv
    rw [(hheld v hv).2.1]
    exact (hplace v hv).1
  heldFlight := by
    intro v hv
    rw [(hheld v hv).2.1]
    exact (hplace v hv).2.1
  heldDistinct := by
    intro u v hu hv heq
    rw [(hheld u hu).2.1, (hheld v hv).2.1] at heq
    exact hs.heldDistinct u v (hheld u hu).1 (hheld v hv).1 heq
  completedBytes := hbytes
  heldBytes := by
    intro v hv
    unfold Delivered
    rw [(hheld v hv).2.1, (hheld v hv).2.2, (hplace v hv).2.2]
    exact hs.heldBytes v (hheld v hv).1

theorem mem_inFlight {chunk : ℕ} :
    chunk ∈ s.inFlight ↔ chunk ∈ s.posted ∨ ∃ c ∈ s.completed, c.chunk = chunk := by
  simp [inFlight]

/-- Dequeuing takes exactly one chunk out of flight. -/
theorem Buffers.of_dequeue {c : Completion} (hs : s.Buffers) (hmem : c ∈ s.completed) {chunk : ℕ}
    (hchunk : chunk ∈ s.posted ++ (s.completed.erase c).map Completion.chunk) :
    chunk ∈ s.inFlight ∧ chunk ≠ c.chunk := by
  have hperm : s.inFlight.Perm
      (c.chunk :: (s.posted ++ (s.completed.erase c).map Completion.chunk)) :=
    calc
      List.Perm s.inFlight (s.posted ++ (c :: s.completed.erase c).map Completion.chunk) :=
        ((List.perm_cons_erase hmem).map Completion.chunk).append_left s.posted
      List.Perm _ _ := List.perm_middle
  have hnodup := hperm.nodup_iff.mp hs.flightNodup
  refine ⟨hperm.symm.subset (List.mem_cons_of_mem _ hchunk), ?_⟩
  intro heq
  exact (List.nodup_cons.mp hnodup).1 (heq ▸ hchunk)

theorem Buffers.nodup_dequeue (hs : s.Buffers) (c : Completion) :
    (s.posted ++ (s.completed.erase c).map Completion.chunk).Nodup := by
  apply List.Nodup.sublist _ hs.flightNodup
  exact ((List.erase_sublist).map _).append_left _

/-- A completed receive stays in flight. -/
theorem Buffers.perm_complete {chunk : ℕ} (hposted : chunk ∈ s.posted) (succ : Bool)
    (datagram : List UInt8) :
    (s.posted.erase chunk ++
      (Completion.mk chunk succ datagram :: s.completed).map Completion.chunk).Perm s.inFlight := by
  calc
    List.Perm (s.posted.erase chunk ++ chunk :: s.completed.map Completion.chunk)
        ((chunk :: s.posted.erase chunk) ++ s.completed.map Completion.chunk) := List.perm_middle
    List.Perm _ s.inFlight :=
      (List.perm_cons_erase hposted).symm.append_right (s.completed.map Completion.chunk)

end Initial

/-- A worker that goes to a point without a buffer is the only one that changes. -/
theorem held_of_goto {w v : ι} {pc : Pc} (hpc : ¬ pc.Holds)
    (hholds : ((s.goto w pc).worker v).pc.Holds) :
    v ≠ w ∧ (s.worker v).pc.Holds ∧
      ((s.goto w pc).worker v).readIoData = (s.worker v).readIoData ∧
      ((s.goto w pc).worker v).datagram = (s.worker v).datagram := by
  have hne : v ≠ w := by
    intro heq
    apply hpc
    simpa [goto, setWorker, heq] using hholds
  have hsame : (s.goto w pc).worker v = s.worker v := by
    simp [goto, setWorker, hne]
  rw [hsame] at hholds ⊢
  exact ⟨hne, hholds, rfl, rfl⟩

theorem buffers_recv {w : ι} {chunk : ℕ} (hs : s.Buffers) (hfresh : chunk ∉ s.live) :
    Buffers ({ s with
      live := chunk :: s.live
      posted := chunk :: s.posted
      remoteEndpoint := Function.update s.remoteEndpoint chunk ⟨0, 0⟩ }.goto w .waiting) := by
  have hnew : chunk ∉ s.inFlight := fun h ↦ hfresh (hs.flightLive chunk h)
  refine hs.of_held (fun v hv ↦ (held_of_goto (by decide) hv).2)
    (List.nodup_cons.mpr ⟨hfresh, hs.liveNodup⟩) (List.nodup_cons.mpr ⟨hnew, hs.flightNodup⟩)
    ?_ ?_ ?_
  · intro other hother
    rcases List.mem_cons.mp hother with heq | hold
    · exact List.mem_cons.mpr (Or.inl heq)
    · exact List.mem_cons_of_mem _ (hs.flightLive other hold)
  · intro v hv
    have hold := (held_of_goto (s := s) (by decide) hv).2.1
    refine ⟨List.mem_cons_of_mem _ (hs.heldLive v hold), ?_, rfl⟩
    intro h
    rcases List.mem_cons.mp h with heq | hflight
    · exact hfresh (heq ▸ hs.heldLive v hold)
    · exact hs.heldFlight v hold hflight
  · exact hs.completedBytes

omit [DecidableEq ι] in
theorem buffers_complete {chunk : ℕ} {succ : Bool} {endpoint : Endpoint} {datagram : List UInt8}
    (hs : s.Buffers) (hposted : chunk ∈ s.posted) (hlength : datagram.length ≤ socketBufSize) :
    Buffers { s with
      posted := s.posted.erase chunk
      completed := ⟨chunk, succ, datagram⟩ :: s.completed
      buffer := Function.update s.buffer chunk ((s.buffer chunk).write 0 datagram)
      remoteEndpoint := Function.update s.remoteEndpoint chunk endpoint } := by
  have hperm := Buffers.perm_complete hposted succ datagram
  have hmem : chunk ∈ s.inFlight := List.mem_append_left _ hposted
  refine hs.of_held (fun v hv ↦ ⟨hv, rfl, rfl⟩) hs.liveNodup
    (hperm.nodup_iff.mpr hs.flightNodup) ?_ ?_ ?_
  · intro other hother
    exact hs.flightLive other (hperm.subset hother)
  · intro v hv
    refine ⟨hs.heldLive v hv, fun h ↦ hs.heldFlight v hv (hperm.subset h), ?_⟩
    apply Function.update_of_ne
    intro heq
    exact hs.heldFlight v hv (heq ▸ hmem)
  · intro c hc
    rcases List.mem_cons.mp hc with rfl | hold
    · unfold Delivered
      simp only [Function.update_self]
      exact ⟨ByteMemory.read_write_self _ _ _, hlength⟩
    · -- the chunks completed before are not the posted one
      have hne : c.chunk ≠ chunk := by
        intro heq
        have hdisjoint := List.disjoint_of_nodup_append hs.flightNodup
        exact hdisjoint hposted (heq ▸ List.mem_map_of_mem hold)
      unfold Delivered
      simp only [Function.update_of_ne hne]
      exact hs.completedBytes c hold

omit [DecidableEq ι] in
theorem buffers_drop {c : Completion} (hs : s.Buffers) (hmem : c ∈ s.completed) :
    Buffers { s with completed := s.completed.erase c } := by
  refine hs.of_held (fun v hv ↦ ⟨hv, rfl, rfl⟩) hs.liveNodup (hs.nodup_dequeue c) ?_ ?_ ?_
  · intro chunk hchunk
    exact hs.flightLive chunk (hs.of_dequeue hmem hchunk).1
  · intro v hv
    exact ⟨hs.heldLive v hv, fun h ↦ hs.heldFlight v hv (hs.of_dequeue hmem h).1, rfl⟩
  · intro other hother
    exact hs.completedBytes other (List.mem_of_mem_erase hother)

/-- The one step by which a worker gets a buffer into its hands. -/
theorem buffers_take {w : ι} {c : Completion} {next : Branch} (hs : s.Buffers)
    (hmem : c ∈ s.completed) (hfull : 4 ≤ c.datagram.length) :
    Buffers ({ s with completed := s.completed.erase c }.setWorker w
      { s.worker w with pc := next.pc, readIoData := c.chunk, datagram := c.datagram }) := by
  have hcFlight : c.chunk ∈ s.inFlight := mem_inFlight.mpr (Or.inr ⟨c, hmem, rfl⟩)
  have hdropped := buffers_drop hs hmem
  have hother (v : ι) (hv : v ≠ w) :
      (Function.update s.worker w
        { s.worker w with pc := next.pc, readIoData := c.chunk, datagram := c.datagram }) v =
      s.worker v := Function.update_of_ne hv _ _
  exact {
    liveNodup := hs.liveNodup
    flightNodup := hs.nodup_dequeue c
    flightLive := hdropped.flightLive
    heldLive := by
      intro v hv
      by_cases hvw : v = w
      · simp only [setWorker, hvw, Function.update_self]
        exact hs.flightLive _ hcFlight
      · simp only [setWorker, hother v hvw] at hv ⊢
        exact hs.heldLive v hv
    heldFlight := by
      intro v hv
      by_cases hvw : v = w
      · simp only [setWorker, hvw, Function.update_self]
        exact fun h ↦ (hs.of_dequeue hmem h).2 rfl
      · simp only [setWorker, hother v hvw] at hv ⊢
        exact hdropped.heldFlight v hv
    heldDistinct := by
      intro u v hu hv heq
      by_cases huw : u = w
      · by_cases hvw : v = w
        · rw [huw, hvw]
        · simp only [setWorker, huw, hother v hvw, Function.update_self] at hv heq
          exact absurd (heq ▸ hcFlight) (hs.heldFlight v hv)
      · by_cases hvw : v = w
        · simp only [setWorker, hvw, hother u huw, Function.update_self] at hu heq
          exact absurd (heq ▸ hcFlight) (hs.heldFlight u hu)
        · simp only [setWorker, hother u huw, hother v hvw] at hu hv heq
          exact hs.heldDistinct u v hu hv heq
    completedBytes := hdropped.completedBytes
    heldBytes := by
      intro v hv
      by_cases hvw : v = w
      · simp only [setWorker, hvw, Function.update_self]
        exact ⟨hs.completedBytes c hmem, hfull⟩
      · simp only [setWorker, hother v hvw] at hv ⊢
        exact hs.heldBytes v hv }

theorem buffers_leak {w : ι} (hs : s.Buffers) : (s.goto w .waiting).Buffers := by
  refine hs.of_held (fun v hv ↦ (held_of_goto (by decide) hv).2) hs.liveNodup hs.flightNodup
    hs.flightLive ?_ hs.completedBytes
  intro v hv
  have hold := (held_of_goto (by decide) hv).2.1
  exact ⟨hs.heldLive v hold, hs.heldFlight v hold, rfl⟩

theorem buffers_release {w : ι} (hs : s.Buffers) (hpc : (s.worker w).pc = .free) :
    (s.free w).Buffers := by
  have hholds : (s.worker w).pc.Holds := by
    rw [hpc]
    decide
  refine hs.of_held (fun v hv ↦ (held_of_goto (by decide) hv).2) (hs.liveNodup.erase _)
    hs.flightNodup ?_ ?_ hs.completedBytes
  · intro chunk hchunk
    apply (hs.liveNodup.mem_erase_iff).mpr ⟨_, hs.flightLive chunk hchunk⟩
    intro heq
    exact hs.heldFlight w hholds (heq ▸ hchunk)
  · intro v hv
    obtain ⟨hne, hold, -⟩ := held_of_goto (s := s) (by decide) hv
    refine ⟨?_, hs.heldFlight v hold, rfl⟩
    apply (hs.liveNodup.mem_erase_iff).mpr ⟨_, hs.heldLive v hold⟩
    intro heq
    exact hne (hs.heldDistinct v w hold hholds heq)

omit [DecidableEq ι] in
theorem buffers_quiet (hs : s.Buffers) (hquiet : s.Quiet after) : after.Buffers := by
  have hflight : after.inFlight = s.inFlight := by
    unfold inFlight
    rw [hquiet.posted, hquiet.completed]
  apply hs.of_held
  · intro v hv
    exact ⟨(hquiet.holds v).mp hv, hquiet.readIoData v, hquiet.datagram v⟩
  · rw [hquiet.live]
    exact hs.liveNodup
  · rw [hflight]
    exact hs.flightNodup
  · rw [hflight, hquiet.live]
    exact hs.flightLive
  · intro v hv
    have hold := (hquiet.holds v).mp hv
    rw [hflight, hquiet.live, hquiet.buffer]
    exact ⟨hs.heldLive v hold, hs.heldFlight v hold, rfl⟩
  · rw [hquiet.completed]
    unfold Delivered
    rw [hquiet.buffer]
    exact hs.completedBytes

theorem buffers_step {action : Action ι} (hs : s.Buffers) (hstep : s.ReceiveStep action after) :
    after.Buffers := by
  cases hstep with
  | recv hpc hfresh => exact buffers_recv hs hfresh
  | complete hposted hlength => exact buffers_complete hs hposted hlength
  | drop hpc hmem hshort => exact buffers_drop hs hmem
  | take hpc hmem hfull hnext => exact buffers_take hs hmem hfull.2
  | leak hpc hfailed => exact buffers_leak hs
  | release hpc => exact buffers_release hs hpc
  | quiet hquiet hanswered => exact buffers_quiet hs hquiet

end SessionManager

end ServerCore.UdpServer
