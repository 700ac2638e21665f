import ServerCore.Foundation.GrowingList
import ServerCore.UdpServer.SessionPlaces

/-!
# The handler threads

A session goes from place to place in one direction, so it is announced to one accept thread at most.
A thread, once started, keeps what it was started for, and a handler that was called stays called. A
worker holds a session from its lookup to the start of the packet thread.
-/

namespace ServerCore.UdpServer

open Foundation

/-- The place that a constructed session moves to next. -/
def Place.Next {ι : Type} : Place ι → Place ι → Prop
  | .constructed _, .pending | .pending, .accepting _ | .accepting _, .unlisted
  | .accepting _, .established | .established, .disconnected | .disconnected, .ended => True
  | _, _ => False

/-- The worker that filed the session, or refused it, is through with that. -/
def Place.Filed {ι : Type} : Place ι → Prop
  | .unlisted | .established | .disconnected | .ended => True
  | .constructed _ | .pending | .accepting _ => False

/-- A tick has taken the session out of `sessions_`. -/
def Place.Gone {ι : Type} (p : Place ι) : Prop :=
  p = .disconnected ∨ p = .ended

theorem Place.Next.filed {ι : Type} {p q : Place ι} (h : p.Next q) (hp : p.Filed) : q.Filed := by
  cases q with
  | unlisted | established | disconnected | ended => trivial
  | constructed | pending | accepting =>
    cases p
    all_goals first
      | exact h.elim
      | exact hp.elim

theorem Place.Next.gone {ι : Type} {p q : Place ι} (h : p.Next q) (hp : p.Gone) : q.Gone := by
  rcases hp with rfl | rfl
  · cases q with
    | ended => exact Or.inr rfl
    | _ => exact h.elim
  · exact h.elim

/-- A worker at this point is about to deliver a packet to the session it found. -/
def Pc.Delivers (pc : Pc) : Prop :=
  pc = .incrementSession ∨ pc = .startPacket

instance (pc : Pc) : Decidable pc.Delivers :=
  inferInstanceAs (Decidable (_ ∨ _))

theorem Branch.not_delivers_pc (b : Branch) : ¬ b.pc.Delivers := by
  cases b <;> decide

theorem Branch.pc_ne_startAccept (b : Branch) : b.pc ≠ .startAccept := by
  cases b <;> decide

/-- The thread keeps what it was started for, and a handler that was called stays called. -/
def AcceptThread.GoesOn {ι : Type} (t u : AcceptThread ι) : Prop :=
  u.origin = t.origin ∧ (t.called = true → u.called = true)

def PacketThread.GoesOn {ι : Type} (t u : PacketThread ι) : Prop :=
  u.origin = t.origin ∧ (t.called = true → u.called = true)

instance {ι : Type} : Std.Refl (@AcceptThread.GoesOn ι) :=
  ⟨fun _ ↦ ⟨rfl, id⟩⟩

instance {ι : Type} : Std.Refl (@PacketThread.GoesOn ι) :=
  ⟨fun _ ↦ ⟨rfl, id⟩⟩

theorem AcceptThread.goesOn_leave {ι : Type} [DecidableEq ι] (t : AcceptThread ι) (w : ι) :
    t.GoesOn (t.leave w) := by
  unfold AcceptThread.leave
  split
  all_goals exact ⟨rfl, id⟩

theorem PacketThread.goesOn_leave {ι : Type} [DecidableEq ι] (t : PacketThread ι) (w : ι) :
    t.GoesOn (t.leave w) := by
  unfold PacketThread.leave
  split
  all_goals exact ⟨rfl, id⟩

/-- The worker whose step it is. -/
def Action.worker {ι : Type} : Action ι → Option ι
  | .recv w _ | .dequeue w _ | .iocpTask w => some w
  | .complete _ _ _ _ | .loadPending _ _ | .callAccept _ | .loadSession _ _ | .loadReadIoData _ _
  | .readHeader _ | .readBody _ | .callPacket _ | .tick => none

namespace SessionManager

variable {ι : Type} [DecidableEq ι] {s after : SessionManager ι} {action : Action ι}

/-! ## The places -/

omit [DecidableEq ι] in
theorem next_of_update {x y : ℕ} {p q : Place ι} (hx : s.place x = q)
    (hplace : after.place = Function.update s.place x p) (hnext : q.Next p) :
    after.place y = s.place y ∨ (s.place y).Next (after.place y) := by
  rw [hplace]
  by_cases hyx : y = x
  · rw [hyx, Function.update_self, hx]
    exact Or.inr hnext
  · rw [Function.update_of_ne hyx]
    exact Or.inl rfl

/-- A constructed session stays where it is or moves to the next place. -/
theorem place_step (hs : s.Listed) (hstep : s.step action = some after) {y : ℕ}
    (hy : y < s.numSessions) : after.place y = s.place y ∨ (s.place y).Next (after.place y) := by
  cases action with
  | recv w chunk =>
    obtain ⟨-, rfl⟩ := recv_eq_some.mp hstep
    exact Or.inl rfl
  | complete chunk succ endpoint datagram =>
    obtain ⟨-, rfl⟩ := complete_eq_some.mp hstep
    exact Or.inl rfl
  | dequeue w c =>
    obtain ⟨-, -, ⟨-, rfl⟩ | ⟨-, rfl⟩⟩ := dequeue_cases hstep
    all_goals exact Or.inl rfl
  | loadPending | callAccept | loadSession | loadReadIoData | readHeader | readBody
  | callPacket =>
    obtain ⟨_, _, _, _, rfl⟩ := handler_frame hstep trivial
    exact Or.inl rfl
  | iocpTask w =>
    cases iocpStep_of_iocpTask hstep with
    | construct hpc =>
      left
      rw [place_construct, Function.update_of_ne (Nat.ne_of_lt hy)]
    | insertPending hpc =>
      exact next_of_update (hs.constructed w hpc) (place_setPlace _ _) trivial
    | erasePending hpc hmem =>
      exact next_of_update (hs.pending _ hmem) (place_setPlace _ _) trivial
    | refuseSession hpc | insertSession hpc =>
      exact next_of_update (hs.accepting w hpc) (place_setPlace _ _) trivial
    | incrementHeartbeat | deliver | discard => exact Or.inl (congrFun (place_addAlive _ _) y)
    | refusePending | reply | missPending | findPending | startAccept | missSession
    | findHeartbeat | findSession | startPacket | free => exact Or.inl rfl
  | tick =>
    cases tickStep_of_runTick hstep with
    | disconnect htick hmem =>
      exact next_of_update (hs.established _ hmem) (place_setPlace _ _) trivial
    | delete htick =>
      refine next_of_update (hs.disconnected _ ?_) (place_setPlace _ _) trivial
      rw [htick]
      exact List.mem_append_right _ List.mem_cons_self
    | decrement | expire | keep => exact Or.inl (congrFun (place_addAlive _ _) y)
    | wake | swept | retain | drained | notify => exact Or.inl rfl

omit [DecidableEq ι] in
theorem Listed.lt_of_place {x : ℕ} (hs : s.Listed) (hx : s.place x ≠ .unlisted) :
    x < s.numSessions := by
  by_contra hle
  exact hx (hs.fresh x (Nat.le_of_not_lt hle))

theorem gone_place_step (hs : s.Listed) (hstep : s.step action = some after) {x : ℕ}
    (hx : (s.place x).Gone) : (after.place x).Gone := by
  have hlt : x < s.numSessions := by
    apply hs.lt_of_place
    rcases hx with hx | hx
    all_goals
      rw [hx]
      exact nofun
  rcases place_step hs hstep hlt with hsame | hnext
  · rw [hsame]
    exact hx
  · exact hnext.gone hx

theorem filed_place_step (hs : s.Listed) (hstep : s.step action = some after) {x : ℕ}
    (hlt : x < s.numSessions) (hx : (s.place x).Filed) : (after.place x).Filed := by
  rcases place_step hs hstep hlt with hsame | hnext
  · rw [hsame]
    exact hx
  · exact hnext.filed hx

/-! ## The threads -/

/-- The accept thread that the step starts. -/
def newAccepts (s : SessionManager ι) : Action ι → List (AcceptThread ι)
  | .iocpTask w => if (s.worker w).pc = .startAccept then
      [⟨some w, (s.worker w).pendingSession, none, false⟩] else []
  | _ => []

/-- The packet thread that the step starts. -/
def newPackets (s : SessionManager ι) : Action ι → List (PacketThread ι)
  | .iocpTask w => if (s.worker w).pc = .startPacket then
      [⟨some w, ⟨(s.worker w).session, (s.worker w).datagram⟩, (s.worker w).readIoData, none, none,
        none, none, false⟩] else []
  | _ => []

/-- The threads that were started go on, and one may be started. -/
theorem threads_step (hstep : s.step action = some after) :
    Grows AcceptThread.GoesOn s.acceptThreads (s.newAccepts action) after.acceptThreads ∧
      Grows PacketThread.GoesOn s.packetThreads (s.newPackets action) after.packetThreads := by
  cases action with
  | recv w chunk =>
    obtain ⟨-, rfl⟩ := recv_eq_some.mp hstep
    exact ⟨.refl _, .refl _⟩
  | complete chunk succ endpoint datagram =>
    obtain ⟨-, rfl⟩ := complete_eq_some.mp hstep
    exact ⟨.refl _, .refl _⟩
  | dequeue w c =>
    obtain ⟨-, -, ⟨-, rfl⟩ | ⟨-, rfl⟩⟩ := dequeue_cases hstep
    all_goals exact ⟨.refl _, .refl _⟩
  | loadPending i value =>
    obtain ⟨t, ht, -, rfl⟩ := loadPending_eq_some.mp hstep
    exact ⟨.set ht ⟨rfl, id⟩, .refl _⟩
  | callAccept i =>
    obtain ⟨t, session, ht, -, -, rfl⟩ := callAccept_eq_some.mp hstep
    exact ⟨.set ht ⟨rfl, fun _ ↦ rfl⟩, .refl _⟩
  | loadSession i value =>
    obtain ⟨t, ht, -, rfl⟩ := loadSession_eq_some.mp hstep
    exact ⟨.refl _, .set ht ⟨rfl, id⟩⟩
  | loadReadIoData i value =>
    obtain ⟨t, ht, -, rfl⟩ := loadReadIoData_eq_some.mp hstep
    exact ⟨.refl _, .set ht ⟨rfl, id⟩⟩
  | readHeader i =>
    obtain ⟨t, chunk, ht, -, -, rfl⟩ := readHeader_eq_some.mp hstep
    exact ⟨.refl _, .set ht ⟨rfl, id⟩⟩
  | readBody i =>
    obtain ⟨t, chunk, header, ht, -, -, -, rfl⟩ := readBody_eq_some.mp hstep
    exact ⟨.refl _, .set ht ⟨rfl, id⟩⟩
  | callPacket i =>
    obtain ⟨t, session, header, body, ht, -, -, -, -, rfl⟩ := callPacket_eq_some.mp hstep
    exact ⟨.refl _, .set ht ⟨rfl, fun _ ↦ rfl⟩⟩
  | tick =>
    obtain ⟨_, _, _, _, rfl⟩ := tick_frame hstep
    exact ⟨.refl _, .refl _⟩
  | iocpTask w =>
    cases iocpStep_of_iocpTask hstep with
    | startAccept hpc =>
      rw [newAccepts, newPackets, if_pos hpc, if_neg (by rw [hpc]; decide)]
      exact ⟨.append _ _, .refl _⟩
    | startPacket hpc =>
      rw [newAccepts, newPackets, if_pos hpc, if_neg (by rw [hpc]; decide)]
      exact ⟨.refl _, .append _ _⟩
    | free hpc =>
      rw [newAccepts, newPackets, if_neg (by rw [hpc]; decide), if_neg (by rw [hpc]; decide)]
      exact ⟨.map fun t ↦ t.goesOn_leave w, .map fun t ↦ t.goesOn_leave w⟩
    | missSession hpc =>
      have hother (pc : Pc) (hne : pc ≠ .findHeartbeat ∧ pc ≠ .findSession) :
          (s.worker w).pc ≠ pc := by
        rintro rfl
        exact hpc.elim hne.1 hne.2
      rw [newAccepts, newPackets, if_neg (hother _ (by decide)), if_neg (hother _ (by decide))]
      exact ⟨.refl _, .refl _⟩
    | construct hpc | refusePending hpc | insertPending hpc | reply hpc | missPending hpc
    | findPending hpc | erasePending hpc | refuseSession hpc | insertSession hpc
    | findHeartbeat hpc | incrementHeartbeat hpc | findSession hpc | deliver hpc | discard hpc =>
      rw [newAccepts, newPackets, if_neg (by rw [hpc]; decide), if_neg (by rw [hpc]; decide)]
      exact ⟨.refl _, .refl _⟩

/-! ## The workers -/

theorem worker_step (hstep : s.step action = some after) {v : ι}
    (hv : action.worker ≠ some v) : after.worker v = s.worker v := by
  have hne {w : ι} (hw : some w ≠ some v) : v ≠ w := by
    rintro rfl
    exact hw rfl
  cases action with
  | recv w chunk =>
    obtain ⟨-, rfl⟩ := recv_eq_some.mp hstep
    exact Function.update_of_ne (hne hv) _ _
  | dequeue w c =>
    obtain ⟨-, -, ⟨-, rfl⟩ | ⟨-, rfl⟩⟩ := dequeue_cases hstep
    · rfl
    · exact Function.update_of_ne (hne hv) _ _
  | iocpTask w =>
    cases iocpStep_of_iocpTask hstep
    all_goals exact Function.update_of_ne (hne hv) _ _
  | complete chunk succ endpoint datagram =>
    obtain ⟨-, rfl⟩ := complete_eq_some.mp hstep
    rfl
  | loadPending | callAccept | loadSession | loadReadIoData | readHeader | readBody
  | callPacket =>
    obtain ⟨_, _, _, _, rfl⟩ := handler_frame hstep trivial
    rfl
  | tick =>
    obtain ⟨_, _, _, _, rfl⟩ := tick_frame hstep
    rfl

/-- What the workers hold that deliver packets or are about to start an accept thread. -/
theorem locals_step (hs : s.Listed) (hstep : s.step action = some after) {v : ι} :
    ((after.worker v).pc = .startAccept →
      (after.worker v).pendingSession = (s.worker v).pendingSession ∧
        ((s.worker v).pc = .startAccept ∧ action ≠ .iocpTask v ∨
          (s.worker v).pc = .insertSession ∧
            (after.place (s.worker v).pendingSession).Filed)) ∧
    ((after.worker v).pc.Delivers →
      ((s.worker v).pc.Delivers ∧ (after.worker v).session = (s.worker v).session) ∨
        (s.worker v).pc = .findSession ∧ s.place (after.worker v).session = .established) := by
  by_cases hv : action.worker = some v
  case neg =>
    have hsame := worker_step hstep hv
    have haction : action ≠ .iocpTask v := by
      rintro rfl
      exact hv rfl
    rw [hsame]
    exact ⟨fun h ↦ ⟨rfl, Or.inl ⟨h, haction⟩⟩, fun h ↦ Or.inl ⟨h, rfl⟩⟩
  cases action with
  | complete | loadPending | callAccept | loadSession | loadReadIoData | readHeader | readBody
  | callPacket | tick => cases hv
  | recv w chunk =>
    obtain rfl : w = v := Option.some.inj hv
    obtain ⟨-, rfl⟩ := recv_eq_some.mp hstep
    simp [goto, setWorker, Pc.Delivers]
  | dequeue w c =>
    obtain rfl : w = v := Option.some.inj hv
    obtain ⟨hpc, -, ⟨-, rfl⟩ | ⟨-, rfl⟩⟩ := dequeue_cases hstep
    · simp [hpc, Pc.Delivers]
    · simp only [setWorker, Function.update_self]
      exact ⟨fun h ↦ absurd h (Branch.pc_ne_startAccept _),
        fun h ↦ absurd h (Branch.not_delivers_pc _)⟩
  | iocpTask w =>
    obtain rfl : w = v := Option.some.inj hv
    cases iocpStep_of_iocpTask hstep with
    | refuseSession hpc | insertSession hpc =>
      simp [goto, setWorker, hpc, Place.Filed, Pc.Delivers, setPlace, place]
    | findSession hpc hfind =>
      simp only [setWorker, Function.update_self]
      refine ⟨fun hfiling ↦ absurd hfiling (by simp), fun _ ↦ Or.inr ⟨hpc, ?_⟩⟩
      exact hs.established _ (SessionMap.mem_values_of_find hfind)
    | deliver hpc =>
      simp [goto, setWorker, addAlive, hpc, Pc.Delivers]
    | construct | refusePending | insertPending | reply | missPending | findPending | erasePending
    | startAccept | missSession | findHeartbeat | incrementHeartbeat | discard | startPacket
    | free =>
      simp [SessionManager.construct, SessionManager.reply, SessionManager.startAccept,
        SessionManager.incrementHeartbeat, SessionManager.startPacket, SessionManager.free, goto,
        setWorker, Pc.Delivers]

theorem find_step (hstep : s.step action = some after) {v : ι}
    (hv : (after.worker v).pc = .findSession) :
    (s.worker v).pc = .findSession ∨ ∃ c, action = .dequeue v c := by
  by_cases haction : action.worker = some v
  case neg =>
    rw [worker_step hstep haction] at hv
    exact Or.inl hv
  cases action with
  | complete | loadPending | callAccept | loadSession | loadReadIoData | readHeader | readBody
  | callPacket | tick => cases haction
  | dequeue w c =>
    obtain rfl : w = v := Option.some.inj haction
    exact Or.inr ⟨c, rfl⟩
  | recv w chunk =>
    obtain rfl : w = v := Option.some.inj haction
    obtain ⟨-, rfl⟩ := recv_eq_some.mp hstep
    simp [goto, setWorker] at hv
  | iocpTask w =>
    obtain rfl : w = v := Option.some.inj haction
    cases iocpStep_of_iocpTask hstep
    all_goals
      simp [SessionManager.construct, SessionManager.reply, SessionManager.startAccept,
        SessionManager.incrementHeartbeat, SessionManager.startPacket, SessionManager.free, goto,
        setWorker] at hv

/-- Only the heartbeat thread changes where it stands. -/
theorem tick_step (hstep : s.step action = some after) (haction : action ≠ .tick) :
    after.tick = s.tick := by
  cases action with
  | recv w chunk =>
    obtain ⟨-, rfl⟩ := recv_eq_some.mp hstep
    rfl
  | complete chunk succ endpoint datagram =>
    obtain ⟨-, rfl⟩ := complete_eq_some.mp hstep
    rfl
  | dequeue w c =>
    obtain ⟨-, -, ⟨-, rfl⟩ | ⟨-, rfl⟩⟩ := dequeue_cases hstep
    all_goals rfl
  | iocpTask w =>
    cases iocpStep_of_iocpTask hstep
    all_goals rfl
  | loadPending | callAccept | loadSession | loadReadIoData | readHeader | readBody
  | callPacket =>
    obtain ⟨_, _, _, _, rfl⟩ := handler_frame hstep trivial
    rfl
  | tick => exact absurd rfl haction

/-- A session that is being drained is drained to the end of its call. -/
theorem notifying_step (hstep : s.step .tick = some after) {kept remaining : List ℕ} {x : ℕ}
    (htick : after.tick = .notifying kept x remaining) :
    s.tick = .draining kept (x :: remaining) ∧ ((s.session x).isAlive + (-1)).toInt = -3 := by
  cases tickStep_of_runTick hstep with
  | expire hbefore halive =>
    cases htick
    exact ⟨hbefore, halive⟩
  | _ => cases htick

/-! ## One accept thread a session -/

/-- An accept thread was started for the session, or is the next that its worker starts. -/
def Announced (s : SessionManager ι) (x : ℕ) : Prop :=
  x ∈ s.acceptThreads.map AcceptThread.origin ∨
    ∃ w, (s.worker w).pc = .startAccept ∧ (s.worker w).pendingSession = x

structure AcceptedOnce (s : SessionManager ι) : Prop where
  once : (s.acceptThreads.map AcceptThread.origin).Nodup
  starting : ∀ w, (s.worker w).pc = .startAccept →
    (s.worker w).pendingSession ∉ s.acceptThreads.map AcceptThread.origin
  apart : ∀ v w, (s.worker v).pc = .startAccept → (s.worker w).pc = .startAccept →
    (s.worker v).pendingSession = (s.worker w).pendingSession → v = w
  filed : ∀ x, s.Announced x → x < s.numSessions ∧ (s.place x).Filed

omit [DecidableEq ι] in
theorem acceptedOnce_initial : (initial ι).AcceptedOnce where
  once := List.nodup_nil
  starting := by simp [initial]
  apart := by simp [initial]
  filed x hx := by simp [Announced, initial] at hx

omit [DecidableEq ι] in
/-- Two accept threads are not for one session. -/
theorem AcceptedOnce.eq_of_origin (hs : s.AcceptedOnce) {i j : ℕ} {t u : AcceptThread ι}
    (ht : s.acceptThreads[i]? = some t) (hu : s.acceptThreads[j]? = some u)
    (horigin : t.origin = u.origin) : i = j := by
  have hlt : i < (s.acceptThreads.map AcceptThread.origin).length := by
    rw [List.length_map]
    exact (List.getElem?_eq_some_iff.mp ht).1
  apply (List.getElem?_inj hlt hs.once).mp
  rw [List.getElem?_map, List.getElem?_map, ht, hu]
  exact congrArg some horigin

theorem numSessions_step (hstep : s.step action = some after) :
    s.numSessions ≤ after.numSessions := by
  cases action with
  | recv w chunk =>
    obtain ⟨-, rfl⟩ := recv_eq_some.mp hstep
    exact le_rfl
  | complete chunk succ endpoint datagram =>
    obtain ⟨-, rfl⟩ := complete_eq_some.mp hstep
    exact le_rfl
  | dequeue w c =>
    obtain ⟨-, -, ⟨-, rfl⟩ | ⟨-, rfl⟩⟩ := dequeue_cases hstep
    all_goals exact le_rfl
  | iocpTask w =>
    cases iocpStep_of_iocpTask hstep with
    | construct => exact Nat.le_succ _
    | _ => exact le_rfl
  | loadPending | callAccept | loadSession | loadReadIoData | readHeader | readBody
  | callPacket =>
    obtain ⟨_, _, _, _, rfl⟩ := handler_frame hstep trivial
    exact le_rfl
  | tick =>
    obtain ⟨_, _, _, _, rfl⟩ := tick_frame hstep
    exact le_rfl

omit [DecidableEq ι] in
/-- A session that a worker is inserting was announced to nobody. -/
theorem AcceptedOnce.not_announced (hs : s.AcceptedOnce) (hlisted : s.Listed) {w : ι}
    (hpc : (s.worker w).pc = .insertSession) : ¬ s.Announced (s.worker w).pendingSession := by
  intro hannounced
  have hfiled := (hs.filed _ hannounced).2
  rw [hlisted.accepting w hpc] at hfiled
  exact hfiled

/-- What is announced after the step was announced before it, or has just been filed. -/
theorem announced_step (hlisted : s.Listed) (hstep : s.step action = some after) {x : ℕ}
    (hx : after.Announced x) : s.Announced x ∨ ∃ w, (s.worker w).pc = .insertSession ∧
      (s.worker w).pendingSession = x ∧ (after.place x).Filed := by
  rcases hx with hx | ⟨w, hw, rfl⟩
  · left
    rw [(threads_step hstep).1.map_eq fun _ _ h ↦ h.1, List.mem_append] at hx
    rcases hx with hx | hx
    · exact Or.inl hx
    · cases action with
      | iocpTask w =>
        rw [newAccepts] at hx
        split at hx
        case isTrue hpc => exact Or.inr ⟨w, hpc, (List.mem_singleton.mp hx).symm⟩
        case isFalse => exact absurd hx List.not_mem_nil
      | _ => exact absurd hx List.not_mem_nil
  · obtain ⟨hsame, ⟨hpc, -⟩ | ⟨hpc, hfiled⟩⟩ := (locals_step hlisted hstep).1 hw
    · exact Or.inl (Or.inr ⟨w, hpc, hsame.symm⟩)
    · exact Or.inr ⟨w, hpc, hsame.symm, hsame.symm ▸ hfiled⟩

theorem acceptedOnce_step (hs : s.AcceptedOnce) (hlisted : s.Listed)
    (hstep : s.step action = some after) : after.AcceptedOnce := by
  have horigins : after.acceptThreads.map AcceptThread.origin =
      s.acceptThreads.map AcceptThread.origin ++ (s.newAccepts action).map AcceptThread.origin :=
    (threads_step hstep).1.map_eq fun _ _ h ↦ h.1
  have hnew (x : ℕ) (hx : x ∈ (s.newAccepts action).map AcceptThread.origin) :
      ∃ w, action = .iocpTask w ∧ (s.worker w).pc = .startAccept ∧
        (s.worker w).pendingSession = x := by
    cases action with
    | iocpTask w =>
      rw [newAccepts] at hx
      split at hx
      case isTrue hpc => exact ⟨w, rfl, hpc, (List.mem_singleton.mp hx).symm⟩
      case isFalse => exact absurd hx List.not_mem_nil
    | _ => exact absurd hx List.not_mem_nil
  refine ⟨?_, ?_, ?_, ?_⟩
  · rw [horigins]
    refine List.nodup_append.mpr ⟨hs.once, ?_, ?_⟩
    · cases action with
      | iocpTask w =>
        rw [newAccepts]
        split
        case isTrue => exact List.nodup_singleton _
        case isFalse => exact List.nodup_nil
      | _ => exact List.nodup_nil
    · rintro x hx y hy rfl
      obtain ⟨w, -, hpc, rfl⟩ := hnew x hy
      exact hs.starting w hpc hx
  · intro v hv
    rw [horigins]
    obtain ⟨hsame, hcase⟩ := (locals_step hlisted hstep).1 hv
    rw [hsame]
    intro hmem
    rcases List.mem_append.mp hmem with hmem | hmem
    · rcases hcase with ⟨hpc, -⟩ | ⟨hpc, -⟩
      · exact hs.starting v hpc hmem
      · exact hs.not_announced hlisted hpc (Or.inl hmem)
    · obtain ⟨w, haction, hpc, heq⟩ := hnew _ hmem
      rcases hcase with ⟨hpcv, hne⟩ | ⟨hpcv, -⟩
      · exact hne (hs.apart w v hpc hpcv heq ▸ haction)
      · exact hs.not_announced hlisted hpcv (Or.inr ⟨w, hpc, heq⟩)
  · intro v w hv hw heq
    obtain ⟨hsamev, hcasev⟩ := (locals_step hlisted hstep).1 hv
    obtain ⟨hsamew, hcasew⟩ := (locals_step hlisted hstep).1 hw
    rw [hsamev, hsamew] at heq
    rcases hcasev with ⟨hpcv, -⟩ | ⟨hpcv, -⟩
    · rcases hcasew with ⟨hpcw, -⟩ | ⟨hpcw, -⟩
      · exact hs.apart v w hpcv hpcw heq
      · exact absurd (Or.inr ⟨v, hpcv, heq⟩) (hs.not_announced hlisted hpcw)
    · rcases hcasew with ⟨hpcw, -⟩ | ⟨hpcw, -⟩
      · exact absurd (Or.inr ⟨w, hpcw, heq.symm⟩) (hs.not_announced hlisted hpcv)
      · have hplace := hlisted.accepting v hpcv
        rw [heq, hlisted.accepting w hpcw] at hplace
        exact (Place.accepting.inj hplace).symm
  · intro x hx
    rcases announced_step hlisted hstep hx with hx | ⟨w, hpc, rfl, hfiled⟩
    · obtain ⟨hlt, hfiled⟩ := hs.filed x hx
      exact ⟨hlt.trans_le (numSessions_step hstep), filed_place_step hlisted hstep hlt hfiled⟩
    · refine ⟨(hlisted.lt_of_place ?_).trans_le (numSessions_step hstep), hfiled⟩
      simp [hlisted.accepting w hpc]

end SessionManager

end ServerCore.UdpServer
