import ServerCore.Server.ReceiveServer

/-!
# Every client has a receiver of its own

At any time at most one piece of a client is being handled, because the accepts and receives of a client
form one chain. So the buffer of a client is always where the receiver of its pieces puts it, whatever the
workers do with those of the others.
-/

namespace ServerCore.Server

open Foundation

namespace ReceiveServer

variable {ι : Type} {packetHeaderSize : BitVec 16} {s after : ReceiveServer ι}

/-- No piece that is in the buffer of the client has yet to be handled. -/
def Quiet (s : ReceiveServer ι) (a : ℕ) : Prop :=
  (∀ r ∈ s.receiving, r.client = a → r.bytes = none) ∧
    ∀ w, (s.worker w).context.client = a → s.stage w = .idle

/-- Somebody has come this far with a piece of the client. -/
inductive At (s : ReceiveServer ι) (a : ℕ) : ReceiveStage → Prop
  | quiet (hquiet : s.Quiet a) : s.At a .idle
  | arrived {r : Receiving} {n : ℕ} (hmem : r ∈ s.receiving) (hclient : r.client = a)
      (hbytes : r.bytes = some n) : s.At a (.arrived n)
  | posting {w : ι} {stage : ReceiveStage} (hclient : (s.worker w).context.client = a)
      (hstage : s.stage w = stage) (hbegun : stage ≠ .idle) : s.At a stage

/-- A receiver of the pieces that have come has called the handler in this way, and has at most one piece
yet to take. -/
def Logged (packetHeaderSize : BitVec 16) (found : List ByteMemory) (arrived : List (List UInt8)) :
    Prop :=
  ∃ stage b, Receiver.Follows packetHeaderSize stage b found arrived

/-- The worker is processing an accept or a receive. -/
def Chained (s : ReceiveServer ι) (w : ι) : Prop :=
  (s.worker w).todo ≠ [] ∧ (s.worker w).context.ioType.Chained

variable [Fintype ι]

/-- `NewClient` uses no chunk to which an outstanding accept or receive points. -/
def ChunkUnused (s : ReceiveServer ι) : ReceiveServerAction ι → Prop
  | .loop action => s.loop.ChunkUnused action
  | .arrive _ _ | .dequeue _ _ | .postReceive _ => True

instance (s : ReceiveServer ι) (action : ReceiveServerAction ι) : Decidable (s.ChunkUnused action) :=
  match action with
  | .loop action => inferInstanceAs (Decidable (s.loop.ChunkUnused action))
  | .arrive _ _ | .dequeue _ _ | .postReceive _ => inferInstanceAs (Decidable True)

/-- What holds in every run with unused chunks. -/
structure Sound (packetHeaderSize : BitVec 16) (s : ReceiveServer ι) : Prop where
  counted : s.loop.Sound
  chain : s.loop.OneChain
  receives : (s.receiving.map Receiving.context).Perm s.loop.server.receives
  posting : ∀ w, s.stage w ≠ .idle ↔ .postReceive ∈ (s.worker w).todo
  placed : ∀ r ∈ s.receiving, r.place = 0 ∧ r.room = recvBufferSize
  known : ∀ a x, s.client a = some x → x < s.loop.server.numClients
  own : ∀ a b x, s.client a = some x → s.client b = some x → a = b
  fresh : ∀ x, s.loop.server.numClients ≤ x → s.calls x = [] ∧ s.arrived x = []
  logged : ∀ x, Logged packetHeaderSize (s.calls x) (s.arrived x)
  follows : ∀ a x stage, s.client a = some x → s.At a stage →
    Receiver.Follows packetHeaderSize stage (s.recvBuffer a) (s.calls x) (s.arrived x)

/-! ## Nobody else is at a client -/

namespace Sound

variable {r other : Receiving} {v w : ι}

theorem countP_receiving (hs : s.Sound packetHeaderSize) (a : ℕ) :
    s.receiving.countP (fun r ↦ r.client = a) ≤
      s.loop.server.inFlight.countP fun c ↦ c.ioType.Chained ∧ c.client = a :=
  calc
    s.receiving.countP (fun r ↦ r.client = a) =
        (s.receiving.map Receiving.context).countP fun c ↦ c.client = a := by
      rw [List.countP_map]
      rfl
    _ = s.loop.server.receives.countP fun c ↦ c.client = a := hs.receives.countP_eq _
    _ ≤ s.loop.server.inFlight.countP fun c ↦ c.ioType.Chained ∧ c.client = a := by
      rw [ServerState.receives, List.countP_filter]
      apply List.countP_mono_left
      intro c _ hc
      simp only [Bool.and_eq_true, decide_eq_true_eq] at hc ⊢
      exact ⟨.inr (.inr hc.2), hc.1⟩

/-- A worker in `PostReceive` is processing a receive. -/
theorem chained (hs : s.Sound packetHeaderSize) (hw : s.stage w ≠ .idle) : s.Chained w := by
  have hmem := (hs.posting w).mp hw
  refine ⟨List.ne_nil_of_mem hmem, .inr (.inr ?_)⟩
  exact (IoType.eq_of_postReceive_mem _ _ (hs.counted.staged w) hmem).1

/-- The members of the chain of a client that are in flight or being processed. -/
theorem le_chains (hs : s.Sound packetHeaderSize) (a : ℕ) :
    s.receiving.countP (fun r ↦ r.client = a) +
      count (fun w : Worker ↦ w.todo ≠ [] ∧ w.context.ioType.Chained ∧ w.context.client = a)
        s.loop.server.worker ≤ s.loop.chains a := by
  have hcount := hs.countP_receiving a
  simp only [AcceptLoop.chains, AcceptLoop.outstanding]
  omega

theorem once (hs : s.Sound packetHeaderSize) (a : ℕ) : s.receiving.countP (fun r ↦ r.client = a) +
    count (fun w : Worker ↦ w.todo ≠ [] ∧ w.context.ioType.Chained ∧ w.context.client = a)
      s.loop.server.worker ≤ 1 :=
  (hs.le_chains a).trans (hs.chain.once a)

theorem count_pos_of_chained (hw : s.Chained w) {a : ℕ} (hclient : (s.worker w).context.client = a) :
    0 < count (fun w : Worker ↦ w.todo ≠ [] ∧ w.context.ioType.Chained ∧ w.context.client = a)
      s.loop.server.worker :=
  count_pos (i := w) ⟨hw.1, hw.2, hclient⟩

omit [Fintype ι] in
theorem countP_pos {receiving : List Receiving} (hr : r ∈ receiving) :
    0 < receiving.countP fun other ↦ other.client = r.client :=
  List.countP_pos_iff.mpr ⟨r, hr, decide_eq_true rfl⟩

theorem eq_of_chained (hs : s.Sound packetHeaderSize) (hv : s.Chained v) (hw : s.Chained w)
    (hclient : (s.worker v).context.client = (s.worker w).context.client) : v = w :=
  eq_of_count (le_of_add_le_right (hs.once (s.worker w).context.client)) ⟨hv.1, hv.2, hclient⟩
    ⟨hw.1, hw.2, rfl⟩

theorem ne_of_chained (hs : s.Sound packetHeaderSize) (hr : r ∈ s.receiving) (hw : s.Chained w) :
    r.client ≠ (s.worker w).context.client := by
  intro hclient
  have honce := hs.once r.client
  have hreceiving := countP_pos hr
  have hworker := count_pos_of_chained hw hclient.symm
  omega

theorem ne_of_erase (hs : s.Sound packetHeaderSize) (hr : r ∈ s.receiving)
    (hother : other ∈ s.receiving.erase r) : other.client ≠ r.client := by
  intro hclient
  have honce := hs.once r.client
  have hperm := (List.perm_cons_erase hr).countP_eq fun other ↦ decide (other.client = r.client)
  have hrest := countP_pos hother
  rw [hclient] at hrest
  rw [List.countP_cons_of_pos (by simp)] at hperm
  omega

/-- Without a piece in its buffer the client is quiet. -/
theorem quiet_of_receiving (hs : s.Sound packetHeaderSize) (hr : r ∈ s.receiving)
    (hbytes : r.bytes = none) : s.Quiet r.client := by
  constructor
  · intro other hother hclient
    rcases List.mem_cons.mp ((List.perm_cons_erase hr).mem_iff.mp hother) with rfl | hrest
    · exact hbytes
    · exact absurd hclient (hs.ne_of_erase hr hrest)
  · intro w hclient
    by_contra hbegun
    exact hs.ne_of_chained hr (hs.chained hbegun) hclient.symm

/-- So is it while a worker has yet to post its next receive. -/
theorem quiet_of_chained (hs : s.Sound packetHeaderSize) (hw : s.Chained w) (hidle : s.stage w = .idle) :
    s.Quiet (s.worker w).context.client := by
  constructor
  · intro r hr hclient
    exact absurd hclient (hs.ne_of_chained hr hw)
  · intro v hclient
    by_contra hbegun
    rw [hs.eq_of_chained (hs.chained hbegun) hw hclient] at hbegun
    exact hbegun hidle

end Sound

/-! ## The steps -/

theorem sound_initial : (initial ι).Sound packetHeaderSize where
  counted := AcceptLoop.sound_initial
  chain := AcceptLoop.oneChain_initial
  receives := List.Perm.refl _
  posting _ := iff_of_false (fun h ↦ h rfl) List.not_mem_nil
  placed r hr := absurd hr List.not_mem_nil
  known a x hx := by cases hx
  own a b x hx := by cases hx
  fresh x _ := ⟨rfl, rfl⟩
  logged x := ⟨_, _, Receiver.follows_initial⟩
  follows a x stage hx := by cases hx

omit [Fintype ι] in
/-- Nobody has come further than before. -/
theorem At.mono {a : ℕ} {stage : ReceiveStage} (hat : after.At a stage)
    (hreceiving : ∀ r ∈ after.receiving, r.client = a → r.bytes ≠ none → r ∈ s.receiving)
    (hposting : ∀ w, (after.worker w).context.client = a → after.stage w ≠ .idle →
      s.stage w = after.stage w ∧ (s.worker w).context = (after.worker w).context)
    (hquiet : after.Quiet a → s.Quiet a) : s.At a stage := by
  cases hat with
  | quiet h => exact .quiet (hquiet h)
  | arrived hmem hclient hbytes => exact .arrived (hreceiving _ hmem hclient (by simp [hbytes])) hclient hbytes
  | posting hclient hstage hbegun =>
    obtain ⟨hsame, hcontext⟩ := hposting _ hclient (hstage ▸ hbegun)
    exact .posting (by rw [hcontext, hclient]) (hsame.trans hstage) hbegun

namespace Sound

/-- A step that does nothing to the receive buffers. -/
theorem of_same (hs : s.Sound packetHeaderSize) (hcounted : after.loop.Sound)
    (hchain : after.loop.OneChain) (hclient : ∀ a x, after.client a = some x → s.client a = some x)
    (hnum : after.loop.server.numClients = s.loop.server.numClients)
    (hreceives : (after.receiving.map Receiving.context).Perm after.loop.server.receives)
    (hposting : ∀ w, after.stage w ≠ .idle ↔ .postReceive ∈ (after.worker w).todo)
    (hplaced : ∀ r ∈ after.receiving, r.place = 0 ∧ r.room = recvBufferSize)
    (hbuffer : after.recvBuffer = s.recvBuffer) (harrived : after.arrived = s.arrived)
    (hcalls : after.calls = s.calls) (hat : ∀ a stage, after.At a stage → s.At a stage) :
    after.Sound packetHeaderSize where
  counted := hcounted
  chain := hchain
  receives := hreceives
  posting := hposting
  placed := hplaced
  known a x hx := by
    rw [hnum]
    exact hs.known a x (hclient a x hx)
  own a b x ha hb := hs.own a b x (hclient a x ha) (hclient b x hb)
  fresh x hx := by
    rw [hcalls, harrived]
    exact hs.fresh x (hnum ▸ hx)
  logged x := by
    rw [hcalls, harrived]
    exact hs.logged x
  follows a x stage hx hstage := by
    rw [hbuffer, hcalls, harrived]
    exact hs.follows a x stage (hclient a x hx) (hat a stage hstage)

theorem of_fault (hs : s.Sound packetHeaderSize) (fault : Option ReceiveFault) :
    ({ s with fault := fault } : ReceiveServer ι).Sound packetHeaderSize :=
  hs.of_same hs.counted hs.chain (fun _ _ h ↦ h) rfl hs.receives hs.posting hs.placed rfl rfl rfl
    fun _ _ hat ↦ hat.mono (fun _ hr _ _ ↦ hr) (fun _ _ _ ↦ ⟨rfl, rfl⟩) fun h ↦ h

/-- A step beside `PostReceive`, which may begin a receive. -/
theorem of_beside {loop : AcceptLoop ι} (hs : s.Sound packetHeaderSize) (new : List Receiving)
    (hcounted : loop.Sound) (hchain : loop.OneChain)
    (hbeside : s.loop.server.Beside loop.server (new.map Receiving.context))
    (hnew : ∀ r ∈ new, r.place = 0 ∧ r.room = recvBufferSize ∧ r.bytes = none) :
    ({ s with
      loop := loop
      receiving := new ++ s.receiving } : ReceiveServer ι).Sound packetHeaderSize := by
  refine hs.of_same hcounted hchain hbeside.client hbeside.numClients ?_ (fun w ↦ ?_) (fun r hr ↦ ?_)
    rfl rfl rfl fun a stage hat ↦ ?_
  · rw [List.map_append]
    exact (hs.receives.append_left _).trans hbeside.receives.symm
  · exact (hs.posting w).trans (hbeside.posting w).symm
  · rcases List.mem_append.mp hr with hr | hr
    · exact ⟨(hnew r hr).1, (hnew r hr).2.1⟩
    · exact hs.placed r hr
  · refine hat.mono (fun r hr _ hbytes ↦ ?_) (fun w _ hw ↦ ?_) fun hquiet ↦ ?_
    · rcases List.mem_append.mp hr with hr | hr
      · exact absurd (hnew r hr).2.2 hbytes
      · exact hr
    · exact ⟨rfl, (hbeside.context w ((hs.posting w).mp hw)).symm⟩
    · refine ⟨fun r hr ↦ hquiet.1 r (List.mem_append_right _ hr), fun w hclient ↦ ?_⟩
      by_contra hbegun
      have hcontext := hbeside.context w ((hs.posting w).mp hbegun)
      exact hbegun (hquiet.2 w ((congrArg IoContext.client hcontext).trans hclient))

theorem quiet_of_receive {w : ι} (hs : s.Sound packetHeaderSize)
    (htodo : (s.worker w).todo.head? = some .receive) : s.Quiet (s.worker w).context.client := by
  have hstaged := hs.counted.staged w
  have hlast := IoType.last_of_receive _ _ hstaged _ htodo (.inr rfl)
  refine hs.quiet_of_chained ⟨fun hnil ↦ ?_, hlast.2⟩ ?_
  · rw [hnil] at htodo
    cases htodo
  · by_contra hbegun
    have hposting := (IoType.eq_of_postReceive_mem _ _ hstaged ((hs.posting w).mp hbegun)).2
    rw [show (s.worker w).todo = _ from hposting] at htodo
    cases htodo

/-- A step at the buffer of one client, where it leads to this stage. -/
theorem of_change {a x : ℕ} (hs : s.Sound packetHeaderSize) (next : ReceiveStage)
    (hx : s.client a = some x) (hcounted : after.loop.Sound) (hchain : after.loop.OneChain)
    (hclient : after.client = s.client)
    (hnum : after.loop.server.numClients = s.loop.server.numClients)
    (hreceives : (after.receiving.map Receiving.context).Perm after.loop.server.receives)
    (hposting : ∀ w, after.stage w ≠ .idle ↔ .postReceive ∈ (after.worker w).todo)
    (hplaced : ∀ r ∈ after.receiving, r.place = 0 ∧ r.room = recvBufferSize)
    (hbuffer : ∀ b, b ≠ a → after.recvBuffer b = s.recvBuffer b)
    (hlog : ∀ y, y ≠ x → after.calls y = s.calls y ∧ after.arrived y = s.arrived y)
    (hother : ∀ b stage, b ≠ a → after.At b stage → s.At b stage)
    (hself : ∀ stage, after.At a stage → stage = next)
    (hfollows : Receiver.Follows packetHeaderSize next (after.recvBuffer a) (after.calls x)
      (after.arrived x)) : after.Sound packetHeaderSize where
  counted := hcounted
  chain := hchain
  receives := hreceives
  posting := hposting
  placed := hplaced
  known := by
    rw [hnum, hclient]
    exact hs.known
  own := by
    rw [hclient]
    exact hs.own
  fresh y hy := by
    rw [hnum] at hy
    have hyx : y ≠ x := by
      have hknown := hs.known a x hx
      omega
    rw [(hlog y hyx).1, (hlog y hyx).2]
    exact hs.fresh y hy
  logged y := by
    by_cases hyx : y = x
    · rw [hyx]
      exact ⟨_, _, hfollows⟩
    · rw [(hlog y hyx).1, (hlog y hyx).2]
      exact hs.logged y
  follows b y stage hy hstage := by
    rw [hclient] at hy
    by_cases hb : b = a
    · subst hb
      obtain rfl : x = y := Option.some.inj (hx.symm.trans hy)
      rw [hself stage hstage]
      exact hfollows
    · have hyx : y ≠ x := by
        rintro rfl
        exact hb (hs.own b a y hy hx)
      rw [hbuffer b hb, (hlog y hyx).1, (hlog y hyx).2]
      exact hs.follows b y stage hy (hother b stage hb hstage)

variable [DecidableEq ι]

theorem of_dequeue {w : ι} {r : Receiving} {loop : AcceptLoop ι} (hs : s.Sound packetHeaderSize)
    (hmem : r ∈ s.receiving) (hcounted : loop.Sound) (hchain : loop.OneChain)
    (hdequeue : s.loop.server.dequeue w r.context r.bytes.isNone = some loop.server) :
    ({ s with
      loop := loop
      receiving := s.receiving.erase r
      stage := Function.update s.stage w (r.bytes.elim .idle .arrived) } :
        ReceiveServer ι).Sound packetHeaderSize := by
  obtain ⟨hidle, hclient, hnum, hworker, hreceives⟩ := ServerState.receives_dequeue hdequeue
  rw [if_pos (show r.context.ioType = .recv from rfl)] at hreceives
  have hstage : s.stage w = .idle := by
    by_contra hbegun
    have hposting := (hs.posting w).mp hbegun
    rw [show (s.worker w).todo = [] from hidle] at hposting
    exact List.not_mem_nil hposting
  have hperm := List.perm_cons_erase hmem
  have hself : loop.server.worker w = ⟨r.context, IoType.calls .recv r.bytes.isNone⟩ := by
    rw [hworker, Function.update_self]
    rfl
  have hothers (v : ι) (hv : v ≠ w) : loop.server.worker v = s.loop.server.worker v := by
    rw [hworker, Function.update_of_ne hv]
  refine hs.of_same hcounted hchain (fun a x h ↦ ?_) hnum ?_ (fun v ↦ ?_) (fun r' hr' ↦ ?_)
    rfl rfl rfl fun a stage hat ↦ ?_
  · exact (congrFun hclient a).symm.trans h
  · have hbefore := ((hperm.map Receiving.context).symm.trans hs.receives).trans hreceives
    exact hbefore.cons_inv
  · change Function.update s.stage w (r.bytes.elim .idle .arrived) v ≠ .idle ↔
      .postReceive ∈ (loop.server.worker v).todo
    by_cases hv : v = w
    · rw [hv, Function.update_self, hself, IoType.postReceive_mem_calls]
      cases hbytes : r.bytes with
      | none => simp
      | some n => simp
    · rw [Function.update_of_ne hv, hothers v hv]
      exact hs.posting v
  · exact hs.placed r' (List.mem_of_mem_erase hr')
  · cases hat with
    | quiet hquiet =>
      refine .quiet ⟨fun r' hr' hclient' ↦ ?_, fun v hv ↦ ?_⟩
      · rcases List.mem_cons.mp (hperm.mem_iff.mp hr') with rfl | hrest
        · -- A piece that has come would be in the hands of the worker.
          have hnone := hquiet.2 w ((congrArg (fun u : Worker ↦ u.context.client) hself).trans hclient')
          change Function.update s.stage w (r'.bytes.elim .idle .arrived) w = .idle at hnone
          rw [Function.update_self] at hnone
          cases hbytes : r'.bytes with
          | none => rfl
          | some n =>
            rw [hbytes] at hnone
            cases hnone
        · exact hquiet.1 r' hrest hclient'
      · by_cases hvw : v = w
        · rw [hvw, hstage]
        · have hnone := hquiet.2 v ((congrArg (fun u : Worker ↦ u.context.client)
            (hothers v hvw)).trans hv)
          change Function.update s.stage w (r.bytes.elim .idle .arrived) v = .idle at hnone
          rwa [Function.update_of_ne hvw] at hnone
    | arrived hmem' hclient' hbytes => exact .arrived (List.mem_of_mem_erase hmem') hclient' hbytes
    | @posting v _ hclient' hstage' hbegun =>
      change Function.update s.stage w (r.bytes.elim .idle .arrived) v = stage at hstage'
      change (loop.server.worker v).context.client = a at hclient'
      by_cases hvw : v = w
      · rw [hvw, Function.update_self] at hstage'
        rw [hvw, hself] at hclient'
        cases hbytes : r.bytes with
        | none =>
          rw [hbytes] at hstage'
          exact absurd hstage'.symm hbegun
        | some n =>
          rw [hbytes] at hstage'
          rw [← show ReceiveStage.arrived n = stage from hstage']
          exact .arrived hmem hclient' hbytes
      · rw [Function.update_of_ne hvw] at hstage'
        rw [hothers v hvw] at hclient'
        exact .posting hclient' hstage' hbegun

omit [DecidableEq ι] in
/-- Nothing of a client is handled to which no accept or receive points. -/
theorem idle_of_chains (hs : s.Sound packetHeaderSize) {a : ℕ} (hunused : s.loop.chains a = 0)
    {stage : ReceiveStage} (hat : s.At a stage) : stage = .idle := by
  have hnone := hs.le_chains a
  rw [hunused] at hnone
  cases hat with
  | quiet _ => rfl
  | arrived hmem hclient _ =>
    have hpos := countP_pos hmem
    rw [hclient] at hpos
    omega
  | posting hclient hstage hbegun =>
    rw [← hstage] at hbegun
    have hpos := count_pos_of_chained (hs.chained hbegun) hclient
    omega

omit [DecidableEq ι] in
theorem of_construct {a : ℕ} (hs : s.Sound packetHeaderSize) (hcounted : after.loop.Sound)
    (hchain : after.loop.OneChain) (hunused : s.loop.chains a = 0)
    (hclient : after.client = Function.update s.client a (some s.loop.server.numClients))
    (hnum : after.loop.server.numClients = s.loop.server.numClients + 1)
    (hreceives : after.loop.server.receives = s.loop.server.receives)
    (hworker : after.worker = s.worker)
    (hbuffer : after.recvBuffer = Function.update s.recvBuffer a (Buffer.init recvBufferSize))
    (hreceiving : after.receiving = s.receiving) (hstage : after.stage = s.stage)
    (harrived : after.arrived = s.arrived) (hcalls : after.calls = s.calls) :
    after.Sound packetHeaderSize := by
  have hself : after.client a = some s.loop.server.numClients := by
    rw [hclient, Function.update_self]
  have hothers (b : ℕ) (hb : b ≠ a) : after.client b = s.client b := by
    rw [hclient, Function.update_of_ne hb]
  have hknown (b x : ℕ) (hx : after.client b = some x) :
      b = a ∧ x = s.loop.server.numClients ∨ b ≠ a ∧ s.client b = some x := by
    by_cases hb : b = a
    · rw [hb, hself] at hx
      exact .inl ⟨hb, (Option.some.inj hx).symm⟩
    · rw [hothers b hb] at hx
      exact .inr ⟨hb, hx⟩
  have hat (b : ℕ) (stage : ReceiveStage) (h : after.At b stage) : s.At b stage := by
    refine h.mono (fun r hr _ _ ↦ hreceiving ▸ hr) (fun w _ _ ↦ ?_) fun hquiet ↦ ?_
    · rw [hstage, hworker]
      exact ⟨rfl, rfl⟩
    · unfold Quiet at hquiet
      rwa [hreceiving, hworker, hstage] at hquiet
  exact {
    counted := hcounted
    chain := hchain
    receives := by
      rw [hreceiving, hreceives]
      exact hs.receives
    posting := by
      rw [hstage, hworker]
      exact hs.posting
    placed := by
      rw [hreceiving]
      exact hs.placed
    known := fun b x hx ↦ by
      rw [hnum]
      rcases hknown b x hx with ⟨-, rfl⟩ | ⟨-, hx⟩
      · exact Nat.lt_succ_self _
      · exact Nat.lt_succ_of_lt (hs.known b x hx)
    own := fun b c x hb hc ↦ by
      rcases hknown b x hb with ⟨rfl, rfl⟩ | ⟨-, hb⟩
      · rcases hknown c _ hc with ⟨rfl, -⟩ | ⟨-, hc⟩
        · rfl
        · exact absurd (hs.known c _ hc) (lt_irrefl _)
      · rcases hknown c x hc with ⟨rfl, rfl⟩ | ⟨-, hc⟩
        · exact absurd (hs.known b _ hb) (lt_irrefl _)
        · exact hs.own b c x hb hc
    fresh := fun x hx ↦ by
      rw [hcalls, harrived]
      exact hs.fresh x (by omega)
    logged := fun x ↦ by
      rw [hcalls, harrived]
      exact hs.logged x
    follows := fun b x stage hx hstage' ↦ by
      rw [hbuffer, hcalls, harrived]
      rcases hknown b x hx with ⟨rfl, rfl⟩ | ⟨hb, hx⟩
      · rw [hs.idle_of_chains hunused (hat _ _ hstage'), Function.update_self,
          (hs.fresh _ le_rfl).1, (hs.fresh _ le_rfl).2]
        exact Receiver.follows_initial
      · rw [Function.update_of_ne hb]
        exact hs.follows b x stage hx (hat b stage hstage') }

omit [DecidableEq ι] in
theorem of_arrive {r : Receiving} {data : List UInt8} {x : ℕ} (hs : s.Sound packetHeaderSize)
    (hmem : r ∈ s.receiving) (hbytes : r.bytes = none) (hpos : 0 < data.length)
    (hroom : data.length ≤ r.room) (hx : s.client r.client = some x) :
    ({ s with
      recvBuffer := Function.update s.recvBuffer r.client { s.recvBuffer r.client with
        memory := (s.recvBuffer r.client).memory.write r.place data }
      receiving := { r with bytes := some data.length } :: s.receiving.erase r
      arrived := Function.update s.arrived x (s.arrived x ++ [data]) } :
        ReceiveServer ι).Sound packetHeaderSize := by
  have hperm := List.perm_cons_erase hmem
  obtain ⟨hplace, hspace⟩ := hs.placed r hmem
  have hidle := hs.follows r.client x .idle hx (.quiet (hs.quiet_of_receiving hmem hbytes))
  have hfill : ({ s.recvBuffer r.client with
      memory := (s.recvBuffer r.client).memory.write r.place data } : Buffer) =
        (s.recvBuffer r.client).fill data := by
    rw [Buffer.fill, hidle.idle.1, hplace]
  refine hs.of_change (.arrived data.length) hx hs.counted hs.chain rfl rfl ?_ hs.posting
    (fun r' hr' ↦ ?_) (fun b hb ↦ Function.update_of_ne hb _ _)
    (fun y hy ↦ ⟨rfl, Function.update_of_ne hy _ _⟩) (fun b stage hb hat ↦ ?_) (fun stage hat ↦ ?_) ?_
  · exact (hperm.map Receiving.context).symm.trans hs.receives
  · rcases List.mem_cons.mp hr' with rfl | hr'
    · exact ⟨hplace, hspace⟩
    · exact hs.placed r' (List.mem_of_mem_erase hr')
  · refine hat.mono (fun r' hr' hclient' hbytes' ↦ ?_) (fun _ _ _ ↦ ⟨rfl, rfl⟩) fun hquiet ↦ ?_
    · rcases List.mem_cons.mp hr' with rfl | hrest
      · exact absurd hclient'.symm hb
      · exact List.mem_of_mem_erase hrest
    · refine ⟨fun r' hr' hclient' ↦ ?_, hquiet.2⟩
      rcases List.mem_cons.mp (hperm.mem_iff.mp hr') with rfl | hrest
      · exact hbytes
      · exact hquiet.1 r' (List.mem_cons_of_mem _ hrest) hclient'
  · cases hat with
    | quiet hquiet =>
      have hnone := hquiet.1 _ List.mem_cons_self rfl
      cases hnone
    | arrived hmem' hclient' hbytes' =>
      rcases List.mem_cons.mp hmem' with rfl | hrest
      · exact congrArg ReceiveStage.arrived (Option.some.inj hbytes').symm
      · exact absurd hclient' (hs.ne_of_erase hmem hrest)
    | posting hclient' hstage' hbegun =>
      rw [← hstage'] at hbegun
      exact absurd hclient'.symm (hs.ne_of_chained hmem (hs.chained hbegun))
  · rw [hspace] at hroom
    have hnext := hidle.arrive hpos hroom
    dsimp only
    rw [Function.update_self, Function.update_self, hfill]
    exact hnext

/-- What the last step of `PostReceive` does to the worker, and the others do not. -/
theorem loop_of_postReceive {w : ι} {stage : ReceiveStage} {loop : AcceptLoop ι}
    (hs : s.Sound packetHeaderSize) (hbegun : s.stage w ≠ .idle)
    (hloop : if stage = .idle then s.loop.step (.server (.call w true)) = some loop
      else loop = s.loop) : ∃ todo, loop.server = s.loop.server.setTodo w todo ∧
        (stage ≠ .idle ↔ .postReceive ∈ todo) := by
  have hmem := (hs.posting w).mp hbegun
  have htodo := (IoType.eq_of_postReceive_mem _ _ (hs.counted.staged w) hmem).2
  by_cases hidle : stage = .idle
  · rw [if_pos hidle] at hloop
    obtain ⟨server, hserver, rfl⟩ := Option.map_eq_some_iff.mp hloop
    refine ⟨[.prepareReceive], ?_, iff_of_false (fun h ↦ h hidle) (by decide)⟩
    change s.loop.server.call w true = some server at hserver
    rw [ServerState.call, htodo] at hserver
    exact (Option.some.inj hserver).symm
  · rw [if_neg hidle] at hloop
    refine ⟨_, ?_, iff_of_true hidle hmem⟩
    rw [hloop, ServerState.setTodo]
    exact (congrArg (fun worker ↦ { s.loop.server with worker := worker })
      (Function.update_eq_self w _)).symm

theorem of_postReceive {w : ι} {x : ℕ} {stage : ReceiveStage} {b : Buffer} {loop : AcceptLoop ι}
    (hs : s.Sound packetHeaderSize) (hcounted : loop.Sound) (hchain : loop.OneChain)
    (hbegun : s.stage w ≠ .idle) (hx : s.client (s.worker w).context.client = some x)
    (hproceed : (s.recvBuffer (s.worker w).context.client).proceed packetHeaderSize.toNat
      (s.stage w) = some (stage, b))
    (hloop : if stage = .idle then s.loop.step (.server (.call w true)) = some loop
      else loop = s.loop) :
    ({ s with
      loop := loop
      recvBuffer := Function.update s.recvBuffer (s.worker w).context.client b
      stage := Function.update s.stage w stage
      calls := Function.update s.calls x (s.calls x ++
        (s.recvBuffer (s.worker w).context.client).handed (s.stage w)) } :
          ReceiveServer ι).Sound packetHeaderSize := by
  obtain ⟨todo, hserver, htodo⟩ := hs.loop_of_postReceive hbegun hloop
  have hcontext (v : ι) : (loop.server.worker v).context = (s.worker v).context := by
    rw [hserver]
    exact ServerState.context_setTodo w v todo
  have hbefore := hs.follows _ x _ hx (.posting rfl rfl hbegun)
  have hothers (v : ι) (hv : v ≠ w) : Function.update s.stage w stage v = s.stage v :=
    Function.update_of_ne hv _ _
  have hclients : loop.server.client = s.loop.server.client := by
    rw [hserver]
    rfl
  have hnum : loop.server.numClients = s.loop.server.numClients := by
    rw [hserver]
    rfl
  have hreceives : loop.server.receives = s.loop.server.receives := by
    rw [hserver]
    rfl
  refine hs.of_change stage hx hcounted hchain hclients hnum ?_ (fun v ↦ ?_) hs.placed
    (fun c hc ↦ Function.update_of_ne hc _ _) (fun y hy ↦ ⟨Function.update_of_ne hy _ _, rfl⟩)
    (fun c stage' hc hat ↦ ?_) (fun stage' hat ↦ ?_) ?_
  · exact hreceives.symm ▸ hs.receives
  · change Function.update s.stage w stage v ≠ .idle ↔ .postReceive ∈ (loop.server.worker v).todo
    rw [hserver, ServerState.todo_setTodo]
    by_cases hv : v = w
    · rw [if_pos hv, hv, Function.update_self]
      exact htodo
    · rw [if_neg hv, hothers v hv]
      exact hs.posting v
  · have hne (v : ι) (hv : (s.worker v).context.client = c) : v ≠ w := by
      rintro rfl
      exact hc hv.symm
    refine hat.mono (fun _ hr _ _ ↦ hr) (fun v hv _ ↦ ?_) fun hquiet ↦ ⟨hquiet.1, fun v hv ↦ ?_⟩
    · have hbefore := (congrArg IoContext.client (hcontext v)).symm.trans hv
      exact ⟨(hothers v (hne v hbefore)).symm, (hcontext v).symm⟩
    · have hnone := hquiet.2 v ((congrArg IoContext.client (hcontext v)).trans hv)
      exact (hothers v (hne v hv)).symm.trans hnone
  · cases hat with
    | quiet hquiet =>
      have hnone := hquiet.2 w (congrArg IoContext.client (hcontext w))
      change Function.update s.stage w stage w = .idle at hnone
      rw [Function.update_self] at hnone
      exact hnone.symm
    | arrived hmem hclient _ => exact absurd hclient (hs.ne_of_chained hmem (hs.chained hbegun))
    | @posting v _ hclient hstage hbegun' =>
      change Function.update s.stage w stage v = stage' at hstage
      by_cases hv : v = w
      · rw [hv, Function.update_self] at hstage
        exact hstage.symm
      · rw [hothers v hv] at hstage
        rw [← hstage] at hbegun'
        have hsame := (congrArg IoContext.client (hcontext v)).symm.trans hclient
        exact absurd (hs.eq_of_chained (hs.chained hbegun') (hs.chained hbegun) hsame) hv
  · dsimp only
    rw [Function.update_self, Function.update_self]
    exact hbefore.proceed hproceed

theorem of_step {action : ReceiveServerAction ι} (hs : s.Sound packetHeaderSize)
    (hunused : s.ChunkUnused action) (hstep : s.step packetHeaderSize action = some after) :
    after.Sound packetHeaderSize := by
  have hloops {action : AcceptLoopAction ι} {loop : AcceptLoop ι}
      (hloop : s.loop.step action = some loop) (hfree : s.loop.ChunkUnused action) :
      loop.Sound ∧ loop.OneChain :=
    ⟨AcceptLoop.sound_step hs.counted hloop, AcceptLoop.oneChain_step hs.chain hfree hloop⟩
  cases step_cases hs.counted hstep with
  | freed => exact hs.of_fault _
  | overrun => exact hs.of_fault _
  | @construct a loop hloop =>
    obtain ⟨hcounted, hchain⟩ := hloops hloop hunused
    obtain ⟨-, hafter⟩ := Option.ite_none_right_eq_some.mp hloop
    rw [← Option.some.inj hafter] at hcounted hchain ⊢
    exact hs.of_construct hcounted hchain hunused rfl rfl rfl rfl rfl rfl rfl rfl rfl
  | other hnew hloop hbeside =>
    obtain ⟨hcounted, hchain⟩ := hloops hloop hunused
    exact hs.of_beside [] hcounted hchain hbeside fun r hr ↦ absurd hr List.not_mem_nil
  | @receive w accepted loop x new hclient htodo hloop hbeside hnew =>
    obtain ⟨hcounted, hchain⟩ := hloops hloop trivial
    refine hs.of_beside new hcounted hchain hbeside fun r hr ↦ ?_
    obtain ⟨hr, hplace, hroom, hbytes⟩ := hnew r hr
    have hempty := (hs.follows _ x .idle hclient (.quiet (hs.quiet_of_receive htodo))).idle
    rw [hplace, hroom, hr]
    exact ⟨hempty.1, hempty.2, hbytes⟩
  | arrive hmem hbytes hpos hroom hclient => exact hs.of_arrive hmem hbytes hpos hroom hclient
  | dequeue hmem hloop =>
    obtain ⟨hcounted, hchain⟩ := hloops hloop trivial
    obtain ⟨server, hserver, hafter⟩ := Option.map_eq_some_iff.mp hloop
    rw [← hafter] at hcounted hchain ⊢
    exact hs.of_dequeue hmem hcounted hchain hserver
  | @postReceive w x stage b loop hbegun hclient hproceed hloop =>
    have hboth : loop.Sound ∧ loop.OneChain := by
      by_cases hidle : stage = .idle
      · rw [if_pos hidle] at hloop
        exact hloops hloop trivial
      · rw [if_neg hidle] at hloop
        rw [hloop]
        exact ⟨hs.counted, hs.chain⟩
    exact hs.of_postReceive hboth.1 hboth.2 hbegun hclient hproceed hloop

end Sound

/-! ## Runs -/

variable [DecidableEq ι]

/-- The server is as good as one receiver for each client. What the handlers found is what those of the
receivers found in all pieces but possibly the last, a quiet client has a buffer like its receiver, no worker
waits in `PostReceive`, and with a header of two bytes none leaves a block. -/
structure Serial (packetHeaderSize : BitVec 16) (s : ReceiveServer ι) : Prop where
  logged : ∀ x, ∃ history r, (Receiver.system packetHeaderSize).Run history r ∧
    s.calls x = Receiver.calls packetHeaderSize history ∧
    Receiver.taken history <+: s.arrived x ∧ (s.arrived x).length ≤ history.length + 1
  quiet : ∀ a x, s.client a = some x → s.Quiet a → ∃ history r,
    (Receiver.system packetHeaderSize).Run history r ∧ r.faulted = false ∧
      s.calls x = Receiver.calls packetHeaderSize history ∧ s.arrived x = Receiver.taken history ∧
        s.recvBuffer a = r.recvBuffer
  unblocked : s.fault = none → ∀ w, s.stage w ≠ .idle →
    (s.step packetHeaderSize (.postReceive w)).isSome
  contained : packetHeaderSize = 2 → s.fault ≠ some .overrun

namespace Sound

/-- A worker in `PostReceive` can always go on. -/
theorem isSome_step {w : ι} (hs : s.Sound packetHeaderSize) (hdefined : s.fault = none)
    (hbegun : s.stage w ≠ .idle) : (s.step packetHeaderSize (.postReceive w)).isSome := by
  have hstep : s.step packetHeaderSize (.postReceive w) = s.postReceive packetHeaderSize w :=
    if_pos hdefined
  rw [hstep, postReceive, if_neg hbegun]
  cases hclient : s.client (s.worker w).context.client with
  | none => rfl
  | some x =>
    dsimp only
    by_cases hoverruns : (s.recvBuffer (s.worker w).context.client).Overruns (s.stage w)
    · rw [if_pos hoverruns]
      rfl
    · rw [if_neg hoverruns]
      have hfollows := hs.follows _ x _ hclient (.posting rfl rfl hbegun)
      have hproceed := (hfollows.goes_on hbegun).resolve_right hoverruns
      obtain ⟨⟨stage, b⟩, hproceed⟩ := Option.isSome_iff_exists.mp hproceed
      rw [hproceed, Option.bind_some, posted, Option.isSome_map]
      by_cases hidle : stage = .idle
      · have htodo := (IoType.eq_of_postReceive_mem _ _ (hs.counted.staged w)
          ((hs.posting w).mp hbegun)).2
        have hcall : (s.loop.server.call w true).isSome := by
          rw [ServerState.call, htodo]
          rfl
        rw [if_pos hidle]
        exact (Option.isSome_map ..).trans hcall
      · rw [if_neg hidle]
        rfl

theorem serial (hs : s.Sound packetHeaderSize)
    (hcontained : packetHeaderSize = 2 → s.fault ≠ some .overrun) : s.Serial packetHeaderSize where
  logged x := by
    obtain ⟨stage, b, hfollows⟩ := hs.logged x
    exact hfollows.waiting_le
  quiet a x hx hquiet := by
    obtain ⟨history, r, waiting, hrun, hcalls, harrived, rfl, hdefined, hbuffer⟩ :=
      hs.follows a x .idle hx (.quiet hquiet)
    rw [List.append_nil] at harrived
    exact ⟨history, r, hrun, hdefined, hcalls, harrived, hbuffer⟩
  unblocked hdefined _ hbegun := hs.isSome_step hdefined hbegun
  contained := hcontained

end Sound

theorem contained_step {action : ReceiveServerAction ι} (hs : s.Sound packetHeaderSize)
    (hcontained : packetHeaderSize = 2 → s.fault ≠ some .overrun)
    (hstep : s.step packetHeaderSize action = some after) :
    packetHeaderSize = 2 → after.fault ≠ some .overrun := by
  cases step_cases hs.counted hstep with
  | freed =>
    intro _ h
    cases h
  | @overrun w x hclient hoverruns =>
    rintro rfl
    by_cases hbegun : s.stage w = .idle
    · rw [hbegun] at hoverruns
      exact hoverruns.elim
    · exact absurd hoverruns (hs.follows _ _ _ hclient (.posting rfl rfl hbegun)).not_overruns
  | construct | other | receive | arrive | dequeue | postReceive => exact hcontained

/-- **One receiver per client.** In every run in which `NewClient` constructs clients only in chunks to which
no outstanding accept or receive points, all the workers together handle the pieces of each client as one
receiver does that takes them one after the other. -/
theorem serial_of_chunkUnused {history : List (ReceiveServer ι × ReceiveServerAction ι)}
    (hrun : (system packetHeaderSize ι).Run history s) (hunused : System.Obeys ChunkUnused history) :
    ∀ seen ∈ System.visited history s, seen.Serial packetHeaderSize := by
  have hinvariant := hrun.invariant_visited
    (fun s ↦ s.Sound packetHeaderSize ∧ (packetHeaderSize = 2 → s.fault ≠ some .overrun))
    (by
      rintro start rfl
      exact ⟨sound_initial, fun _ h ↦ by cases h⟩)
    (fun state action next hstate hcondition hstep ↦
      ⟨hstate.1.of_step hcondition hstep, contained_step hstate.1 hstate.2 hstep⟩) hunused
  intro seen hseen
  obtain ⟨hs, hcontained⟩ := hinvariant seen hseen
  exact hs.serial hcontained

/-- Two clients are accepted, a packet comes to each, and both handlers are called before one returns. -/
def twoClients : List (ReceiveServerAction (Fin 2)) :=
  [.loop (.newClient 1), .loop (.acceptEx true), .loop (.newClient 2), .loop (.acceptEx true),
    .loop (.server (.dequeue 0 ⟨.accept, 1, 0⟩ false)), .loop (.server (.call 0 true)),
    .loop (.server (.call 0 true)), .loop (.server (.dequeue 1 ⟨.accept, 2, 1⟩ false)),
    .loop (.server (.call 1 true)), .loop (.server (.call 1 true)),
    .loop (.server (.dequeue 0 ⟨.recvReady, 1, 0⟩ false)), .loop (.server (.call 0 true)),
    .loop (.server (.dequeue 1 ⟨.recvReady, 2, 1⟩ false)), .loop (.server (.call 1 true)),
    .arrive ⟨1, 0, 0, 512, none⟩ [1, 0, 65], .arrive ⟨2, 1, 0, 512, none⟩ [1, 0, 66],
    .dequeue 0 ⟨1, 0, 0, 512, some 3⟩, .dequeue 1 ⟨2, 1, 0, 512, some 3⟩,
    .postReceive 0, .postReceive 1, .postReceive 0, .postReceive 1, .postReceive 0, .postReceive 1]

/-- The theorem applied to that run. -/
theorem serial_of_chunkUnused_applies :
    ∃ history s, (system 2 (Fin 2)).Run history s ∧ System.Obeys ChunkUnused history ∧
      ((s.calls 0).length = 1 ∧ (s.calls 1).length = 1 ∧ s.stage 0 = .called 3 ∧
        s.stage 1 = .called 3) ∧ ∀ seen ∈ System.visited history s, seen.Serial 2 := by
  have hreplay : (System.replay
      (fun s action ↦ if ChunkUnused s action then step 2 s action else none) (initial (Fin 2))
      twoClients).map (fun s ↦ decide ((s.calls 0).length = 1 ∧ (s.calls 1).length = 1 ∧
        s.stage 0 = .called 3 ∧ s.stage 1 = .called 3)) = some true := by decide +kernel
  obtain ⟨history, s, htested, hcalled⟩ := System.exists_run_of_replay
    (fun s ↦ s = initial (Fin 2)) rfl hreplay
  obtain ⟨hrun, hunused⟩ := htested.of_tested
  exact ⟨history, s, hrun, hunused, of_decide_eq_true hcalled, serial_of_chunkUnused hrun hunused⟩

end ReceiveServer

end ServerCore.Server
