import ServerCore.Server.ClientSlots

/-!
# One receive per client

No lock keeps two receives of a client apart. The accept of a client is followed by a zero-byte receive,
this by a receive, and this by a zero-byte receive again, each posted by the worker that processes the
completion before it. A context has a pointer to its client, and a receive that is still outstanding when
its client is destroyed goes on with the next client at the address, beside that client's own.

The main theorem says that a client in `clients_` has at most one receive, and `recv_buffer_` is not
written while a worker reads it, in every run in which `NewClient` constructs clients only in chunks to
which no outstanding accept or receive points.
-/

namespace ServerCore.Server

open Foundation

namespace IoType

/-- The operation is a receive. -/
def Receives (t : IoType) : Prop :=
  t = .recvReady ∨ t = .recv

/-- The operation is a receive, or the accept that is followed by the first one. -/
def Chained (t : IoType) : Prop :=
  t = .accept ∨ t.Receives

instance (t : IoType) : Decidable t.Receives :=
  inferInstanceAs (Decidable (_ ∨ _))

instance (t : IoType) : Decidable t.Chained :=
  inferInstanceAs (Decidable (_ ∨ _))

/-- A receive is posted by the last call for the completion before it. -/
theorem last_of_receive (t : IoType) : ∀ todo ∈ t.stages, ∀ c ∈ todo.head?,
    c = .prepareReceive ∨ c = .receive → todo.tail = [] ∧ t.Chained := by
  cases t <;> decide

theorem eq_recv_of_mem (t : IoType) : ∀ todo ∈ t.stages, .postReceive ∈ todo → t = .recv := by
  cases t <;> decide

end IoType

namespace AcceptLoop

variable {ι : Type} [Fintype ι]

/-- The operations with a property that are about to be posted, in flight or queued, or of which the
completion is being processed. A worker that has posted the next receive has no calls left. -/
def outstanding (s : AcceptLoop ι) (P : IoContext → Prop) [DecidablePred P] : ℕ :=
  s.server.inFlight.countP P + count (fun w : Worker ↦ w.todo ≠ [] ∧ P w.context) s.server.worker +
    s.newClient.toList.countP P

/-- The receives that have a pointer to the client. -/
def receives (s : AcceptLoop ι) (a : ℕ) : ℕ :=
  s.outstanding fun c ↦ c.ioType.Receives ∧ c.client = a

/-- The accepts and receives that have a pointer to the client. -/
def chains (s : AcceptLoop ι) (a : ℕ) : ℕ :=
  s.outstanding fun c ↦ c.ioType.Chained ∧ c.client = a

/-- A client that has been added and not removed has at most one receive, and none is in flight into its
`recv_buffer_` while a worker is in `PostReceive`. -/
structure ReceivesAlone (s : AcceptLoop ι) : Prop where
  once : ∀ a ∈ s.server.clients, s.receives a ≤ 1
  unwritten : ∀ w, (s.server.worker w).context.client ∈ s.server.clients →
    .postReceive ∈ (s.server.worker w).todo → ∀ c ∈ s.server.inFlight, c.ioType = .recv →
      c.client ≠ (s.server.worker w).context.client

/-- No accept or receive of an earlier client has a pointer to the chunk that `NewClient` uses. -/
def ChunkUnused (s : AcceptLoop ι) : AcceptLoopAction ι → Prop
  | .newClient a => s.chains a = 0
  | _ => True

instance (s : AcceptLoop ι) (action : AcceptLoopAction ι) : Decidable (s.ChunkUnused action) := by
  unfold ChunkUnused
  split <;> infer_instance

/-- Every chunk has at most one chain of receives, and workers go on along their calls. -/
structure OneChain (s : AcceptLoop ι) : Prop where
  staged : ∀ w, (s.server.worker w).todo ∈ (s.server.worker w).context.ioType.stages
  once : ∀ a, s.chains a ≤ 1

variable {s after : AcceptLoop ι}

theorem outstanding_mono (s : AcceptLoop ι) {P Q : IoContext → Prop} [DecidablePred P]
    [DecidablePred Q] (h : ∀ c, P c → Q c) : s.outstanding P ≤ s.outstanding Q := by
  have hflight : s.server.inFlight.countP P ≤ s.server.inFlight.countP Q := by
    apply List.countP_mono_left
    simpa using fun c _ ↦ h c
  have hnew : s.newClient.toList.countP P ≤ s.newClient.toList.countP Q := by
    apply List.countP_mono_left
    simpa using fun c _ ↦ h c
  have hworker : count (fun w : Worker ↦ w.todo ≠ [] ∧ P w.context) s.server.worker ≤
      count (fun w : Worker ↦ w.todo ≠ [] ∧ Q w.context) s.server.worker :=
    count_mono fun w ↦ And.imp_right (h _)
  exact Nat.add_le_add (Nat.add_le_add hflight hworker) hnew

theorem receives_le_chains (s : AcceptLoop ι) (a : ℕ) : s.receives a ≤ s.chains a :=
  s.outstanding_mono fun _ ↦ And.imp_left Or.inr

/-! ## The steps -/

variable [DecidableEq ι]

omit [Fintype ι] in
/-- A call posts at most one operation, of the client of the context, and a receive only with the last
call for an accept or a receive. -/
theorem call_posts {server next : ServerState ι} {w : ι} {accepted : Bool}
    (hstaged : (server.worker w).todo ∈ (server.worker w).context.ioType.stages)
    (hstep : server.call w accepted = some next) :
    (server.worker w).todo ≠ [] ∧ ∃ todo new, next.worker = (server.setTodo w todo).worker ∧
      next.inFlight = new ++ server.inFlight ∧ (new = [] ∨ ∃ ioType, new =
        [⟨ioType, (server.worker w).context.client, (server.worker w).context.incarnation⟩] ∧
          (ioType.Chained → todo = [] ∧ (server.worker w).context.ioType.Chained)) := by
  cases htodo : (server.worker w).todo with
  | nil => simp [ServerState.call, htodo] at hstep
  | cons c rest =>
    have hlast := IoType.last_of_receive _ _ hstaged c (by rw [htodo]; rfl)
    rw [htodo, List.tail_cons] at hlast
    refine ⟨List.cons_ne_nil _ _, ?_⟩
    have hposted (ioType : IoType) (todo : List ClientCall)
        (hafter : (server.setTodo w todo).postOperation w ioType accepted = next)
        (hchained : accepted = true → ioType.Chained →
          todo = [] ∧ (server.worker w).context.ioType.Chained) :
        ∃ todo new, next.worker = (server.setTodo w todo).worker ∧
          next.inFlight = new ++ server.inFlight ∧ (new = [] ∨ ∃ ioType, new =
            [⟨ioType, (server.worker w).context.client, (server.worker w).context.incarnation⟩] ∧
              (ioType.Chained → todo = [] ∧ (server.worker w).context.ioType.Chained)) := by
      rw [← hafter, ServerState.postOperation, ServerState.context_setTodo]
      refine ⟨todo, _, rfl, rfl, ?_⟩
      cases accepted with
      | true => exact Or.inr ⟨ioType, rfl, hchained rfl⟩
      | false => exact Or.inl rfl
    unfold ServerState.call at hstep
    rw [htodo] at hstep
    cases c with
    | addClient | postReceive | postSend =>
      have hafter := Option.some.inj hstep
      exact ⟨rest, [], (congrArg ServerState.worker hafter).symm,
        (congrArg ServerState.inFlight hafter).symm, Or.inl rfl⟩
    | removeClient =>
      refine ⟨rest, [], ?_, ?_, Or.inl rfl⟩
      all_goals
        rw [← Option.some.inj hstep, ServerState.removeClient]
        split <;> rfl
    | disconnect =>
      refine hposted .disconnect rest (Option.some.inj hstep) fun _ h ↦ ?_
      rcases h with h | h | h <;> cases h
    | prepareReceive | receive =>
      refine hposted _ _ (Option.some.inj hstep) fun haccepted _ ↦ ?_
      rw [haccepted]
      exact hlast (by decide)

omit [DecidableEq ι] in
theorem chains_takeSlot {a : ℕ} (hstep : s.takeSlot a = some after) (b : ℕ) :
    after.chains b = s.chains b + if a = b then 1 else 0 := by
  obtain ⟨⟨hidle, -, -⟩, hafter⟩ := Option.ite_none_right_eq_some.mp hstep
  rw [← Option.some.inj hafter]
  have hchained : IoType.Chained .accept := Or.inl rfl
  simp only [chains, outstanding, ServerState.construct, hidle, Option.toList_some,
    Option.toList_none, List.countP_nil, List.countP_singleton, hchained, true_and,
    decide_eq_true_eq]
  omega

omit [DecidableEq ι] in
theorem chains_acceptEx {accepted : Bool} (hstep : s.acceptEx accepted = some after) (b : ℕ) :
    after.chains b ≤ s.chains b := by
  obtain ⟨c, hc, rfl⟩ := Option.map_eq_some_iff.mp hstep
  simp only [chains, outstanding, ServerState.post, hc, Option.toList_some, Option.toList_none,
    List.countP_nil, List.countP_append]
  cases accepted with
  | true =>
    simp only [if_true]
    omega
  | false =>
    simp only [Bool.false_eq_true, if_false, List.countP_nil]
    omega

omit [DecidableEq ι] in
theorem chains_operate {ioType : IoType} {a : ℕ} {accepted : Bool} {server : ServerState ι}
    (hioType : ¬ ioType.Chained) (hstep : s.server.operate ioType a accepted = some server)
    (b : ℕ) : ({ s with server := server } : AcceptLoop ι).chains b = s.chains b := by
  obtain ⟨incarnation, -, rfl⟩ := Option.map_eq_some_iff.mp hstep
  simp only [chains, outstanding, ServerState.post, List.countP_append]
  cases accepted with
  | true => simp [hioType]
  | false => simp

theorem chains_dequeue {w : ι} {c : IoContext} {failed : Bool} {server : ServerState ι}
    (hstep : s.server.dequeue w c failed = some server) (b : ℕ) :
    ({ s with server := server } : AcceptLoop ι).chains b = s.chains b := by
  obtain ⟨⟨hidle, hmem⟩, hafter⟩ := Option.ite_none_right_eq_some.mp hstep
  rw [← Option.some.inj hafter]
  have hcalls : c.ioType.calls failed ≠ [] := by
    cases c.ioType <;> cases failed <;> decide
  have hworker := count_update (fun w : Worker ↦
    w.todo ≠ [] ∧ w.context.ioType.Chained ∧ w.context.client = b)
    s.server.worker w ⟨c, c.ioType.calls failed⟩
  have hflight := (List.perm_cons_erase hmem).countP_eq
    fun c ↦ decide (c.ioType.Chained ∧ c.client = b)
  simp only [hidle, ne_eq, not_true, false_and, if_false, hcalls, not_false_eq_true, true_and]
    at hworker
  simp only [List.countP_cons, decide_eq_true_eq] at hflight
  simp only [chains, outstanding, ne_eq]
  omega

theorem chains_call {w : ι} {accepted : Bool} {server : ServerState ι}
    (hstaged : (s.server.worker w).todo ∈ (s.server.worker w).context.ioType.stages)
    (hstep : s.server.call w accepted = some server) (b : ℕ) :
    ({ s with server := server } : AcceptLoop ι).chains b ≤ s.chains b := by
  obtain ⟨hbusy, todo, new, hworker, hflight, hnew⟩ := call_posts hstaged hstep
  have hcount := count_update (fun w : Worker ↦
    w.todo ≠ [] ∧ w.context.ioType.Chained ∧ w.context.client = b)
    s.server.worker w { s.server.worker w with todo := todo }
  change count _ (s.server.setTodo w todo).worker + _ = _ at hcount
  simp only [ne_eq, hbusy, not_false_eq_true, true_and] at hcount
  simp only [chains, outstanding, hworker, hflight, List.countP_append, ne_eq]
  have hgone : (if ¬ todo = [] ∧ (s.server.worker w).context.ioType.Chained ∧
      (s.server.worker w).context.client = b then 1 else 0) ≤
        if (s.server.worker w).context.ioType.Chained ∧ (s.server.worker w).context.client = b
        then 1 else 0 := by
    split
    case isTrue h => rw [if_pos h.2]
    case isFalse => exact Nat.zero_le _
  rcases hnew with rfl | ⟨ioType, rfl, hlast⟩
  · rw [List.countP_nil]
    omega
  · rw [List.countP_singleton]
    by_cases hposted : ioType.Chained ∧ (s.server.worker w).context.client = b
    · -- the worker has posted the next receive and is through with this one
      obtain ⟨hnil, hchained⟩ := hlast hposted.1
      rw [if_pos ⟨hchained, hposted.2⟩, if_neg (fun h ↦ h.1 hnil)] at hcount
      rw [if_pos (by simpa using hposted)]
      omega
    · rw [if_neg (by simpa using hposted)]
      omega

/-! ## Runs -/

omit [DecidableEq ι] in
theorem oneChain_initial : (initial ι).OneChain where
  staged _ := by
    change [] ∈ IoType.stages .disconnect
    decide
  once a := by
    have hidle : count (fun w : Worker ↦ w.todo ≠ [] ∧ w.context.ioType.Chained ∧
        w.context.client = a) (initial ι).server.worker = 0 := count_eq_zero fun w h ↦ h.1 rfl
    rw [chains, outstanding, hidle]
    exact Nat.zero_le _

theorem oneChain_step {action : AcceptLoopAction ι} (hs : s.OneChain)
    (hunused : s.ChunkUnused action) (hstep : s.step action = some after) : after.OneChain := by
  have hkeep {server : ServerState ι} {action : ServerAction ι}
      (hstep : s.server.step action = some server)
      (hle : ∀ b, ({ s with server := server } : AcceptLoop ι).chains b ≤ s.chains b) :
      ({ s with server := server } : AcceptLoop ι).OneChain :=
    ⟨staged_serverStep hs.staged hstep, fun b ↦ (hle b).trans (hs.once b)⟩
  cases action with
  | newClient a =>
    have hchains := chains_takeSlot hstep
    obtain ⟨-, hafter⟩ := Option.ite_none_right_eq_some.mp hstep
    refine ⟨?_, ?_⟩
    · rw [← Option.some.inj hafter]
      exact hs.staged
    · intro b
      rw [hchains b]
      by_cases hab : a = b
      · rw [if_pos hab, ← hab, show s.chains a = 0 from hunused]
      · rw [if_neg hab]
        exact hs.once b
  | acceptEx accepted =>
    have hchains := chains_acceptEx hstep
    obtain ⟨c, -, rfl⟩ := Option.map_eq_some_iff.mp hstep
    exact ⟨hs.staged, fun b ↦ (hchains b).trans (hs.once b)⟩
  | server action =>
    cases action with
    | newClient => cases hstep
    | dequeue w c failed =>
      obtain ⟨server, hserver, rfl⟩ := Option.map_eq_some_iff.mp hstep
      exact hkeep hserver fun b ↦ (chains_dequeue hserver b).le
    | call w accepted =>
      obtain ⟨server, hserver, rfl⟩ := Option.map_eq_some_iff.mp hstep
      exact hkeep hserver (chains_call (hs.staged w) hserver)
    | send a accepted | disconnect a accepted =>
      obtain ⟨server, hserver, rfl⟩ := Option.map_eq_some_iff.mp hstep
      exact hkeep hserver fun b ↦ (chains_operate (by decide) hserver b).le

omit [DecidableEq ι] in
theorem OneChain.receivesAlone (hs : s.OneChain) : s.ReceivesAlone where
  once a _ := (s.receives_le_chains a).trans (hs.once a)
  unwritten w _ hpost c hc htype hclient := by
    set a := (s.server.worker w).context.client
    have hworker : 0 < count (fun w : Worker ↦ w.todo ≠ [] ∧ w.context.ioType.Chained ∧
        w.context.client = a) s.server.worker := by
      refine Finset.card_pos.mpr ⟨w, Finset.mem_filter.mpr ⟨Finset.mem_univ w, ?_, ?_, rfl⟩⟩
      · exact List.ne_nil_of_mem hpost
      · exact Or.inr (Or.inr (IoType.eq_recv_of_mem _ _ (hs.staged w) hpost))
    have hflight : 0 < s.server.inFlight.countP fun c ↦ c.ioType.Chained ∧ c.client = a := by
      apply List.countP_pos_iff.mpr
      exact ⟨c, hc, decide_eq_true ⟨Or.inr (Or.inr htype), hclient⟩⟩
    have hone := hs.once a
    simp only [chains, outstanding] at hone
    omega

/-- **One receive per client.** In every run in which `NewClient` constructs clients only in chunks to
which no outstanding accept or receive points, every client has at most one receive from its
`AddClient` to its `RemoveClient`, and its `recv_buffer_` is not written while it is read. -/
theorem receivesAlone_of_chunkUnused {history : List (AcceptLoop ι × AcceptLoopAction ι)}
    (hrun : (system ι).Run history s) (hunused : System.Obeys ChunkUnused history) :
    ∀ seen ∈ System.visited history s, seen.ReceivesAlone := by
  have hchain := hrun.invariant_visited OneChain 
    (by rintro state rfl; exact oneChain_initial)
    (fun state action next hstate hcondition hstep ↦ oneChain_step hstate hcondition hstep) hunused
  exact fun seen hseen ↦ (hchain seen hseen).receivesAlone

/-- A client is disconnected by the application while its zero-byte receive is outstanding, and the next
one is constructed at its address and accepted. The old receive goes on with the new client. -/
def staleReceive : List (AcceptLoopAction (Fin 2)) :=
  [.newClient 1, .acceptEx true, .server (.dequeue 0 ⟨.accept, 1, 0⟩ false),
    .server (.call 0 true), .server (.call 0 true), .server (.disconnect 1 true),
    .server (.dequeue 0 ⟨.disconnect, 1, 0⟩ false), .server (.call 0 true),
    .newClient 1, .acceptEx true, .server (.dequeue 0 ⟨.accept, 1, 1⟩ false),
    .server (.call 0 true), .server (.call 0 true),
    .server (.dequeue 1 ⟨.recvReady, 1, 0⟩ true), .server (.call 1 true),
    .server (.dequeue 0 ⟨.recvReady, 1, 1⟩ false), .server (.call 0 true),
    .server (.dequeue 0 ⟨.recv, 1, 0⟩ false)]

/-- The new client has two receives, and one is in flight while a worker is about to read the
`recv_buffer_`. -/
theorem receivesAlone_fails :
    ¬ ∀ history s, (system (Fin 2)).Run history s → s.ReceivesAlone := by
  intro hclaim
  have hreplay : (System.replay step (initial (Fin 2)) staleReceive).map (fun s ↦ decide
      (1 ∈ s.server.clients ∧ s.receives 1 = 2 ∧
        .postReceive ∈ (s.server.worker 0).todo ∧ (s.server.worker 0).context.client = 1 ∧
          ⟨.recv, 1, 1⟩ ∈ s.server.inFlight)) = some true := by decide +kernel
  obtain ⟨history, s, hrun, htest⟩ := System.exists_run_of_replay
    (fun s ↦ s = initial (Fin 2)) rfl hreplay
  simp only [decide_eq_true_eq] at htest
  have honce := (hclaim history s hrun).once 1 htest.1
  omega

/-- The same clients, with the old receive brought to its end before the next client is constructed. -/
def endedReceive : List (AcceptLoopAction (Fin 2)) :=
  [.newClient 1, .acceptEx true, .server (.dequeue 0 ⟨.accept, 1, 0⟩ false),
    .server (.call 0 true), .server (.call 0 true), .server (.disconnect 1 true),
    .server (.dequeue 1 ⟨.recvReady, 1, 0⟩ true), .server (.call 1 false),
    .server (.call 1 false), .server (.dequeue 0 ⟨.disconnect, 1, 0⟩ false),
    .server (.call 0 true), .newClient 1, .acceptEx true,
    .server (.dequeue 0 ⟨.accept, 1, 1⟩ false), .server (.call 0 true), .server (.call 0 true)]

/-- The theorem applied to that run, at the end of which the second client has one receive. -/
theorem receivesAlone_of_chunkUnused_applies :
    ∃ history s, (system (Fin 2)).Run history s ∧ System.Obeys ChunkUnused history ∧
      s.receives 1 = 1 ∧ ∀ seen ∈ System.visited history s, seen.ReceivesAlone := by
  have hreplay : (System.replay
      (fun s action ↦ if ChunkUnused s action then step s action else none) (initial (Fin 2))
      endedReceive).map (fun s ↦ decide (s.receives 1 = 1)) = some true := by decide +kernel
  obtain ⟨history, s, htested, hreceives⟩ := System.exists_run_of_replay
    (fun s ↦ s = initial (Fin 2)) rfl hreplay
  obtain ⟨hrun, hunused⟩ := htested.of_tested
  exact ⟨history, s, hrun, hunused, of_decide_eq_true hreceives,
    receivesAlone_of_chunkUnused hrun hunused⟩

end AcceptLoop

end ServerCore.Server
