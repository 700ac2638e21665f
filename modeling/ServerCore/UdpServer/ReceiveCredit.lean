import ServerCore.Foundation.Counting
import ServerCore.UdpServer.ReceiveBuffers

/-!
# The receive credit

Each worker posts one receive before it first waits, and one more at the end of each iteration, so
that as many receives should be outstanding as there are workers waiting for one. The loop has
`continue` statements that skip both the release of the buffer and the next receive: after a failed
completion, after a short datagram, and after a datagram from an unknown endpoint. The main theorem
says that a run keeps the credit exactly as long as none of these is taken.
-/

namespace ServerCore.UdpServer

open Foundation

namespace SessionManager

variable {ι : Type} [Fintype ι] {s after : SessionManager ι}

/-- Receives that are posted, or have completed without being dequeued. -/
def outstanding (s : SessionManager ι) : ℕ :=
  s.posted.length + s.completed.length

/-- Workers that process a completion, from the moment they dequeue it to the next receive. -/
def processing (s : SessionManager ι) : ℕ :=
  count (fun l : Worker ↦ l.pc ≠ .starting ∧ l.pc ≠ .waiting) s.worker

/-- Workers that have yet to post their first receive. -/
def unstarted (s : SessionManager ι) : ℕ :=
  count (fun l : Worker ↦ l.pc = .starting) s.worker

/-- Workers that process a completion and have not yet released its buffer. -/
def holding (s : SessionManager ι) : ℕ :=
  count (fun l : Worker ↦ l.pc.Holds) s.worker

/-- The receives outstanding and the completions in process account for all workers, and every
buffer taken from the pool is in one of these receives or in the hands of a worker. -/
def Credited (s : SessionManager ι) : Prop :=
  s.outstanding + s.processing + s.unstarted = Fintype.card ι ∧
    s.live.length = s.outstanding + s.holding

/-- Workers in `GetQueuedCompletionStatus`. -/
def waiting (s : SessionManager ι) : ℕ :=
  count (fun l : Worker ↦ l.pc = .waiting) s.worker

theorem card_eq (s : SessionManager ι) :
    s.processing + s.unstarted + s.waiting = Fintype.card ι := by
  unfold processing unstarted waiting
  rw [count_eq_sum, count_eq_sum, count_eq_sum, ← Finset.sum_add_distrib, ← Finset.sum_add_distrib]
  calc
    _ = ∑ w : ι, 1 := by
      apply Finset.sum_congr rfl
      intro w _
      cases (s.worker w).pc <;> rfl
    _ = Fintype.card ι := by
      rw [← Finset.card_eq_sum_ones, Finset.card_univ]

/-- The credit, counted from the other side. -/
theorem credited_iff :
    s.Credited ↔ s.outstanding = s.waiting ∧ s.live.length = s.outstanding + s.holding := by
  have hcard := s.card_eq
  unfold Credited
  constructor
  · intro h
    exact ⟨by omega, h.2⟩
  · intro h
    exact ⟨by omega, h.2⟩

theorem credited_initial : (initial ι).Credited := by
  rw [credited_iff]
  have hwaiting : (initial ι).waiting = 0 := count_eq_zero (by simp [initial])
  have hholding : (initial ι).holding = 0 := count_eq_zero (by simp [initial, Pc.Holds])
  rw [hwaiting, hholding]
  exact ⟨rfl, rfl⟩

variable [DecidableEq ι]

/-- One worker moves. -/
theorem counts_setWorker (s : SessionManager ι) (w : ι) (locals : Worker) :
    (s.setWorker w locals).waiting + (if (s.worker w).pc = .waiting then 1 else 0) =
        s.waiting + (if locals.pc = .waiting then 1 else 0) ∧
      (s.setWorker w locals).holding + (if (s.worker w).pc.Holds then 1 else 0) =
        s.holding + (if locals.pc.Holds then 1 else 0) :=
  ⟨count_update (fun l : Worker ↦ l.pc = .waiting) s.worker w locals,
    count_update (fun l : Worker ↦ l.pc.Holds) s.worker w locals⟩

theorem counts_goto (s : SessionManager ι) (w : ι) (pc : Pc) :
    (s.goto w pc).waiting + (if (s.worker w).pc = .waiting then 1 else 0) =
        s.waiting + (if pc = .waiting then 1 else 0) ∧
      (s.goto w pc).holding + (if (s.worker w).pc.Holds then 1 else 0) =
        s.holding + (if pc.Holds then 1 else 0) :=
  s.counts_setWorker w _

omit [Fintype ι] [DecidableEq ι] in
/-- A dequeued completion was outstanding. -/
theorem length_erase_completed {c : Completion} (hmem : c ∈ s.completed) :
    (s.completed.erase c).length + 1 = s.completed.length := by
  rw [List.length_erase_of_mem hmem]
  exact Nat.sub_add_cancel (List.length_pos_of_mem hmem)

/-- From a state with full credit, a step keeps it exactly when its worker goes on to the end of the
branch. -/
theorem credited_step_iff {action : Action ι} (hbuffers : s.Buffers) (hs : s.Credited)
    (hstep : s.ReceiveStep action after) : after.Credited ↔ s.Answered action := by
  rw [credited_iff] at hs ⊢
  obtain ⟨hcredit, hlive⟩ := hs
  unfold outstanding at hcredit hlive ⊢
  cases hstep with
  | @recv w chunk hpc hfresh =>
    have hcounts := s.counts_goto w .waiting
    have hidle : (s.worker w).pc ≠ .waiting ∧ ¬ (s.worker w).pc.Holds := by
      rcases hpc with hpc | hpc
      all_goals
        rw [hpc]
        decide
    have hwaiting : ¬ Pc.waiting.Holds := by decide
    simp only [if_neg hidle.1, if_neg hidle.2, if_true, if_neg hwaiting] at hcounts
    apply iff_of_true _ trivial
    change (chunk :: s.posted).length + s.completed.length = (s.goto w .waiting).waiting ∧
      (chunk :: s.live).length =
        (chunk :: s.posted).length + s.completed.length + (s.goto w .waiting).holding
    rw [List.length_cons, List.length_cons]
    omega
  | @complete chunk succ endpoint datagram hposted hlength =>
    apply iff_of_true _ trivial
    change (s.posted.erase chunk).length + (s.completed.length + 1) = s.waiting ∧
      s.live.length = (s.posted.erase chunk).length + (s.completed.length + 1) + s.holding
    have hpos := List.length_pos_of_mem hposted
    rw [List.length_erase_of_mem hposted]
    omega
  | @drop w c hpc hmem hshort =>
    apply iff_of_false _ hshort
    change ¬ (s.posted.length + (s.completed.erase c).length = s.waiting ∧ _)
    have hlength := length_erase_completed hmem
    omega
  | @take w c next hpc hmem hfull hnext =>
    obtain ⟨locals, hlocals⟩ : ∃ locals : Worker, locals =
      { s.worker w with pc := next.pc, readIoData := c.chunk, datagram := c.datagram } := ⟨_, rfl⟩
    have hmoved : locals.pc = next.pc := by rw [hlocals]
    rw [← hlocals]
    have hcounts := s.counts_setWorker w locals
    have hidle : ¬ (s.worker w).pc.Holds := by
      rw [hpc]
      decide
    rw [hmoved] at hcounts
    simp only [if_pos hpc, if_neg hidle, if_pos next.holds_pc,
      if_neg next.holds_pc.2.1] at hcounts
    have hlength := length_erase_completed hmem
    apply iff_of_true _ hfull
    change s.posted.length + (s.completed.erase c).length = (s.setWorker w locals).waiting ∧
      s.live.length = s.posted.length + (s.completed.erase c).length +
        (s.setWorker w locals).holding
    omega
  | @leak w hpc hfailed =>
    have hcounts := s.counts_goto w .waiting
    have hwaiting : ¬ Pc.waiting.Holds := by decide
    simp only [if_neg hpc.2.1, if_pos hpc, if_true, if_neg hwaiting] at hcounts
    apply iff_of_false _ hfailed
    change ¬ (s.posted.length + s.completed.length = (s.goto w .waiting).waiting ∧ _)
    omega
  | @release w hpc =>
    have hcounts := s.counts_goto w .recv
    have hholds : (s.worker w).pc.Holds := by
      rw [hpc]
      decide
    have hrecv : ¬ Pc.recv.Holds := by decide
    simp only [if_neg hholds.2.1, if_pos hholds, if_neg hrecv,
      if_neg (show Pc.recv ≠ .waiting by decide)] at hcounts
    have hmem := hbuffers.heldLive w hholds
    have hpos := List.length_pos_of_mem hmem
    apply iff_of_true _ (by simp [Answered, hpc])
    change s.posted.length + s.completed.length = (s.goto w .recv).waiting ∧
      (s.live.erase (s.worker w).readIoData).length =
        s.posted.length + s.completed.length + (s.goto w .recv).holding
    rw [List.length_erase_of_mem hmem]
    omega
  | quiet hquiet hanswered =>
    apply iff_of_true _ hanswered
    have hwaiting : after.waiting = s.waiting := count_congr hquiet.waiting
    have hholding : after.holding = s.holding := count_congr hquiet.holds
    rw [hquiet.posted, hquiet.completed, hquiet.live, hwaiting, hholding]
    exact ⟨hcredit, hlive⟩

/-- **Receive credit.** The outstanding receives and the completions in process account for all
workers in every state of a run, and no buffer is lost to the pool, exactly when every dequeued
completion succeeded with at least four bytes and every datagram whose endpoint is looked up is from
an endpoint that is found. -/
theorem credited_visited_iff_answered {history : List (SessionManager ι × Action ι)}
    (hrun : (system ι).Run history s) :
    (∀ seen ∈ System.visited history s, seen.Credited) ↔ System.Obeys Answered history := by
  apply hrun.forall_visited_iff_obeys Buffers
  · intro start hstart
    subst hstart
    exact ⟨buffers_initial, credited_initial⟩
  · intro state action next hbuffers _ hstep
    exact buffers_step hbuffers (receiveStep_of_step hstep)
  · intro state action next hbuffers hcredited hstep
    exact credited_step_iff hbuffers hcredited (receiveStep_of_step hstep)

/-- One datagram of three bytes and its completion. -/
def shortDatagram : List (Action (Fin 1)) :=
  [.recv 0 0, .complete 0 true ⟨1, 1⟩ [0, 0, 0], .dequeue 0 ⟨0, true, [0, 0, 0]⟩]

/-- A short datagram makes the only worker wait with no receive outstanding. -/
theorem credited_fails :
    ¬ ∀ history s, (system (Fin 1)).Run history s → s.Credited := by
  intro hclaim
  have hreplay : (System.replay step (initial (Fin 1)) shortDatagram).map
      (fun s ↦ decide (s.outstanding = 0 ∧ s.waiting = 1)) = some true := by decide
  obtain ⟨history, s, hrun, htest⟩ := System.exists_run_of_replay
    (fun s ↦ s = initial (Fin 1)) rfl hreplay
  simp only [decide_eq_true_eq] at htest
  have hcredit := (credited_iff.mp (hclaim history s hrun)).1
  omega

/-- The characterisation applied to a run that serves a heartbeat from an unknown endpoint. -/
theorem credited_visited_iff_answered_applies :
    ∃ history s, (system (Fin 1)).Run history s ∧ s.outstanding = 0 ∧
      ((∀ seen ∈ System.visited history s, seen.Credited) ↔ System.Obeys Answered history) := by
  have hreplay : (System.replay step (initial (Fin 1)) [.recv 0 0,
      .complete 0 true ⟨1, 1⟩ [0, 0, 255, 255], .dequeue 0 ⟨0, true, [0, 0, 255, 255]⟩,
      .iocpTask 0]).map (fun s ↦ decide (s.outstanding = 0)) = some true := by decide
  obtain ⟨history, s, hrun, htest⟩ := System.exists_run_of_replay
    (fun s ↦ s = initial (Fin 1)) rfl hreplay
  exact ⟨history, s, hrun, by simpa using htest, credited_visited_iff_answered hrun⟩

end SessionManager

end ServerCore.UdpServer
