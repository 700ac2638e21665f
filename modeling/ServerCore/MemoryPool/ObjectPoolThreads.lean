import ServerCore.MemoryPool.ObjectPoolRun

/-!
# Thread slots

Any number of threads may use an `ObjectPool`, among them the detached thread that the dispatcher
starts for each data datagram, which allocates from `Packet::data_pool_`. `object_pool()` gives each
new thread the next id and never takes one back. Here a call is carried on to its undefined behaviour:
the thread has its id by then, and the run ends.

The main theorem says which runs keep every id inside `object_pool_array_`, the ids of different
threads apart and the tags right: those in which no new thread comes once 64 threads have come.
-/

namespace ServerCore.MemoryPool

open Foundation

/-- A pool and the undefined behaviour that ended the run. -/
structure AttemptedPool (ι : Type) where
  pool : ObjectPool ι
  fault : Option Fault

namespace ObjectPool

variable {ι : Type} [DecidableEq ι] {o : Instantiation} {s : ObjectPool ι} {free : ℕ → List ℕ}
  {t : ι} {call : ObjectPoolCall ι}

/-- `object_pool()` up to the assignment of `thread_id_`, before the store into the array. -/
def enter (s : ObjectPool ι) (t : ι) : ObjectPool ι :=
  if s.threadId t ≠ 0 then s
  else { s with
    threadIdCounter := s.threadIdCounter + 1
    threadId := Function.update s.threadId t (s.threadIdCounter + 1) }

/-- The call, up to its undefined behaviour if it has some. -/
def attempt (o : Instantiation) (s : ObjectPool ι) (call : ObjectPoolCall ι) : AttemptedPool ι :=
  match s.perform o call with
  | .ok (_, after) => ⟨after, none⟩
  | .error fault => ⟨(call.caller.map s.enter).getD s, some fault⟩

/-- All threads and clients on a heap, until the first undefined behaviour. -/
def attempts (ι : Type) [DecidableEq ι] (o : Instantiation) :
    System (AttemptedPool ι) (ObjectPoolCall ι) where
  init s := ∃ heap, s = ⟨initial ι heap, none⟩
  step s call after := s.fault = none ∧ s.pool.Allowed o call ∧ s.pool.attempt o call = after

/-- Ids are indices of the array, different threads have different ones, and the tag of a live chunk
selects the slot of the thread that allocated it. -/
structure SlotsValid (o : Instantiation) (s : ObjectPool ι) : Prop where
  index : ∀ t, s.threadId t ≤ maxThreadNum
  unique : ∀ t u, s.threadId t ≠ 0 → s.threadId t = s.threadId u → t = u
  allocated : ∀ id, ∀ chunk ∈ s.live id, id ≠ 0 ∧ ∃ t, s.threadId t = id
  selects : ∀ t, ∀ chunk ∈ s.live (s.threadId t), o.tag s.heap chunk = s.threadId t ∧
    ∃ pool, s.objectPoolArray (s.threadId t) = some pool ∧ chunk ∈ pool.chunks o.platform

/-- A thread comes only if it has come before or 63 others at most have. -/
def Roomy (s : AttemptedPool ι) (call : ObjectPoolCall ι) : Prop :=
  ∀ t, call.caller = some t → s.pool.HasRoom t

omit [DecidableEq ι] in
theorem Owned.slotsValid (hs : s.Owned o free) : s.SlotsValid o where
  index t := (hs.1.le_counter t).trans hs.1.bounded
  unique := hs.1.injective
  allocated := by
    intro id chunk hlive
    obtain ⟨pool, hpool, -⟩ := hs.2.exists_pool hlive
    exact (hs.1.named id).mp (by simp [hpool])
  selects := by
    intro t chunk hlive
    exact ⟨hs.2.tagged _ chunk hlive, hs.2.exists_pool hlive⟩

/-- Entering with an id left assigns that one. -/
theorem slotsValid_enter (hs : s.Owned o free) (hroom : s.HasRoom t) :
    (s.enter t).SlotsValid o := by
  have hvalid := hs.slotsValid
  unfold enter
  split
  · exact hvalid
  · rename_i hnew
    have hlt : s.threadIdCounter < maxThreadNum := hroom.resolve_left hnew
    rw [not_not] at hnew
    have hunused : s.live (s.threadIdCounter + 1) = [] := (hs.2.absent _ hs.1.next_absent).2
    have hother (u : ι) (hne : u ≠ t) :
        Function.update s.threadId t (s.threadIdCounter + 1) u = s.threadId u :=
      Function.update_of_ne hne _ _
    have hself : Function.update s.threadId t (s.threadIdCounter + 1) t = s.threadIdCounter + 1 :=
      Function.update_self _ _ _
    exact {
      index := by
        intro u
        by_cases hne : u = t
        · simp only [hne, hself]
          exact hlt
        · simp only [hother u hne]
          exact hvalid.index u
      unique := by
        intro u v hu huv
        have hle := hs.1.le_counter
        by_cases hut : u = t
        · by_cases hvt : v = t
          · rw [hut, hvt]
          · simp only [hut, hself, hother v hvt] at huv
            have hv := hle v
            omega
        · simp only [hother u hut] at hu huv
          by_cases hvt : v = t
          · simp only [hvt, hself] at huv
            have hu' := hle u
            omega
          · simp only [hother v hvt] at huv
            exact hvalid.unique u v hu huv
      allocated := by
        intro id chunk hlive
        obtain ⟨hne, u, hu⟩ := hvalid.allocated id chunk hlive
        have hut : u ≠ t := by
          rintro rfl
          exact hne (hu.symm.trans hnew)
        exact ⟨hne, u, by simpa only [hother u hut] using hu⟩
      selects := by
        intro u chunk hlive
        by_cases hne : u = t
        · simp only [hne, hself, hunused, List.not_mem_nil] at hlive
        · simp only [hother u hne] at hlive ⊢
          exact hvalid.selects u chunk hlive }

/-- One more thread than there are ids gets one behind the end of the array. -/
theorem not_slotsValid_enter (hfull : ¬ s.HasRoom t) :
    ¬ (s.enter t).SlotsValid o := by
  intro hvalid
  have hindex := hvalid.index t
  unfold HasRoom at hfull
  have hnew : s.threadId t = 0 := by omega
  simp only [enter, hnew, ne_eq, not_true, if_false, Function.update_self] at hindex
  omega

/-- A call keeps the slots valid exactly if there is room for its thread. -/
theorem slotsValid_attempt_iff (hs : s.Owned o free) (hallowed : s.Allowed o call) :
    (s.attempt o call).pool.SlotsValid o ↔ ∀ t, call.caller = some t → s.HasRoom t := by
  unfold attempt
  cases hresult : s.perform o call with
  | ok value =>
    obtain ⟨result, after⟩ := value
    have hroom := hasRoom_of_perform hresult
    obtain ⟨⟨free', howned⟩, -⟩ := perform_spec hs hroom hallowed hresult
    exact iff_of_true howned.slotsValid hroom
  | error fault =>
    cases hcaller : call.caller with
    | none => exact iff_of_true hs.slotsValid (by simp)
    | some t =>
      simp only [Option.map_some, Option.getD_some, Option.some.injEq, forall_eq']
      constructor
      · intro hvalid
        by_contra hfull
        exact not_slotsValid_enter hfull hvalid
      · intro hroom
        exact slotsValid_enter hs hroom

/-- Before the run has ended, memory is in order. -/
theorem owned_attempt (hs : s.Owned o free) (hallowed : s.Allowed o call)
    (hnone : (s.attempt o call).fault = none) : ∃ list, (s.attempt o call).pool.Owned o list := by
  unfold attempt at hnone ⊢
  cases hresult : s.perform o call with
  | ok value =>
    obtain ⟨result, after⟩ := value
    exact (perform_spec hs (hasRoom_of_perform hresult) hallowed hresult).1
  | error fault => simp [hresult] at hnone

/-- **Thread slots.** For any threads, in a run of any length, all ids are indices of the array and
unique and all tags select the slots of the threads that allocated, in every state, if and only if no
new thread comes once 64 have come. -/
theorem slotsValid_visited_iff_roomy {history : List (AttemptedPool ι × ObjectPoolCall ι)}
    {state : AttemptedPool ι} (hrun : (attempts ι o).Run history state) :
    (∀ seen ∈ System.visited history state, seen.pool.SlotsValid o) ↔
      System.Obeys Roomy history := by
  apply hrun.forall_visited_iff_obeys
    fun state ↦ state.fault = none → ∃ free, state.pool.Owned o free
  · rintro state ⟨heap, rfl⟩
    have howned : (initial ι heap).Owned o fun _ ↦ [] :=
      ⟨identified_initial heap, shared_initial heap⟩
    exact ⟨fun _ ↦ ⟨_, howned⟩, howned.slotsValid⟩
  · rintro state call after hinv - ⟨hrunning, hallowed, rfl⟩ hnone
    obtain ⟨free, hs⟩ := hinv hrunning
    exact owned_attempt hs hallowed hnone
  · rintro state call after hinv - ⟨hrunning, hallowed, rfl⟩
    obtain ⟨free, hs⟩ := hinv hrunning
    exact slotsValid_attempt_iff hs hallowed

/-- Pools of 2-byte objects with 4-byte chunks. -/
def tiny : Instantiation := ⟨.win32, 2, 2, le_rfl, by decide⟩

instance (s : ObjectPool ι) (t : ι) (answer : Answer) : Decidable (s.FreshFor o t answer) := by
  unfold FreshFor
  infer_instance

/-- A pool that no thread has used. -/
def untouched : AttemptedPool ℕ := ⟨initial ℕ ⟨fun _ ↦ 0, []⟩, none⟩

/-- The steps that call `Malloc`, as a function. -/
def mallocStep (s : AttemptedPool ℕ) : ObjectPoolCall ℕ → Option (AttemptedPool ℕ)
  | .malloc t answer =>
    if s.fault = none ∧ s.pool.FreshFor tiny t answer then
      some (s.pool.attempt tiny (.malloc t answer))
    else none
  | _ => none

theorem run_of_mallocStep {history : List (AttemptedPool ℕ × ObjectPoolCall ℕ)}
    {state : AttemptedPool ℕ}
    (hrun : (System.ofStep (fun s ↦ s = untouched) mallocStep).Run history state) :
    (attempts ℕ tiny).Run history state := by
  apply hrun.mono
  · rintro state rfl
    exact ⟨_, rfl⟩
  · intro state call after hstep
    cases call with
    | malloc t answer =>
      obtain ⟨⟨hrunning, hfresh⟩, hafter⟩ := Option.ite_none_right_eq_some.mp hstep
      exact ⟨hrunning, hfresh, Option.some.inj hafter⟩
    | _ => cases hstep

/-- The first `n` threads call `Malloc` once each, every one in a block of its own. -/
def callers (n : ℕ) : List (ObjectPoolCall ℕ) :=
  (List.range n).map fun t ↦ .malloc t ⟨512 * (t + 1), fun _ ↦ 0⟩

set_option maxRecDepth 20000 in
/-- The 65th thread is given an index behind the end of the array. -/
theorem slotsValid_fails :
    ¬ ∀ history s, (attempts ℕ tiny).Run history s → s.pool.SlotsValid tiny := by
  intro hclaim
  have hreplay : (System.replay mallocStep untouched (callers 65)).map
      (fun s ↦ decide (s.pool.threadId 64 = 65)) = some true := by
    decide +kernel
  obtain ⟨history, s, hrun, htest⟩ := System.exists_run_of_replay (fun s ↦ s = untouched) rfl hreplay
  simp only [decide_eq_true_eq] at htest
  have hindex := (hclaim history s (run_of_mallocStep hrun)).index 64
  rw [htest] at hindex
  exact absurd hindex (by decide)

/-- The characterisation applied to three threads. -/
theorem slotsValid_visited_iff_roomy_applies :
    ∃ history s, (attempts ℕ tiny).Run history s ∧ s.pool.threadIdCounter = 3 ∧
      ((∀ seen ∈ System.visited history s, seen.pool.SlotsValid tiny) ↔
        System.Obeys Roomy history) := by
  have hreplay : (System.replay mallocStep untouched (callers 3)).map
      (fun s ↦ decide (s.pool.threadIdCounter = 3)) = some true := by
    decide +kernel
  obtain ⟨history, s, hrun, htest⟩ := System.exists_run_of_replay (fun s ↦ s = untouched) rfl hreplay
  have hattempts := run_of_mallocStep hrun
  exact ⟨history, s, hattempts, by simpa using htest, slotsValid_visited_iff_roomy hattempts⟩

end ObjectPool

end ServerCore.MemoryPool
