import Mathlib.Data.Fintype.Card
import Mathlib.Data.BitVec
import ServerCore.Foundation.TransitionSystem

/-!
# The reader-writer spinlock

`Spinlock` is two atomics, `lock_` and `reader_`. `Lock` sets `lock_` by an exchange and then polls
`reader_` until it reads zero; `ReadLock` loads `lock_` and, when that load returned zero, increments
`reader_` in a second step. Every load, exchange, increment and decrement is one step here, and any
number of threads interleave. `long` is 32 bits wide on both build platforms, so `reader_` counts
modulo `2 ^ 32`.

Two writers never meet. A reader and a writer do: nothing stops a writer from taking the lock and
seeing no reader between the two steps of `ReadLock`. The main theorem says exactly which runs keep
the exclusion: those in which no reader is counted in while a writer is past its poll, and no poll is
fooled by a counter that has wrapped.
-/

namespace ServerCore.Lock

open Foundation

/-- Where a thread stands inside `Lock`, `Unlock`, `ReadLock` and `ReadUnlock`. -/
inductive Pc
  | outside
  | lockExchange
  | lockPoll
  | writing
  | readTest
  | readIncrement
  | reading
  deriving DecidableEq, Repr

structure Spinlock (T : Type) where
  lock : BitVec 32
  reader : BitVec 32
  pc : T → Pc

/-- One atomic step of one thread, named after the access it makes. -/
inductive SpinlockStep (T : Type)
  | callLock (thread : T)
  | exchangeLock (thread : T)
  | loadReader (thread : T)
  | exchangeUnlock (thread : T)
  | callReadLock (thread : T)
  | loadLock (thread : T)
  | incrementReader (thread : T)
  | decrementReader (thread : T)
  deriving DecidableEq, Repr

variable {T : Type} [DecidableEq T]

namespace SpinlockStep

def thread : SpinlockStep T → T
  | callLock t | exchangeLock t | loadReader t | exchangeUnlock t => t
  | callReadLock t | loadLock t | incrementReader t | decrementReader t => t

/-- The program point the step is taken at. -/
def pc : SpinlockStep T → Pc
  | callLock _ | callReadLock _ => .outside
  | exchangeLock _ => .lockExchange
  | loadReader _ => .lockPoll
  | exchangeUnlock _ => .writing
  | loadLock _ => .readTest
  | incrementReader _ => .readIncrement
  | decrementReader _ => .reading

end SpinlockStep

namespace Spinlock

def initial (T : Type) : Spinlock T := ⟨0, 0, fun _ ↦ .outside⟩

def goto (s : Spinlock T) (thread : T) (target : Pc) : Spinlock T :=
  { s with pc := Function.update s.pc thread target }

/-- What the step does. `Sleep(1)` after a failed exchange or a failed test changes nothing, so the
thread stays where it is. -/
def effect (s : Spinlock T) : SpinlockStep T → Spinlock T
  | .callLock t => s.goto t .lockExchange
  | .exchangeLock t => { s with lock := 1 }.goto t (if s.lock = 0 then .lockPoll else .lockExchange)
  | .loadReader t => s.goto t (if s.reader = 0 then .writing else .lockPoll)
  | .exchangeUnlock t => { s with lock := 0 }.goto t .outside
  | .callReadLock t => s.goto t .readTest
  | .loadLock t => s.goto t (if s.lock = 0 then .readIncrement else .readTest)
  | .incrementReader t => { s with reader := s.reader + 1 }.goto t .reading
  | .decrementReader t => { s with reader := s.reader - 1 }.goto t .outside

def step (s : Spinlock T) (a : SpinlockStep T) : Option (Spinlock T) :=
  if s.pc a.thread = a.pc then some (s.effect a) else none

/-- Any threads, each repeatedly locking and unlocking as a writer or as a reader. -/
def system (T : Type) [DecidableEq T] : System (Spinlock T) (SpinlockStep T) :=
  System.ofStep (fun s ↦ s = initial T) step

theorem step_eq_some {s after : Spinlock T} {a : SpinlockStep T} :
    step s a = some after ↔ s.pc a.thread = a.pc ∧ s.effect a = after := by
  unfold step
  split <;> simp_all

@[simp]
theorem goto_pc (s : Spinlock T) (thread : T) (target : Pc) :
    (s.goto thread target).pc = Function.update s.pc thread target := rfl

/-- The step moves its own thread only. -/
theorem effect_pc_of_ne (s : Spinlock T) (a : SpinlockStep T) {other : T} (h : other ≠ a.thread) :
    (s.effect a).pc other = s.pc other := by
  cases a <;> simp_all [effect, SpinlockStep.thread]

/-! ## What every run keeps -/

/-- The thread has won the exchange of `Lock` and not yet undone it. -/
def Holds (s : Spinlock T) (thread : T) : Prop :=
  s.pc thread = .lockPoll ∨ s.pc thread = .writing

/-- The lock is set while somebody holds it, and only one thread does. -/
structure Sole (s : Spinlock T) : Prop where
  locked : ∀ thread, s.Holds thread → s.lock = 1
  unique : ∀ first second, s.Holds first → s.Holds second → first = second

omit [DecidableEq T] in
theorem sole_initial : (initial T).Sole where
  locked := by simp [Holds, initial]
  unique := by simp [Holds, initial]

variable [Fintype T]

/-- The threads inside the critical section of a reader. -/
def readers (s : Spinlock T) : Finset T :=
  Finset.univ.filter fun thread ↦ s.pc thread = .reading

/-- `lock_` is set while somebody holds it, by one thread only, and `reader_` counts the readers up
to wrap-around. -/
structure Accounting (s : Spinlock T) : Prop where
  locked : ∀ thread, s.Holds thread → s.lock = 1
  unique : ∀ first second, s.Holds first → s.Holds second → first = second
  counted : s.reader = BitVec.ofNat 32 s.readers.card

omit [DecidableEq T] in
theorem Accounting.sole {s : Spinlock T} (hinv : s.Accounting) : s.Sole :=
  ⟨hinv.locked, hinv.unique⟩

omit [DecidableEq T] in
@[simp]
theorem mem_readers {s : Spinlock T} {thread : T} :
    thread ∈ s.readers ↔ s.pc thread = .reading := by
  simp [readers]

omit [DecidableEq T] in
theorem accounting_initial : (initial T).Accounting where
  locked := by simp [Holds, initial]
  unique := by simp [Holds, initial]
  counted := by simp [readers, initial]

/-- A thread that is not a reader before or after its step leaves the set of readers alone. -/
theorem readers_effect_of_ne {s : Spinlock T} {a : SpinlockStep T} (hpc : s.pc a.thread = a.pc)
    (hbefore : a.pc ≠ .reading) (hafter : (s.effect a).pc a.thread ≠ .reading) :
    (s.effect a).readers = s.readers := by
  ext other
  by_cases hother : other = a.thread
  · subst hother
    simp [hpc, hbefore, hafter]
  · simp [effect_pc_of_ne s a hother]

theorem readers_incrementReader (s : Spinlock T) (t : T) :
    (s.effect (.incrementReader t)).readers = insert t s.readers := by
  ext other
  by_cases hother : other = t <;> simp [effect, hother]

theorem readers_decrementReader (s : Spinlock T) (t : T) :
    (s.effect (.decrementReader t)).readers = s.readers.erase t := by
  ext other
  by_cases hother : other = t <;> simp [effect, hother]

theorem counted_step {s : Spinlock T} {a : SpinlockStep T} (hpc : s.pc a.thread = a.pc)
    (hinv : s.Accounting) :
    (s.effect a).reader = BitVec.ofNat 32 (s.effect a).readers.card := by
  have hcount := hinv.counted
  cases a with
  | incrementReader t =>
    have hnew : t ∉ s.readers := by
      rw [mem_readers, show s.pc t = .readIncrement from hpc]
      decide
    calc
      s.reader + 1 = BitVec.ofNat 32 s.readers.card + 1 := by rw [hcount]
      _ = BitVec.ofNat 32 (s.readers.card + 1) := (BitVec.ofNat_add _ _).symm
      _ = BitVec.ofNat 32 (s.effect (.incrementReader t)).readers.card := by
        rw [readers_incrementReader, Finset.card_insert_of_notMem hnew]
  | decrementReader t =>
    have hmem : t ∈ s.readers := mem_readers.mpr hpc
    have hcard : s.readers.card = (s.readers.erase t).card + 1 :=
      (Finset.card_erase_add_one hmem).symm
    rw [readers_decrementReader]
    change s.reader - 1 = _
    rw [hcount, hcard, BitVec.ofNat_add]
    simp
  | callLock t | exchangeUnlock t | callReadLock t =>
    rw [readers_effect_of_ne hpc (by simp [SpinlockStep.pc])
      (by simp [effect, SpinlockStep.thread])]
    exact hcount
  | exchangeLock t | loadReader t | loadLock t =>
    rw [readers_effect_of_ne hpc (by simp [SpinlockStep.pc])
      (by simp only [effect, SpinlockStep.thread, goto_pc, Function.update_self]; split <;> decide)]
    exact hcount

omit [Fintype T] in
/-- The exchange of `Lock` is the only way to become a holder, and it wins only on a free lock. -/
theorem holds_step {s : Spinlock T} {a : SpinlockStep T} (hpc : s.pc a.thread = a.pc) {thread : T}
    (hholds : (s.effect a).Holds thread) :
    s.Holds thread ∨ (a = .exchangeLock thread ∧ s.lock = 0) := by
  by_cases hthread : thread = a.thread
  · subst hthread
    cases a with
    | exchangeLock t =>
      by_cases hfree : s.lock = 0
      · exact Or.inr ⟨rfl, hfree⟩
      · simp only [effect, Holds, SpinlockStep.thread, if_neg hfree] at hholds
        simp at hholds
    | loadReader t => exact Or.inl (Or.inl hpc)
    | loadLock t =>
      simp only [effect, Holds, SpinlockStep.thread, goto_pc, Function.update_self] at hholds
      split at hholds <;> simp at hholds
    | _ => simp [effect, Holds, SpinlockStep.thread] at hholds
  · left
    simpa only [Holds, effect_pc_of_ne s a hthread] using hholds

omit [Fintype T] in
/-- Every step keeps the holders apart. -/
theorem sole_step {s : Spinlock T} {a : SpinlockStep T} (hpc : s.pc a.thread = a.pc)
    (hs : s.Sole) : (s.effect a).Sole where
  locked := by
    intro thread hholds
    rcases holds_step hpc hholds with hbefore | ⟨rfl, -⟩
    · have hlock := hs.locked thread hbefore
      cases a with
      | exchangeUnlock t =>
        -- the holder that unlocks is the only one, so nobody holds the lock afterwards
        have heq := hs.unique thread t hbefore (Or.inr hpc)
        subst heq
        simp [effect, Holds] at hholds
      | exchangeLock t => rfl
      | _ => exact hlock
    · rfl
  unique := by
    intro first second hfirst hsecond
    rcases holds_step hpc hfirst with hold | ⟨rfl, hfree⟩
    · rcases holds_step hpc hsecond with hother | ⟨rfl, hfree⟩
      · exact hs.unique first second hold hother
      · exact absurd (hs.locked first hold) (by simp [hfree])
    · rcases holds_step hpc hsecond with hother | ⟨hsame, -⟩
      · exact absurd (hs.locked second hother) (by simp [hfree])
      · simpa using hsame

theorem accounting_step {s : Spinlock T} {a : SpinlockStep T} (hpc : s.pc a.thread = a.pc)
    (hinv : s.Accounting) : (s.effect a).Accounting where
  locked := (sole_step hpc hinv.sole).locked
  unique := (sole_step hpc hinv.sole).unique
  counted := counted_step hpc hinv

/-! ## Exclusion -/

/-- No writer shares its critical section with another writer or with a reader. -/
def Exclusive (s : Spinlock T) : Prop :=
  ∀ writer other, s.pc writer = .writing → other ≠ writer →
    s.pc other ≠ .writing ∧ s.pc other ≠ .reading

/-- The two steps that can break the exclusion: counting a reader in while a writer is past its poll,
and a poll that reads zero from a counter that has wrapped. -/
def Guarded (s : Spinlock T) : SpinlockStep T → Prop
  | .incrementReader _ => ∀ writer, s.pc writer ≠ .writing
  | .loadReader _ => s.reader = 0 → s.readers.card < 2 ^ 32
  | _ => True

omit [DecidableEq T] in
/-- Writers are excluded by the exchange, so only readers can break the exclusion. -/
theorem exclusive_iff {s : Spinlock T} (hinv : s.Accounting) :
    s.Exclusive ↔ ∀ writer, s.pc writer = .writing → s.readers = ∅ := by
  constructor
  · intro h writer hwriter
    refine Finset.filter_eq_empty_iff.mpr fun other _ hreading ↦ ?_
    have hne : other ≠ writer := by
      rintro rfl
      rw [hwriter] at hreading
      cases hreading
    exact (h writer other hwriter hne).2 hreading
  · intro h writer other hwriter hne
    refine ⟨fun hother ↦ hne (hinv.unique other writer (.inr hother) (.inr hwriter)), ?_⟩
    exact Finset.filter_eq_empty_iff.mp (h writer hwriter) (Finset.mem_univ other)

/-- A step into no critical section cannot break the exclusion. -/
theorem empty_of_not_entering {s : Spinlock T} {a : SpinlockStep T} (hpc : s.pc a.thread = a.pc)
    (hbefore : a.pc ≠ .reading) (hwriting : (s.effect a).pc a.thread ≠ .writing)
    (hreading : (s.effect a).pc a.thread ≠ .reading)
    (hempty : ∀ writer, s.pc writer = .writing → s.readers = ∅) :
    ∀ writer, (s.effect a).pc writer = .writing → (s.effect a).readers = ∅ := by
  intro writer hwriter
  have hne : writer ≠ a.thread := by
    rintro rfl
    exact hwriting hwriter
  rw [readers_effect_of_ne hpc hbefore hreading]
  rw [effect_pc_of_ne s a hne] at hwriter
  exact hempty writer hwriter

/-- From a state with exclusion, the guard says exactly whether the step keeps it. -/
theorem exclusive_step_iff {s : Spinlock T} {a : SpinlockStep T} (hpc : s.pc a.thread = a.pc)
    (hinv : s.Accounting) (hexclusive : s.Exclusive) : (s.effect a).Exclusive ↔ s.Guarded a := by
  have hempty := (exclusive_iff hinv).mp hexclusive
  rw [exclusive_iff (accounting_step hpc hinv)]
  cases a with
  | incrementReader t =>
    have hfew (writer : T) :
        (s.effect (.incrementReader t)).pc writer = .writing ↔ s.pc writer = .writing := by
      by_cases hwriter : writer = t
      · subst hwriter
        simp [effect, show s.pc writer = .readIncrement from hpc]
      · simp [effect, hwriter]
    simp only [hfew, readers_incrementReader, Finset.insert_ne_empty, Guarded, imp_false]
  | loadReader t =>
    by_cases hzero : s.reader = 0
    · have hkeep : (s.effect (.loadReader t)).readers = s.readers :=
        readers_effect_of_ne hpc (by simp [SpinlockStep.pc])
          (by simp only [effect, SpinlockStep.thread, if_pos hzero]; simp)
      have hwrite : (s.effect (.loadReader t)).pc t = .writing := by
        simp only [effect, if_pos hzero]
        simp
      have hcount : (2 ^ 32 : ℕ) ∣ s.readers.card := by
        have hnat := congrArg BitVec.toNat (hinv.counted.symm.trans hzero)
        exact Nat.dvd_of_mod_eq_zero (by simpa using hnat)
      rw [hkeep]
      constructor
      · intro h _
        simp [h t hwrite]
      · intro h _ _
        exact Finset.card_eq_zero.mp (Nat.eq_zero_of_dvd_of_lt hcount (h hzero))
    · have hsame : s.effect (.loadReader t) = s := by
        simp only [effect, if_neg hzero, goto]
        rw [show Pc.lockPoll = s.pc t from hpc.symm, Function.update_eq_self]
      rw [hsame]
      exact iff_of_true hempty fun h ↦ absurd h hzero
  | decrementReader t =>
    refine iff_of_true (fun writer hwriter ↦ ?_) trivial
    have hne : writer ≠ t := by
      rintro rfl
      simp [effect] at hwriter
    have hbefore : s.pc writer = .writing := by simpa [effect, hne] using hwriter
    rw [readers_decrementReader, hempty writer hbefore]
    rfl
  | callLock t | exchangeUnlock t | callReadLock t =>
    refine iff_of_true (empty_of_not_entering hpc (by simp [SpinlockStep.pc]) ?_ ?_ hempty) trivial
    all_goals simp [effect, SpinlockStep.thread]
  | exchangeLock t | loadLock t =>
    refine iff_of_true (empty_of_not_entering hpc (by simp [SpinlockStep.pc]) ?_ ?_ hempty) trivial
    all_goals
      simp only [effect, SpinlockStep.thread, goto_pc, Function.update_self]
      split <;> decide

/-- **Exclusion.** A run of the spinlock keeps writers apart from each other and from readers, in
every state it visits, exactly when each of its steps is guarded. -/
theorem exclusive_visited_iff_guarded {history : List (Spinlock T × SpinlockStep T)}
    {s : Spinlock T} (hrun : (system T).Run history s) :
    (∀ seen ∈ System.visited history s, seen.Exclusive) ↔ System.Obeys Guarded history := by
  apply hrun.forall_visited_iff_obeys Accounting
  · intro state hstart
    subst hstart
    exact ⟨accounting_initial, by simp [Exclusive, initial]⟩
  · intro state action after hinv _ hstep
    obtain ⟨hpc, rfl⟩ := step_eq_some.mp hstep
    exact accounting_step hpc hinv
  · intro state action after hinv hexclusive hstep
    obtain ⟨hpc, rfl⟩ := step_eq_some.mp hstep
    exact exclusive_step_iff hpc hinv hexclusive

/-- Thread `0` reads `lock_` as free, thread `1` locks and sees no reader, thread `0` goes on. -/
def overtaken : List (SpinlockStep (Fin 2)) :=
  [.callReadLock 0, .loadLock 0, .callLock 1, .exchangeLock 1, .loadReader 1, .incrementReader 0]

/-- A reader that tested `lock_` before a writer took it joins that writer. -/
theorem exclusive_fails :
    ¬ ∀ history s, (system (Fin 2)).Run history s → s.Exclusive := by
  intro hclaim
  have hreplay : (System.replay step (initial (Fin 2)) overtaken).map
      (fun s ↦ decide (s.pc 1 = .writing ∧ s.pc 0 = .reading)) = some true := by decide
  obtain ⟨history, s, hrun, htest⟩ := System.exists_run_of_replay
    (fun s ↦ s = initial (Fin 2)) rfl hreplay
  simp only [decide_eq_true_eq] at htest
  exact (hclaim history s hrun 1 0 htest.1 (by decide)).2 htest.2

/-- The characterisation applied to a reader that waits for a writer to leave. -/
theorem exclusive_visited_iff_guarded_applies :
    ∃ history s, (system (Fin 2)).Run history s ∧ s.pc 0 = .writing ∧
      ((∀ seen ∈ System.visited history s, seen.Exclusive) ↔ System.Obeys Guarded history) := by
  have hreplay : (System.replay step (initial (Fin 2)) [.callLock 0, .callReadLock 1,
      .exchangeLock 0, .loadLock 1, .loadReader 0]).map
      (fun s ↦ decide (s.pc 0 = .writing)) = some true := by decide
  obtain ⟨history, s, hrun, htest⟩ := System.exists_run_of_replay
    (fun s ↦ s = initial (Fin 2)) rfl hreplay
  exact ⟨history, s, hrun, by simpa using htest, exclusive_visited_iff_guarded hrun⟩

end Spinlock

end ServerCore.Lock
