import Mathlib.Algebra.Order.Ring.Int
import Mathlib.Tactic.Ring
import ServerCore.Foundation.TransitionSystem

/-!
# The pool object of a thread

All `ObjectPool<T, RequestedSize>` instances on a thread share one pool object, which the first use of
any of them creates. `object_pool_` points to it and `ref_count_` counts the creations, while every
destructor that finds the pointer set counts down and gives the object to `_aligned_free` when it
reaches zero. The pointer is never reset. `_aligned_malloc` is taken to succeed.

The main theorem says which sequences of constructions, uses and destructions keep the pool object
valid: those that use and destroy no instance once one has been destroyed after the first use.
-/

namespace ServerCore.MemoryPool

open Foundation

/-- What happens to a pool object after its creation. -/
inductive PoolEvent
  | use (pool : ℕ)
  | alignedFree (pool : ℕ)
  deriving DecidableEq, Repr

/-- The member functions of an instance. -/
inductive InstanceCall
  | malloc
  | free
  | construct
  | destroy
  | preallocate (n : ℤ)
  | purgeMemory
  deriving DecidableEq, Repr

/-- The call goes through `object_pool()`. The loops of `Preallocate` run only for a positive `n`. -/
def InstanceCall.Touches : InstanceCall → Prop
  | .preallocate n => 0 < n
  | _ => True

instance (call : InstanceCall) : Decidable call.Touches := by
  unfold InstanceCall.Touches
  split <;> infer_instance

/-- The thread-local members, and the instances alive on the thread. Ghost state: how many pool
objects were created, what happened to them, latest first, and how many instances were destroyed
since an instance was used first. -/
structure LocalPool where
  objectPool : Option ℕ
  refCount : ℤ
  instances : List ℕ
  created : ℕ
  events : List PoolEvent
  used : Bool
  outlived : ℕ

inductive LocalPoolStep
  | construct (inst : ℕ)
  | use (inst : ℕ) (call : InstanceCall)
  | destroy (inst : ℕ)

namespace LocalPool

def initial : LocalPool := ⟨none, 0, [], 0, [], false, 0⟩

/-- `object_pool()`. -/
def getObjectPool (s : LocalPool) : ℕ × LocalPool :=
  match s.objectPool with
  | some pool => (pool, s)
  | none =>
    (s.created, { s with
      refCount := s.refCount + 1
      objectPool := some s.created
      created := s.created + 1 })

/-- A member function of some instance. All its uses of the pool object count as one. -/
def perform (s : LocalPool) (call : InstanceCall) : LocalPool :=
  if call.Touches then
    let (pool, s) := s.getObjectPool
    { s with events := .use pool :: s.events, used := true }
  else s

/-- `~ObjectPool()`. -/
def destruct (s : LocalPool) : LocalPool :=
  match s.objectPool with
  | none => s
  | some pool =>
    { s with
      refCount := s.refCount - 1
      events := if s.refCount - 1 = 0 then .alignedFree pool :: s.events else s.events }

def step (s : LocalPool) : LocalPoolStep → Option LocalPool
  | .construct i =>
    if i ∈ s.instances then none else some { s with instances := i :: s.instances }
  | .use i call => if i ∈ s.instances then some (s.perform call) else none
  | .destroy i =>
    if i ∈ s.instances then
      some { s.destruct with
        instances := s.instances.erase i
        outlived := if s.used then s.outlived + 1 else s.outlived }
    else none

/-- Any instances, constructed, used and destroyed on one thread in any order. -/
def system : System LocalPool LocalPoolStep :=
  System.ofStep (fun s ↦ s = initial) step

/-- No pool object is used after it was passed to `_aligned_free`. -/
def UsesValid : List PoolEvent → Prop
  | [] => True
  | .use pool :: earlier => .alignedFree pool ∉ earlier ∧ UsesValid earlier
  | .alignedFree _ :: earlier => UsesValid earlier

/-- No use after free, no double free, no negative count. -/
structure Valid (s : LocalPool) : Prop where
  uses : UsesValid s.events
  once : ∀ pool, s.events.count (.alignedFree pool) ≤ 1
  count : 0 ≤ s.refCount

/-- Once an instance has been destroyed after the first use, none is used or destroyed any more. -/
def Outlives (s : LocalPool) : LocalPoolStep → Prop
  | .construct _ => True
  | .use _ call => call.Touches → s.outlived = 0
  | .destroy _ => s.outlived = 0

/-- The pointer is set by the first use. The count is one less for every instance destroyed since,
and the first of these has freed the object. -/
structure Counted (s : LocalPool) : Prop where
  unused : s.objectPool = none → s.refCount = 0 ∧ s.events = [] ∧ s.outlived = 0 ∧ s.used = false
  counted : ∀ pool, s.objectPool = some pool → s.refCount = 1 - s.outlived ∧ s.used = true ∧
    ∀ other, s.events.count (.alignedFree other) = if other = pool ∧ s.outlived ≠ 0 then 1 else 0

theorem counted_initial : initial.Counted where
  unused _ := ⟨rfl, rfl, rfl, rfl⟩
  counted _ h := by cases h

theorem valid_initial : initial.Valid where
  uses := trivial
  once _ := by simp [initial]
  count := le_rfl

section Steps

variable {s : LocalPool} {call : InstanceCall} {i : ℕ}

theorem counted_perform (hs : s.Counted) : (s.perform call).Counted := by
  unfold perform
  split
  · unfold getObjectPool
    cases hpool : s.objectPool with
    | none =>
      obtain ⟨hcount, hevents, houtlived, -⟩ := hs.unused hpool
      refine ⟨fun h ↦ by simp at h, ?_⟩
      intro pool hsome
      simp [hcount, hevents, houtlived]
    | some pool =>
      obtain ⟨hcount, -, hfreed⟩ := hs.counted pool hpool
      refine ⟨fun h ↦ by simp [hpool] at h, ?_⟩
      intro other hsome
      have heq : pool = other := by simpa [hpool] using hsome
      subst heq
      exact ⟨hcount, rfl, by simpa using hfreed⟩
  · exact hs

/-- A use is valid exactly as long as no instance has been destroyed since the first one. -/
theorem valid_perform_iff (hs : s.Counted) (hvalid : s.Valid) :
    (s.perform call).Valid ↔ (call.Touches → s.outlived = 0) := by
  unfold perform
  by_cases htouches : call.Touches
  · simp only [htouches, if_true, true_implies]
    unfold getObjectPool
    cases hpool : s.objectPool with
    | none =>
      obtain ⟨hcount, hevents, houtlived, -⟩ := hs.unused hpool
      refine iff_of_true ⟨?_, ?_, ?_⟩ houtlived
      · simp [UsesValid, hevents]
      · simp [hevents]
      · simp [hcount]
    | some pool =>
      obtain ⟨-, -, hfreed⟩ := hs.counted pool hpool
      have hpool := hfreed pool
      constructor
      · intro hafter
        by_contra houtlived
        have hnot : .alignedFree pool ∉ s.events := hafter.uses.1
        rw [if_pos ⟨rfl, houtlived⟩, List.count_eq_zero.mpr hnot] at hpool
        cases hpool
      · intro houtlived
        refine ⟨⟨?_, hvalid.uses⟩, ?_, hvalid.count⟩
        · apply List.count_eq_zero.mp
          rw [hpool, if_neg (fun h ↦ h.2 houtlived)]
        · simpa using hvalid.once
  · simpa [htouches] using hvalid

theorem counted_destruct (hs : s.Counted) :
    Counted { s.destruct with
      instances := s.instances.erase i
      outlived := if s.used then s.outlived + 1 else s.outlived } := by
  unfold destruct
  cases hpool : s.objectPool with
  | none =>
    obtain ⟨hcount, hevents, houtlived, hused⟩ := hs.unused hpool
    refine ⟨fun _ ↦ ⟨hcount, hevents, by simp [hused, houtlived], hused⟩, ?_⟩
    intro pool hsome
    simp [hpool] at hsome
  | some pool =>
    obtain ⟨hcount, hused, hfreed⟩ := hs.counted pool hpool
    refine ⟨fun h ↦ by simp at h, ?_⟩
    intro other hsome
    have heq : pool = other := by simpa using hsome
    subst heq
    refine ⟨?_, hused, ?_⟩
    · simp only [hcount, hused, if_true]
      push_cast
      ring
    · intro other
      by_cases hlast : s.refCount - 1 = 0
      · -- the count falls to zero when the first instance is destroyed
        have houtlived : s.outlived = 0 := by omega
        have hbefore := hfreed other
        rw [houtlived] at hbefore
        simp only [hlast, if_true, hused, houtlived, List.count_cons, hbefore]
        by_cases hother : other = pool
        · simp [hother]
        · simp [hother, Ne.symm hother]
      · have houtlived : s.outlived ≠ 0 := by omega
        have hbefore := hfreed other
        simpa [hlast, hused, houtlived] using hbefore

/-- A destructor is valid exactly if no other one ran since the first use. -/
theorem valid_destruct_iff (hs : s.Counted) (hvalid : s.Valid) :
    Valid { s.destruct with
      instances := s.instances.erase i
      outlived := if s.used then s.outlived + 1 else s.outlived } ↔ s.outlived = 0 := by
  have hafter := counted_destruct (i := i) hs
  unfold destruct at hafter ⊢
  cases hpool : s.objectPool with
  | none =>
    obtain ⟨-, -, houtlived, -⟩ := hs.unused hpool
    exact iff_of_true ⟨hvalid.uses, hvalid.once, hvalid.count⟩ houtlived
  | some pool =>
    obtain ⟨hcount, -, -⟩ := hs.counted pool hpool
    simp only [hpool] at hafter
    constructor
    · intro h
      have hpos := h.count
      simp only at hpos
      omega
    · intro houtlived
      refine ⟨?_, ?_, ?_⟩
      · simp only
        split
        · exact hvalid.uses
        · exact hvalid.uses
      · intro other
        have hfreed := (hafter.counted pool rfl).2.2 other
        grind
      · simp only
        omega

end Steps

/-- **Lifetime of the pool object.** In a run on one thread the pool object is never used after it was
freed, never freed twice and never counted below zero if and only if no instance is used or destroyed
once another one has been destroyed after the first use. -/
theorem valid_visited_iff_outlives {history : List (LocalPool × LocalPoolStep)} {s : LocalPool}
    (hrun : system.Run history s) :
    (∀ seen ∈ System.visited history s, seen.Valid) ↔ System.Obeys Outlives history := by
  apply hrun.forall_visited_iff_obeys Counted
  · rintro state rfl
    exact ⟨counted_initial, valid_initial⟩
  · intro state action after hs _ hstep
    cases action with
    | construct i =>
      obtain ⟨-, hafter⟩ := Option.ite_none_left_eq_some.mp hstep
      rw [← Option.some.inj hafter]
      exact ⟨hs.unused, hs.counted⟩
    | use i call =>
      obtain ⟨-, hafter⟩ := Option.ite_none_right_eq_some.mp hstep
      rw [← Option.some.inj hafter]
      exact counted_perform hs
    | destroy i =>
      obtain ⟨-, hafter⟩ := Option.ite_none_right_eq_some.mp hstep
      rw [← Option.some.inj hafter]
      exact counted_destruct hs
  · intro state action after hs hvalid hstep
    cases action with
    | construct i =>
      obtain ⟨-, hafter⟩ := Option.ite_none_left_eq_some.mp hstep
      rw [← Option.some.inj hafter]
      exact iff_of_true ⟨hvalid.uses, hvalid.once, hvalid.count⟩ trivial
    | use i call =>
      obtain ⟨-, hafter⟩ := Option.ite_none_right_eq_some.mp hstep
      rw [← Option.some.inj hafter]
      exact valid_perform_iff hs hvalid
    | destroy i =>
      obtain ⟨-, hafter⟩ := Option.ite_none_right_eq_some.mp hstep
      rw [← Option.some.inj hafter]
      exact valid_destruct_iff hs hvalid

/-- Two instances, of which the first is used and destroyed before the second is used. -/
def successors : List LocalPoolStep :=
  [.construct 0, .construct 1, .use 0 .malloc, .destroy 0, .use 1 .malloc]

/-- The second of two instances uses the pool object that the destructor of the first one freed. -/
theorem valid_fails : ¬ ∀ history s, system.Run history s → s.Valid := by
  intro hclaim
  have hreplay : (System.replay step initial successors).map (fun s ↦
      decide (s.events = [.use 0, .alignedFree 0, .use 0])) = some true := by decide
  obtain ⟨history, s, hrun, htest⟩ := System.exists_run_of_replay (fun s ↦ s = initial) rfl hreplay
  simp only [decide_eq_true_eq] at htest
  have hvalid := (hclaim history s hrun).uses
  rw [htest] at hvalid
  exact hvalid.1 (by decide)

/-- The characterisation applied to two instances that are both used before one is destroyed. -/
theorem valid_visited_iff_outlives_applies :
    ∃ history s, system.Run history s ∧ s.events = [.alignedFree 0, .use 0, .use 0] ∧
      ((∀ seen ∈ System.visited history s, seen.Valid) ↔ System.Obeys Outlives history) := by
  have hreplay : (System.replay step initial [.construct 0, .construct 1, .use 0 .malloc,
      .use 1 (.preallocate 3), .destroy 0]).map (fun s ↦
        decide (s.events = [.alignedFree 0, .use 0, .use 0])) = some true := by decide
  obtain ⟨history, s, hrun, htest⟩ := System.exists_run_of_replay (fun s ↦ s = initial) rfl hreplay
  exact ⟨history, s, hrun, by simpa using htest, valid_visited_iff_outlives hrun⟩

end LocalPool

end ServerCore.MemoryPool
