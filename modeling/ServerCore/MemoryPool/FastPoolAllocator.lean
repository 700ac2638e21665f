import ServerCore.MemoryPool.PoolRun

/-!
# The allocator of a container

A `FastPoolAllocator<T>` has a pool of its own, whose chunk size is fixed by the constructor that ran. A
container rebinds the allocator it is given to the type of its nodes and so runs the converting
constructor, which takes the size of the other type. The main theorem says with which sizes the
pointers that the allocator gives out address storage for a `T` each.

A type is given by its size. `assert(n == 1)` aborts a debug build; the model is that of a release
build, where `allocate` and `deallocate` test `n` again.
-/

namespace ServerCore.MemoryPool

open Foundation

structure FastPoolAllocator (sizeofT : ℕ) where
  pool : Pool

/-- How a container comes by its allocator. -/
inductive Origin (sizeofT : ℕ)
  | default
  | copied (allocator : FastPoolAllocator sizeofT)
  | converted {sizeofU : ℕ} (allocator : FastPoolAllocator sizeofU)

namespace FastPoolAllocator

variable {sizeofT sizeofU : ℕ} (p : Platform)

/-- `FastPoolAllocator()`. -/
def construct (sizeofT : ℕ) : FastPoolAllocator sizeofT :=
  ⟨.construct p sizeofT⟩

/-- `FastPoolAllocator(const FastPoolAllocator<U> &allocator)`. -/
def convert (_allocator : FastPoolAllocator sizeofU) : FastPoolAllocator sizeofT :=
  ⟨.construct p sizeofU⟩

/-- `FastPoolAllocator(const FastPoolAllocator<T> &allocator)`. -/
def copy (_allocator : FastPoolAllocator sizeofT) : FastPoolAllocator sizeofT :=
  ⟨.construct p sizeofT⟩

def allocate (a : FastPoolAllocator sizeofT) (h : Heap) (n : ℕ) (answer : Answer) :
    Except Fault (ℕ × Heap × FastPoolAllocator sizeofT) :=
  if n ≠ 1 then return (0, h, a)
  else do
    let (pointer, h, pool) ← a.pool.malloc p h answer
    return (pointer, h, ⟨pool⟩)

def deallocate (a : FastPoolAllocator sizeofT) (h : Heap) (pointer n : ℕ) :
    Except Fault (Heap × FastPoolAllocator sizeofT) :=
  if n ≠ 1 then return (h, a)
  else do
    let (h, pool) ← a.pool.free p h pointer
    return (h, ⟨pool⟩)

end FastPoolAllocator

namespace Origin

variable {sizeofT : ℕ} (p : Platform)

/-- The constructor that runs. -/
def allocator : Origin sizeofT → FastPoolAllocator sizeofT
  | default => .construct p sizeofT
  | copied allocator => allocator.copy p
  | converted allocator => allocator.convert p

/-- The size that the constructor passes to the pool. -/
def requestedSize : Origin sizeofT → ℕ
  | default => sizeofT
  | copied _ => sizeofT
  | @converted _ sizeofU _ => sizeofU

/-- The size of a chunk. -/
def chunkSize (origin : Origin sizeofT) : ℕ :=
  max origin.requestedSize p.ptrSize

theorem pool_allocator (origin : Origin sizeofT) :
    (origin.allocator p).pool = .construct p origin.requestedSize := by
  cases origin
  all_goals rfl

end Origin

/-- A container with its allocator and the elements it holds. `fault` is what the first undefined
behaviour was. -/
structure Container (sizeofT : ℕ) where
  heap : Heap
  allocator : FastPoolAllocator sizeofT
  live : List ℕ
  fault : Option Fault

inductive ContainerAction
  | allocate (answer : Answer)
  | deallocate (pointer : ℕ)
  | overwrite (pointer offset : ℕ) (data : List UInt8)

namespace Container

variable {sizeofT : ℕ}

/-- A container without elements, in a heap that others use too. -/
def empty (heap : Heap) (allocator : FastPoolAllocator sizeofT) : Container sizeofT :=
  ⟨heap, allocator, [], none⟩

section Steps

variable (p : Platform)

/-- The container deallocates what it was given and writes only its elements, and `::malloc` answers
with null or with a fresh block. -/
def Allowed (s : Container sizeofT) : ContainerAction → Prop
  | .allocate answer =>
    s.allocator.pool.storage.head = s.allocator.pool.storage.tail → answer.addr ≠ 0 →
      s.heap.Fresh p answer.addr (s.allocator.pool.requestSize p)
  | .deallocate pointer => pointer ∈ s.live
  | .overwrite pointer offset data => pointer ∈ s.live ∧ offset + data.length ≤ sizeofT

def perform (s : Container sizeofT) : ContainerAction → Except Fault (Container sizeofT)
  | .allocate answer => do
    let (pointer, heap, allocator) ← s.allocator.allocate p s.heap 1 answer
    return { s with
      heap := heap
      allocator := allocator
      live := if pointer = 0 then s.live else pointer :: s.live }
  | .deallocate pointer => do
    let (heap, allocator) ← s.allocator.deallocate p s.heap pointer 1
    return { s with
      heap := heap
      allocator := allocator
      live := s.live.erase pointer }
  | .overwrite pointer offset data =>
    return { s with heap := { s.heap with bytes := s.heap.bytes.write (pointer + offset) data } }

/-- The state after the action, or the fault it ran into. -/
def attempt (s : Container sizeofT) (action : ContainerAction) : Container sizeofT :=
  match s.perform p action with
  | .ok after => after
  | .error fault => { s with fault := some fault }

/-- All runs of a container, up to the first undefined behaviour. -/
def system (origin : Origin sizeofT) : System (Container sizeofT) ContainerAction where
  init s := ∃ heap, s = empty heap (origin.allocator p)
  step s action after := s.fault = none ∧ s.Allowed p action ∧ after = s.attempt p action

/-- If the call grows the pool, the growth sizes do not wrap. -/
def GrowthFits (s : Container sizeofT) : ContainerAction → Prop
  | .allocate answer =>
    s.allocator.pool.storage.head = s.allocator.pool.storage.tail → answer.addr ≠ 0 →
      s.allocator.pool.Fits p
  | .deallocate _ | .overwrite _ _ _ => True

end Steps

/-- No undefined behaviour so far; the pointers given out address storage for a `T` in one block of the
pool, and no two of them the same bytes. -/
structure StorageDisjoint (s : Container sizeofT) : Prop where
  defined : s.fault = none
  inside : ∀ pointer ∈ s.live, ∃ b ∈ s.allocator.pool.blocks,
    b ∈ s.heap.blocks ∧ b.Contains pointer sizeofT
  apart : s.live.Pairwise fun pointer other ↦ Apart pointer sizeofT other sizeofT

/-! ## The container as a client of its pool -/

variable {p : Platform} {s after : Container sizeofT} {origin : Origin sizeofT}

/-- What the pool sees of the container. -/
def client (s : Container sizeofT) : Client :=
  ⟨s.heap, s.allocator.pool, s.live⟩

def ofClient (c : Client) : Container sizeofT :=
  ⟨c.heap, ⟨c.pool⟩, c.live, none⟩

/-- The call of the pool that an action makes. -/
def call : ContainerAction → PoolCall
  | .allocate answer => .malloc answer
  | .deallocate pointer => .free pointer
  | .overwrite pointer offset data => .overwrite pointer offset data

theorem call_ne_purge (action : ContainerAction) : call action ≠ .purge := by
  cases action
  all_goals exact nofun

theorem perform_eq (hrunning : s.fault = none) (action : ContainerAction) :
    s.perform p action = (s.client.perform p (call action)).map fun result ↦ ofClient result.2 := by
  obtain ⟨heap, ⟨pool⟩, live, fault⟩ := s
  obtain rfl : fault = none := hrunning
  cases action with
  | allocate answer =>
    simp only [perform, FastPoolAllocator.allocate, client, call, Client.perform]
    cases pool.malloc p heap answer
    all_goals rfl
  | deallocate pointer =>
    simp only [perform, FastPoolAllocator.deallocate, client, call, Client.perform]
    cases pool.free p heap pointer
    all_goals rfl
  | overwrite pointer offset data => rfl

/-- The pool is well formed, and nothing has gone wrong. -/
structure Stocked (p : Platform) (origin : Origin sizeofT) (s : Container sizeofT) : Prop where
  defined : s.fault = none
  wellFormed : s.client.WellFormed p
  allocSize : s.allocator.pool.allocSize = origin.chunkSize p

theorem stocked_empty (heap : Heap) : Stocked p origin (empty heap (origin.allocator p)) where
  defined := rfl
  wellFormed := by
    refine ⟨[], ?_⟩
    change (origin.allocator p).pool.WellFormed p heap [] []
    rw [Origin.pool_allocator]
    exact Pool.wellFormed_construct p heap origin.requestedSize
  allocSize := by
    change (origin.allocator p).pool.allocSize = _
    rw [Origin.pool_allocator]
    rfl

/-- Chunks with room for a `T` are storage. -/
theorem Stocked.storageDisjoint (hs : s.Stocked p origin) (hroom : sizeofT ≤ origin.chunkSize p) :
    s.StorageDisjoint := by
  obtain ⟨free, hw⟩ := hs.wellFormed
  have hsize : s.client.pool.allocSize = origin.chunkSize p := hs.allocSize
  refine ⟨hs.defined, ?_, ?_⟩
  · intro pointer hlive
    obtain ⟨b, hb, hlow, hhigh⟩ := hw.chunk_bounds (hw.live_mem hlive)
    rw [hsize] at hhigh
    exact ⟨b, hb, hw.owned b hb, by omega, by omega⟩
  · have hnodup := (List.nodup_append.mp hw.nodup_append).2.1
    apply hnodup.imp_of_mem
    intro pointer other hpointer hother hne
    have hapart := hw.chunks_apart (hw.live_mem hpointer) (hw.live_mem hother) hne
    rw [hsize] at hapart
    unfold Foundation.Apart at hapart ⊢
    omega

theorem Stocked.attempt (hs : s.Stocked p origin) (hroom : sizeofT ≤ origin.chunkSize p)
    {action : ContainerAction} (hallowed : s.Allowed p action) (hfits : s.GrowthFits p action) :
    (s.attempt p action).Stocked p origin := by
  have hcall := call_ne_purge action
  have hcallAllowed : s.client.Allowed p (call action) := by
    cases action with
    | allocate answer => exact hallowed
    | deallocate pointer => exact hallowed
    | overwrite pointer offset data =>
      refine ⟨hallowed.1, hallowed.2.trans ?_⟩
      exact hroom.trans hs.allocSize.ge
  have hcallFits : s.client.GrowthFits p (call action) := by
    cases action with
    | allocate answer => exact hfits
    | deallocate pointer => trivial
    | overwrite pointer offset data => trivial
  rcases Client.perform_outcome hs.wellFormed hcall hcallAllowed with
    ⟨result, after, hperform⟩ | ⟨hwrap, -⟩
  · have hafter : s.attempt p action = ofClient after := by
      rw [Container.attempt, perform_eq hs.defined, hperform]
      rfl
    have hkept := Client.kept_of_perform hs.wellFormed hcall hcallAllowed hperform
    have hsize := Client.allocSize_of_perform hs.wellFormed hcall hcallAllowed hperform
    rw [hafter]
    exact ⟨rfl, hkept.wellFormed, hsize.trans hs.allocSize⟩
  · exact absurd hcallFits hwrap

/-! ## Chunks that are too small -/

/-- Where not even the first growth fits, a container whose growths all fit stays empty. -/
theorem empty_of_not_fits (hnone : ¬ (origin.allocator p).pool.Fits p)
    {history : List (Container sizeofT × ContainerAction)}
    (hrun : (system p origin).Run history s) (hobeys : System.Obeys (GrowthFits p) history) :
    ∃ heap, s = empty heap (origin.allocator p) := by
  apply hrun.invariant (fun s ↦ ∃ heap, s = empty heap (origin.allocator p)) _ _ hobeys
  · exact fun state hinit ↦ hinit
  · rintro state action after ⟨heap, rfl⟩ hfits ⟨-, hallowed, rfl⟩
    cases action with
    | allocate answer =>
      have hempty : (origin.allocator p).pool.storage.head =
          (origin.allocator p).pool.storage.tail := by
        rw [Origin.pool_allocator]
        rfl
      have hnull : answer.addr = 0 := by
        by_contra haddr
        exact hnone (hfits hempty haddr)
      refine ⟨heap, ?_⟩
      have hmalloc : (origin.allocator p).pool.malloc p heap answer =
          .ok (0, heap, (origin.allocator p).pool) := by
        simp [Pool.malloc, SegregatedStorage.empty, hempty, Pool.resizeAndMalloc, hnull, pure,
          Except.pure]
      simp [Container.attempt, perform, FastPoolAllocator.allocate, empty, hmalloc, bind,
        Except.bind, pure, Except.pure]
    | deallocate pointer => exact absurd hallowed List.not_mem_nil
    | overwrite pointer offset data => exact absurd hallowed.1 List.not_mem_nil

theorem attempt_allocate {answer : Answer} {pointer : ℕ} {heap : Heap} {pool : Pool}
    (hmalloc : s.allocator.pool.malloc p s.heap answer = .ok (pointer, heap, pool))
    (hpointer : pointer ≠ 0) : s.attempt p (.allocate answer) =
      { s with heap := heap, allocator := ⟨pool⟩, live := pointer :: s.live } := by
  simp [Container.attempt, perform, FastPoolAllocator.allocate, hmalloc, bind, Except.bind, pure,
    Except.pure, hpointer]

/-- Otherwise two calls of `allocate` give out two chunks that lie next to each other. -/
theorem exists_adjacent (hfits : (origin.allocator p).pool.Fits p) :
    ∃ history s, (system p origin).Run history s ∧ System.Obeys (GrowthFits p) history ∧
      s.live = [1 + p.ptrSize + origin.chunkSize p, 1 + p.ptrSize] := by
  have hpool := origin.pool_allocator p
  rw [hpool] at hfits
  obtain ⟨heap, pool, last, popped, hfresh, hfirst, hne, hsecond⟩ :=
    Pool.malloc_construct_twice hfits
  rw [← hpool] at hfirst hfits hfresh
  change pool.malloc p heap Pool.lowest =
    .ok (1 + p.ptrSize + origin.chunkSize p, last, popped) at hsecond
  have hpointer : 1 + p.ptrSize ≠ 0 := by omega
  have hpointer' : 1 + p.ptrSize + origin.chunkSize p ≠ 0 := by omega
  have hstart : (system p origin).Run [] (empty ⟨fun _ ↦ 0, []⟩ (origin.allocator p)) :=
    .start ⟨_, rfl⟩
  have hallowed : (empty ⟨fun _ ↦ 0, []⟩ (origin.allocator p)).Allowed p
      (.allocate Pool.lowest) := fun _ _ ↦ hfresh
  have hgrown := hstart.next ⟨rfl, hallowed, (attempt_allocate hfirst hpointer).symm⟩
  let grown : Container sizeofT := ⟨heap, ⟨pool⟩, [1 + p.ptrSize], none⟩
  have hallowed' : grown.Allowed p (.allocate Pool.lowest) := fun hempty ↦ absurd hempty hne
  have hrun := hgrown.next ⟨rfl, hallowed', (attempt_allocate hsecond hpointer').symm⟩
  refine ⟨_, _, hrun, ?_, rfl⟩
  simp only [System.obeys_cons, System.obeys_nil, and_true]
  exact ⟨fun hempty ↦ absurd hempty hne, fun _ _ ↦ hfits⟩

theorem fits_iff : (origin.allocator p).pool.Fits p ↔
    64 * origin.chunkSize p + p.ptrSize < p.sizeModulus := by
  rw [Origin.pool_allocator]
  rfl

/-- Every run keeps the storage disjoint, as long as the growth sizes do not wrap, exactly if the chunks
are large enough for a `T`, or so large that no growth is possible. -/
theorem storageDisjoint_iff (p : Platform) (origin : Origin sizeofT) :
    (∀ history s, (system p origin).Run history s → System.Obeys (GrowthFits p) history →
      s.StorageDisjoint) ↔
      sizeofT ≤ origin.chunkSize p ∨
        p.sizeModulus ≤ 64 * origin.chunkSize p + p.ptrSize := by
  constructor
  · intro hclaim
    by_contra hsmall
    rw [not_or, not_le, not_le, ← fits_iff] at hsmall
    obtain ⟨history, s, hrun, hobeys, hlive⟩ := exists_adjacent hsmall.2
    have hapart := (hclaim history s hrun hobeys).apart
    rw [hlive, List.pairwise_pair] at hapart
    unfold Foundation.Apart at hapart
    omega
  · intro hcondition history s hrun hobeys
    by_cases hroom : sizeofT ≤ origin.chunkSize p
    · have hstocked : s.Stocked p origin := by
        apply hrun.invariant (Stocked p origin) _ _ hobeys
        · rintro state ⟨heap, rfl⟩
          exact stocked_empty heap
        · rintro state action after hs hfits ⟨-, hallowed, rfl⟩
          exact hs.attempt hroom hallowed hfits
      exact hstocked.storageDisjoint hroom
    · have hnone : ¬ (origin.allocator p).pool.Fits p := by
        rw [fits_iff, not_lt]
        exact hcondition.resolve_left hroom
      obtain ⟨heap, rfl⟩ := empty_of_not_fits hnone hrun hobeys
      exact ⟨rfl, fun _ h ↦ absurd h List.not_mem_nil, List.Pairwise.nil⟩

/-- Two nodes of 24 bytes overlap when the allocator was converted from one for elements of 8 bytes. -/
theorem storageDisjoint_fails : ¬ ∀ history s,
    (system .x64 (.converted (.construct .x64 8) : Origin 24)).Run history s →
      System.Obeys (GrowthFits .x64) history → s.StorageDisjoint := by
  intro hclaim
  have hfits : (Origin.allocator .x64
      (.converted (.construct .x64 8) : Origin 24)).pool.Fits .x64 := fits_iff.mpr (by decide)
  obtain ⟨history, s, hrun, hobeys, hlive⟩ := exists_adjacent hfits
  have hapart := (hclaim history s hrun hobeys).apart
  rw [hlive] at hapart
  exact absurd hapart (by decide)

end Container

end ServerCore.MemoryPool
