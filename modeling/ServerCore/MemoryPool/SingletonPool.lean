import Mathlib.Logic.Function.Basic
import ServerCore.MemoryPool.Purge

/-!
# One pool a thread under one name

`SingletonPool<Tag, RequestedSize>` is a thread-local `Pool`. A chunk may be freed by another thread
than the one that obtained it. It then goes to the list of the thread that frees it, while the block it
lies in stays with the pool that carved it. The chunks that were handed out and not freed are in the
hands of clients, whichever thread obtained them.

Operations are whole. The end of a thread runs the destructor of its pool, which is a purge. A run ends
at its first undefined behaviour; the read of a link in a block that was released is one.
-/

namespace ServerCore.MemoryPool

open Foundation

/-- The pools of the threads. `live` is ghost state: the chunks in the hands of clients. -/
structure SingletonPool (ι : Type) where
  heap : Heap
  pools : ι → Pool
  exited : List ι
  live : List ℕ
  fault : Option Fault

inductive SingletonPoolCall (ι : Type)
  | malloc (thread : ι) (answer : Answer)
  | free (thread : ι) (chunk : ℕ)
  | purgeMemory (thread : ι)
  | exit (thread : ι)
  | overwrite (chunk offset : ℕ) (data : List UInt8)

namespace SingletonPool

variable {ι : Type}

section Steps

variable [DecidableEq ι] (p : Platform) (requestedSize : ℕ)

def initial (ι : Type) (heap : Heap) : SingletonPool ι where
  heap := heap
  pools _ := Pool.construct p requestedSize
  exited := []
  live := []
  fault := none

/-- The state once the pool of a thread and the heap have changed. -/
def install (s : SingletonPool ι) (t : ι) (pool : Pool) (heap : Heap) (live : List ℕ) :
    SingletonPool ι :=
  { s with
    heap := heap
    pools := Function.update s.pools t pool
    live := live }

theorem install_pools_self (s : SingletonPool ι) (t : ι) (pool : Pool) (heap : Heap)
    (live : List ℕ) : (s.install t pool heap live).pools t = pool :=
  Function.update_self ..

theorem install_pools_of_ne (s : SingletonPool ι) {t u : ι} (hu : u ≠ t) (pool : Pool) (heap : Heap)
    (live : List ℕ) : (s.install t pool heap live).pools u = s.pools u :=
  Function.update_of_ne hu ..

def perform (s : SingletonPool ι) : SingletonPoolCall ι → Except Fault (SingletonPool ι)
  | .malloc t answer => do
    let (ret, heap, pool) ← (s.pools t).malloc p s.heap answer
    return s.install t pool heap (if ret = 0 then s.live else ret :: s.live)
  | .free t chunk => do
    let (heap, pool) ← (s.pools t).free p s.heap chunk
    return s.install t pool heap (s.live.erase chunk)
  | .purgeMemory t => do
    let (heap, pool) ← (s.pools t).purgeMemory p s.heap
    return s.install t pool heap s.live
  | .exit t => do
    let (heap, pool) ← (s.pools t).purgeMemory p s.heap
    return { s.install t pool heap s.live with exited := t :: s.exited }
  | .overwrite chunk offset data =>
    return { s with heap := { s.heap with bytes := s.heap.bytes.write (chunk + offset) data } }

def attempt (s : SingletonPool ι) (call : SingletonPoolCall ι) : SingletonPool ι :=
  match s.perform p call with
  | .ok after => after
  | .error fault => { s with fault := some fault }

/-- No chunk from the blocks of the thread is live. -/
def Unused (s : SingletonPool ι) (t : ι) : Prop :=
  ∀ chunk ∈ s.live, chunk ∉ (s.pools t).chunks p

/-- Threads that have ended call nothing, live chunks are freed and written, a thread purges or ends
when no chunk of its blocks is live, and `::malloc` answers with null or with a fresh block. -/
def Allowed (s : SingletonPool ι) : SingletonPoolCall ι → Prop
  | .malloc t answer => t ∉ s.exited ∧
    ((s.pools t).storage.head = (s.pools t).storage.tail → answer.addr ≠ 0 →
      s.heap.Fresh p answer.addr ((s.pools t).requestSize p))
  | .free t chunk => t ∉ s.exited ∧ chunk ∈ s.live
  | .purgeMemory t | .exit t => t ∉ s.exited ∧ s.Unused p t
  | .overwrite chunk offset data => chunk ∈ s.live ∧ offset + data.length ≤ requestedSize

/-- All interleavings of whole operations, up to the first undefined behaviour. -/
def system (ι : Type) [DecidableEq ι] : System (SingletonPool ι) (SingletonPoolCall ι) where
  init s := ∃ heap, s = initial p requestedSize ι heap
  step s call after :=
    s.fault = none ∧ s.Allowed p requestedSize call ∧ after = s.attempt p call

end Steps

/-! ## What is claimed, and when it holds -/

/-- Nothing has gone wrong; every chunk that is live lies in a block of some pool that has not been
released, and no two of them share bytes. -/
structure HandedOutOnce (p : Platform) (requestedSize : ℕ) (s : SingletonPool ι) : Prop where
  defined : s.fault = none
  inside : ∀ chunk ∈ s.live, ∃ t, ∃ b ∈ (s.pools t).blocks,
    b ∈ s.heap.blocks ∧ b.Contains chunk (max requestedSize p.ptrSize)
  apart : s.live.Pairwise fun chunk other ↦
    Apart chunk (max requestedSize p.ptrSize) other (max requestedSize p.ptrSize)

/-- A purge has released the blocks of the thread and left `tail_` as it was. -/
def Purged (s : SingletonPool ι) (t : ι) : Prop :=
  (s.pools t).storage.tail ≠ 0 ∧ (s.pools t).first = 0

/-- The thread may still take chunks from its list. -/
def Active (s : SingletonPool ι) (t : ι) : Prop :=
  t ∉ s.exited ∧ ¬ s.Purged t

theorem active_install_of_ne [DecidableEq ι] (s : SingletonPool ι) {t u : ι} (hu : u ≠ t) (pool : Pool)
    (heap : Heap) (live : List ℕ) : (s.install t pool heap live).Active u ↔ s.Active u := by
  unfold Active Purged
  rw [install_pools_of_ne s hu]
  rfl

/-- The chunk is on the free list of the thread. -/
def OnFreeList (p : Platform) (s : SingletonPool ι) (t : ι) (chunk : ℕ) : Prop :=
  ∃ path, (s.pools t).FreeList p s.heap path ∧ chunk ∈ path

/-- No chunk from the blocks of the thread has got to the free list of another one. -/
def Gathered (p : Platform) (s : SingletonPool ι) (t : ι) : Prop :=
  ∀ u, u ≠ t → s.Active u → ∀ chunk ∈ (s.pools t).chunks p, ¬ s.OnFreeList p u chunk

/-- A thread takes no chunk once it has purged a pool that had grown, growth sizes do not wrap, and the
blocks that a purge releases have no chunk on the free list of another thread. -/
def Contained (p : Platform) (s : SingletonPool ι) : SingletonPoolCall ι → Prop
  | .malloc t answer => ¬ s.Purged t ∧
    ((s.pools t).storage.head = (s.pools t).storage.tail → answer.addr ≠ 0 → (s.pools t).Fits p)
  | .purgeMemory t | .exit t => s.Gathered p t
  | .free _ _ | .overwrite _ _ _ => True

end SingletonPool

end ServerCore.MemoryPool
