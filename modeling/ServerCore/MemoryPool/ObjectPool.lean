import Mathlib.Data.Fintype.Card
import ServerCore.Foundation.TransitionSystem
import ServerCore.MemoryPool.PoolGrowth

/-!
# Object pools and their threads

Every thread that uses an `ObjectPool<T, RequestedSize>` has a pool of its own, found through
thread-local storage and, by other threads, through `object_pool_array_`. `malloc` writes the id of
the calling thread behind the requested bytes of the chunk. `free` reads it back: a chunk of the
calling thread goes to the head of its list, a chunk of another thread to the tail of that thread's.

The pool objects themselves lie outside the heap modelled here, and `_aligned_malloc` of one is taken
to succeed. Operations are whole: no two of them overlap.
-/

namespace ServerCore.MemoryPool

open Foundation

/-- An instantiation of the template. -/
structure Instantiation where
  platform : Platform
  sizeofT : ℕ
  requestedSize : ℕ
  fits : sizeofT ≤ requestedSize
  unsigned : requestedSize < 2 ^ 32

namespace Instantiation

variable (o : Instantiation)

/-- A pool as `ObjectPool` constructs it. `RequestedSize + 2` is `unsigned` arithmetic. -/
def newPool : Pool :=
  Pool.construct o.platform ((o.requestedSize + 2) % 2 ^ 32)

/-- The thread id behind the requested bytes of a chunk. -/
def tag (h : Heap) (chunk : ℕ) : ℕ :=
  h.bytes.load (chunk + o.requestedSize) 2

def setTag (h : Heap) (chunk id : ℕ) : Heap :=
  { h with bytes := h.bytes.store (chunk + o.requestedSize) 2 id }

def loadTag (h : Heap) (chunk : ℕ) : Except Fault ℕ :=
  if h.SameBlock chunk (chunk + o.requestedSize) 2 then .ok (o.tag h chunk)
  else .error (.leavesBlock (chunk + o.requestedSize))

def storeTag (h : Heap) (chunk id : ℕ) : Except Fault Heap :=
  if chunk = 0 then .error (.deref o.requestedSize)
  else if h.SameBlock chunk (chunk + o.requestedSize) 2 then .ok (o.setTag h chunk id)
  else .error (.leavesBlock (chunk + o.requestedSize))

end Instantiation

/-- `max_thread_num`. -/
def maxThreadNum : ℕ := 64

/-- The static and thread-local members. `threadId` is `0` while `object_pool_` is null; otherwise
`object_pool_` is the entry of the array at that index. `live` is ghost state: the chunks in the
hands of clients, by the thread id whose `Malloc` or `Construct` returned them. -/
structure ObjectPool (ι : Type) where
  heap : Heap
  threadIdCounter : ℕ
  threadId : ι → ℕ
  objectPoolArray : ℕ → Option Pool
  live : ℕ → List ℕ

/-- What clients do. `Construct` and `Destroy` carry what the constructor or the destructor writes
into the object, and `Construct` whether the constructor throws. -/
inductive ObjectPoolCall (ι : Type)
  | malloc (thread : ι) (answer : Answer)
  | construct (thread : ι) (answer : Answer) (offset : ℕ) (data : List UInt8) (throws : Bool)
  | free (thread : ι) (chunk : ℕ)
  | destroy (thread : ι) (chunk offset : ℕ) (data : List UInt8)
  | overwrite (chunk offset : ℕ) (data : List UInt8)

namespace ObjectPool

variable {ι : Type} [DecidableEq ι] (o : Instantiation)

def initial (ι : Type) (heap : Heap) : ObjectPool ι where
  heap := heap
  threadIdCounter := 0
  threadId _ := 0
  objectPoolArray _ := none
  live _ := []

/-- The state once the pool at index `id` and the heap have changed. -/
def install (s : ObjectPool ι) (id : ℕ) (pool : Pool) (heap : Heap) (chunks : List ℕ) :
    ObjectPool ι :=
  { s with
    heap := heap
    objectPoolArray := Function.update s.objectPoolArray id (some pool)
    live := Function.update s.live id chunks }

/-- `object_pool()`: the pool of the thread, created at its first use. -/
def objectPool (s : ObjectPool ι) (t : ι) : Except Fault (ObjectPool ι) :=
  if s.threadId t ≠ 0 then .ok s
  else if s.threadIdCounter + 1 ≤ maxThreadNum then
    .ok { s with
      threadIdCounter := s.threadIdCounter + 1
      threadId := Function.update s.threadId t (s.threadIdCounter + 1)
      objectPoolArray :=
        Function.update s.objectPoolArray (s.threadIdCounter + 1) (some o.newPool) }
  else .error (.badIndex (s.threadIdCounter + 1))

/-- The pool at an index of the array; a null entry is not accessed successfully. -/
def poolAt (s : ObjectPool ι) (id : ℕ) : Except Fault Pool :=
  if maxThreadNum < id then .error (.badIndex id)
  else match s.objectPoolArray id with
    | none => .error (.deref 0)
    | some pool => .ok pool

/-- `object_pool()->malloc()`. -/
def malloc (s : ObjectPool ι) (t : ι) (answer : Answer) : Except Fault (ℕ × ObjectPool ι) := do
  let s ← s.objectPool o t
  let id := s.threadId t
  let pool ← s.poolAt id
  let (ret, heap, pool) ← pool.malloc o.platform s.heap answer
  let heap ← o.storeTag heap ret id
  return (ret, s.install id pool heap (ret :: s.live id))

/-- The chunk is in no client's hands any more. -/
def dropped (s : ObjectPool ι) (chunk : ℕ) : ObjectPool ι :=
  { s with live := fun id ↦ (s.live id).erase chunk }

/-- `object_pool()->free(chunk)`. -/
def free (s : ObjectPool ι) (t : ι) (chunk : ℕ) : Except Fault (ObjectPool ι) := do
  let s ← s.objectPool o t
  let id ← o.loadTag s.heap chunk
  let pool ← s.poolAt id
  let (heap, pool) ← if id = s.threadId t then pool.free o.platform s.heap chunk
    else pool.freeAppend o.platform s.heap chunk
  return (s.install id pool heap (s.live id)).dropped chunk

/-- A client writes into memory. -/
def overwrite (s : ObjectPool ι) (addr : ℕ) (data : List UInt8) : ObjectPool ι :=
  { s with heap := { s.heap with bytes := s.heap.bytes.write addr data } }

/-- `Construct`. If the constructor throws, the chunk is given back and the result is null. -/
def construct (s : ObjectPool ι) (t : ι) (answer : Answer) (offset : ℕ) (data : List UInt8)
    (throws : Bool) : Except Fault (ℕ × ObjectPool ι) := do
  let (ret, s) ← s.malloc o t answer
  let s := s.overwrite (ret + offset) data
  if throws then
    let s ← s.free o t ret
    return (0, s)
  else return (ret, s)

/-- `Destroy`. -/
def destroy (s : ObjectPool ι) (t : ι) (chunk offset : ℕ) (data : List UInt8) :
    Except Fault (ObjectPool ι) :=
  (s.overwrite (chunk + offset) data).free o t chunk

/-- The call and its result, `0` for the calls that return no chunk. -/
def perform (s : ObjectPool ι) : ObjectPoolCall ι → Except Fault (ℕ × ObjectPool ι)
  | .malloc t answer => s.malloc o t answer
  | .construct t answer offset data throws => s.construct o t answer offset data throws
  | .free t chunk => (s.free o t chunk).map fun s ↦ (0, s)
  | .destroy t chunk offset data => (s.destroy o t chunk offset data).map fun s ↦ (0, s)
  | .overwrite chunk offset data => .ok (0, s.overwrite (chunk + offset) data)

/-- The pool that a call of the thread will use. -/
def poolOf (s : ObjectPool ι) (t : ι) : Pool :=
  (s.objectPoolArray (s.threadId t)).getD o.newPool

/-- A growth of the thread's pool is answered by null or by a fresh block. -/
def FreshFor (s : ObjectPool ι) (t : ι) (answer : Answer) : Prop :=
  (s.poolOf o t).storage.head = (s.poolOf o t).storage.tail → answer.addr ≠ 0 →
    s.heap.Fresh o.platform answer.addr ((s.poolOf o t).requestSize o.platform)

/-- The chunk is in the hands of some client. -/
def Live (s : ObjectPool ι) (chunk : ℕ) : Prop :=
  ∃ id, chunk ∈ s.live id

/-- The contract of the clients: any thread may free any live chunk, objects stay within
`sizeof(T)`, and clients write the requested bytes of live chunks only. -/
def Allowed (s : ObjectPool ι) : ObjectPoolCall ι → Prop
  | .malloc t answer => s.FreshFor o t answer
  | .construct t answer offset data _ =>
      s.FreshFor o t answer ∧ offset + data.length ≤ o.sizeofT
  | .free _ chunk => s.Live chunk
  | .destroy _ chunk offset data => s.Live chunk ∧ offset + data.length ≤ o.sizeofT
  | .overwrite chunk offset data => s.Live chunk ∧ offset + data.length ≤ o.requestedSize

/-- All threads and clients on a heap. A call that runs into undefined behaviour has no step. -/
def system (ι : Type) [DecidableEq ι] (o : Instantiation) :
    System (ObjectPool ι) (ObjectPoolCall ι) where
  init s := ∃ heap, s = initial ι heap
  step s call after := s.Allowed o call ∧ ∃ result, s.perform o call = .ok (result, after)

end ObjectPool

end ServerCore.MemoryPool
