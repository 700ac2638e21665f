import ServerCore.Lock.Spinlock
import ServerCore.MemoryPool.PoolGrowth

/-!
# Remote frees against the growth of a pool

A chunk freed by a thread that does not own its pool is appended under `lock_tail_`. The owner takes
no lock: it compares `head_` with `tail_`, carves a block, links its last chunk to `tail_` and stores
`head_`, and any number of remote threads may append between these steps. Every read or write of
`head_`, `tail_` or a link is one step here, and the lock is the spinlock with its own steps. What the
owner alone reads and writes (the header of the new block, `first_` and `next_size_`) is done together
with the store of `head_`.
-/

namespace ServerCore.MemoryPool

open Foundation Lock

/-- Where the owner stands in `Malloc`, with its locals. Each point is named after the next access. -/
inductive OwnerPc
  | outside
  | emptyHead
  | emptyTail (head : ℕ)
  | request
  | testTail (ptr : ℕ)
  | setTail (ptr : ℕ)
  | loadEnd (ptr : ℕ)
  | linkEnd (ptr tail : ℕ)
  | loadTail (ptr : ℕ)
  | linkLast (ptr tail : ℕ)
  | carve (ptr it last : ℕ)
  | storeHead (ptr : ℕ)
  | popHead
  | popNext (ret : ℕ)
  | popStore (ret next : ℕ)
  deriving DecidableEq, Repr

/-- Where a remote thread stands in `free_append`, with the chunk that it frees. -/
inductive RemotePc
  | outside
  | locking (chunk : ℕ)
  | link (chunk tail : ℕ)
  | storeTail (chunk : ℕ)
  | unlocking
  deriving DecidableEq, Repr

/-- The chunk that is on its way back to the list. -/
def RemotePc.chunk : RemotePc → Option ℕ
  | .locking chunk | .link chunk _ | .storeTail chunk => some chunk
  | .outside | .unlocking => none

/-- The steps of the lock that the thread takes at this point. -/
def RemotePc.Locks {T : Type} : RemotePc → SpinlockStep T → Prop
  | .locking _, .callLock _ | .locking _, .exchangeLock _ | .locking _, .loadReader _ => True
  | .unlocking, .exchangeUnlock _ => True
  | _, _ => False

instance {T : Type} (pc : RemotePc) (a : SpinlockStep T) : Decidable (pc.Locks a) :=
  match pc, a with
  | .locking _, .callLock _ | .locking _, .exchangeLock _ | .locking _, .loadReader _
  | .unlocking, .exchangeUnlock _ => .isTrue trivial
  | .outside, _ | .link _ _, _ | .storeTail _, _
  | .locking _, .exchangeUnlock _ | .locking _, .callReadLock _ | .locking _, .loadLock _
  | .locking _, .incrementReader _ | .locking _, .decrementReader _
  | .unlocking, .callLock _ | .unlocking, .exchangeLock _ | .unlocking, .loadReader _
  | .unlocking, .callReadLock _ | .unlocking, .loadLock _ | .unlocking, .incrementReader _
  | .unlocking, .decrementReader _ => .isFalse id

/-- A pool with its owner and the threads that free its chunks. `live` and `returning` are ghost
state: the chunks that clients hold, and those passed to `free_append` that are not yet on the list. -/
structure SharedPool (T : Type) where
  heap : Heap
  pool : Pool
  live : List ℕ
  returning : List ℕ
  owner : OwnerPc
  lockTail : Spinlock T
  remote : T → RemotePc

inductive SharedPoolStep (T : Type)
  | callMalloc
  | owner (answer : Answer)
  | callFree (thread : T) (chunk : ℕ)
  | lockTail (step : SpinlockStep T)
  | remote (thread : T)
  | overwrite (chunk offset : ℕ) (data : List UInt8)

namespace SharedPool

variable {T : Type} (p : Platform)

def setHead (s : SharedPool T) (head : ℕ) : SharedPool T :=
  { s with pool := { s.pool with storage := { s.pool.storage with head := head } } }

def setTail (s : SharedPool T) (tail : ℕ) : SharedPool T :=
  { s with pool := { s.pool with storage := { s.pool.storage with tail := tail } } }

/-! ## The owner -/

/-- The first chunk of a new block, and the last one. -/
def firstChunk (ptr : ℕ) : ℕ := ptr + p.ptrSize

def lastChunk (pool : Pool) (ptr : ℕ) : ℕ :=
  firstChunk p ptr + pool.totalSize p - pool.allocSize

/-- The call of `::malloc`, which a null answer ends. -/
def request (s : SharedPool T) (answer : Answer) : Option (SharedPool T) :=
  if answer.addr = 0 then some { s with owner := .outside }
  else if s.heap.Fresh p answer.addr (s.pool.requestSize p) then
    some { s with
      heap := s.heap.malloc (s.pool.requestSize p) answer
      owner := .testTail answer.addr }
  else none

/-- An assignment to a link of the new block. -/
def linkNew (s : SharedPool T) (ptr chunk value : ℕ) (owner : OwnerPc) : Option (SharedPool T) :=
  (s.heap.storeNextFrom p (firstChunk p ptr) chunk value).toOption.map fun heap ↦
    { s with heap := heap, owner := owner }

/-- The store of `head_`, and what follows it up to the final `storage().malloc()`. -/
def storeHead (s : SharedPool T) (ptr : ℕ) : Option (SharedPool T) :=
  (s.heap.storeNext p ptr s.pool.first).toOption.map fun heap ↦
    { s with
      heap := heap
      owner := .popHead
      pool := {
        nextSize := s.pool.nextSize * 2 % p.sizeModulus
        allocSize := s.pool.allocSize
        storage := { s.pool.storage with head := firstChunk p ptr }
        first := ptr
        blocks := ⟨ptr, s.pool.requestSize p⟩ :: s.pool.blocks } }

/-- One access of the owner. -/
def ownerStep (s : SharedPool T) (answer : Answer) : Option (SharedPool T) :=
  match s.owner with
  | .outside => none
  | .emptyHead => some { s with owner := .emptyTail s.pool.storage.head }
  | .emptyTail head =>
    some { s with owner := if head = s.pool.storage.tail then .request else .popHead }
  | .request => s.request p answer
  | .testTail ptr =>
    some { s with owner := if s.pool.storage.tail = 0 then .setTail ptr else .loadTail ptr }
  | .setTail ptr => some { s.setTail (lastChunk p s.pool ptr) with owner := .loadEnd ptr }
  | .loadEnd ptr => some { s with owner := .linkEnd ptr s.pool.storage.tail }
  | .linkEnd ptr tail =>
    s.linkNew p ptr tail 0 (.carve ptr (lastChunk p s.pool ptr - s.pool.allocSize)
      (lastChunk p s.pool ptr))
  | .loadTail ptr => some { s with owner := .linkLast ptr s.pool.storage.tail }
  | .linkLast ptr tail =>
    s.linkNew p ptr (lastChunk p s.pool ptr) tail
      (.carve ptr (lastChunk p s.pool ptr - s.pool.allocSize) (lastChunk p s.pool ptr))
  | .carve ptr it last =>
    s.linkNew p ptr it last
      (if it = firstChunk p ptr then .storeHead ptr else .carve ptr (it - s.pool.allocSize) it)
  | .storeHead ptr => s.storeHead p ptr
  | .popHead => some { s with owner := .popNext s.pool.storage.head }
  | .popNext ret =>
    (s.heap.loadNext p ret).toOption.map fun next ↦ { s with owner := .popStore ret next }
  | .popStore ret next =>
    some { s.setHead next with live := ret :: s.live, owner := .outside }

/-! ## The remote threads -/

section Remote

variable [DecidableEq T]

def gotoRemote (s : SharedPool T) (t : T) (pc : RemotePc) : SharedPool T :=
  { s with remote := Function.update s.remote t pc }

/-- A client passes a chunk of its own to `free_append`. -/
def callFree (s : SharedPool T) (t : T) (chunk : ℕ) : Option (SharedPool T) :=
  if s.remote t = .outside ∧ chunk ∈ s.live then
    some ({ s with
      live := s.live.erase chunk
      returning := chunk :: s.returning }.gotoRemote t (.locking chunk))
  else none

/-- A step of `lock_tail_.lock()` or `lock_tail_.unlock()`. -/
def lockStep (s : SharedPool T) (a : SpinlockStep T) : Option (SharedPool T) :=
  if (s.remote a.thread).Locks a then
    (s.lockTail.step a).map fun lock ↦ { s with
      lockTail := lock
      remote := if s.remote a.thread = .unlocking then Function.update s.remote a.thread .outside
        else s.remote }
  else none

/-- One access of a remote thread between `lock()` and `unlock()`. -/
def remoteStep (s : SharedPool T) (t : T) : Option (SharedPool T) :=
  if s.lockTail.pc t = .writing then
    match s.remote t with
    | .locking chunk => some (s.gotoRemote t (.link chunk s.pool.storage.tail))
    | .link chunk tail =>
      (s.heap.storeNext p tail chunk).toOption.map fun heap ↦
        { s with heap := heap }.gotoRemote t (.storeTail chunk)
    | .storeTail chunk =>
      some ({ s.setTail chunk with returning := s.returning.erase chunk }.gotoRemote t .unlocking)
    | .outside | .unlocking => none
  else none

/-- A client writes into a chunk that it holds. -/
def overwrite (s : SharedPool T) (chunk offset : ℕ) (data : List UInt8) : Option (SharedPool T) :=
  if chunk ∈ s.live ∧ offset + data.length ≤ s.pool.allocSize then
    some { s with heap := { s.heap with bytes := s.heap.bytes.write (chunk + offset) data } }
  else none

def step (s : SharedPool T) : SharedPoolStep T → Option (SharedPool T)
  | .callMalloc => if s.owner = .outside then some { s with owner := .emptyHead } else none
  | .owner answer => s.ownerStep p answer
  | .callFree t chunk => s.callFree t chunk
  | .lockTail a => s.lockStep a
  | .remote t => s.remoteStep p t
  | .overwrite chunk offset data => s.overwrite chunk offset data

/-- Nobody is inside an operation. -/
def Quiescent (s : SharedPool T) : Prop :=
  s.owner = .outside ∧ ∀ t, s.remote t = .outside

/-- A well-formed pool with any free list and any chunks handed out, between operations. -/
def Initial (s : SharedPool T) : Prop :=
  (∃ free, s.pool.WellFormed p s.heap free s.live) ∧ s.returning = [] ∧ s.Quiescent ∧
    s.lockTail = Spinlock.initial T

def system (T : Type) [DecidableEq T] : System (SharedPool T) (SharedPoolStep T) :=
  System.ofStep (Initial p) (step p)

end Remote

end SharedPool

end ServerCore.MemoryPool
