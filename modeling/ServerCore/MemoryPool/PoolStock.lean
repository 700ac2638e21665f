import ServerCore.Foundation.Machine
import ServerCore.Foundation.Stock
import ServerCore.MemoryPool.PoolRun

/-!
# A pool as a stock of chunks

`Warehouse` says what a `Pool` is for, without memory: a stock of chunks whose deliveries double in
size. The pool keeps its stock in the chunks themselves, among bytes that clients write and that
`::malloc` leaves behind. It does what the warehouse does all the same. So the chunks that clients get
depend only on their calls of `Malloc`, `Free` and `FreeAppend` and on the addresses that `::malloc`
answers, and the order of reuse is the order of the stock.
-/

namespace ServerCore.MemoryPool

open Foundation

/-- The free chunks in order, and what the next growth adds to them. -/
structure Warehouse where
  allocSize : ℕ
  nextSize : ℕ
  stock : List ℕ
  deriving DecidableEq, Repr

namespace Warehouse

variable {p : Platform} {w : Warehouse}

/-- A new pool has nothing in stock. -/
def construct (p : Platform) (requestedSize : ℕ) : Warehouse where
  allocSize := max requestedSize p.ptrSize
  nextSize := 64
  stock := []

/-- The chunks of a block at this address, none if `::malloc` refuses. -/
def delivery (p : Platform) (w : Warehouse) (addr : ℕ) : List ℕ :=
  if addr = 0 then [] else chunksFrom (addr + p.ptrSize) w.allocSize w.nextSize

/-- The next delivery is twice as large as one that was needed and came. -/
def sizeAfter (w : Warehouse) (addr : ℕ) : ℕ :=
  if w.stock.length ≤ 1 ∧ addr ≠ 0 then w.nextSize * 2 else w.nextSize

def malloc (p : Platform) (w : Warehouse) (addr : ℕ) : ℕ × Warehouse :=
  ((Stock.serve w.stock (.take (w.delivery p addr))).1.getD 0,
    { w with
      nextSize := w.sizeAfter addr
      stock := (Stock.serve w.stock (.take (w.delivery p addr))).2 })

/-- A request that hands out nothing. -/
def accept (w : Warehouse) (call : StockCall ℕ) : Warehouse :=
  { w with stock := (Stock.serve w.stock call).2 }

/-- The calls of a client. What it writes is not the concern of a warehouse, and neither is what is in
a new block. -/
def perform (p : Platform) (w : Warehouse) : PoolCall → ℕ × Warehouse
  | .malloc answer => w.malloc p answer.addr
  | .free chunk => (0, w.accept (.give chunk))
  | .freeAppend chunk => (0, w.accept (.giveLast chunk))
  | .overwrite _ _ _ | .purge => (0, w)

end Warehouse

namespace Pool

variable {p : Platform} {h : Heap} {pool : Pool} {free live : List ℕ}

/-- The warehouse describes the pool. -/
structure Stocked (p : Platform) (h : Heap) (pool : Pool) (live : List ℕ) (w : Warehouse) : Prop where
  wellFormed : pool.WellFormed p h w.stock live
  allocSize : w.allocSize = pool.allocSize
  nextSize : w.nextSize = pool.nextSize

theorem stocked_construct (p : Platform) (h : Heap) (requestedSize : ℕ) :
    (construct p requestedSize).Stocked p h [] (Warehouse.construct p requestedSize) :=
  ⟨wellFormed_construct p h requestedSize, rfl, rfl⟩

/-- `head_ == tail_` means that one chunk at most is in stock. -/
theorem WellFormed.length_le_one_iff (hw : pool.WellFormed p h free live) :
    free.length ≤ 1 ↔ pool.storage.head = pool.storage.tail := by
  constructor
  · intro hfew
    rw [hw.head_eq, hw.tail_eq]
    rcases free with _ | ⟨first, _ | ⟨second, rest⟩⟩
    · rfl
    · rfl
    · simp at hfew
  · intro hempty
    by_contra htwo
    exact hw.head_ne_tail (by omega) hempty

/-- The first of at least two chunks is followed by another one. -/
theorem WellFormed.exists_second (hw : pool.WellFormed p h free live)
    (hne : pool.storage.head ≠ pool.storage.tail) {rest : List ℕ}
    (hfree : free = pool.storage.head :: rest) :
    ∃ second more, free = pool.storage.head :: second :: more ∧ rest = second :: more := by
  cases rest with
  | nil => exact absurd (hw.length_le_one_iff.mp (by simp [hfree])) hne
  | cons second more => exact ⟨second, more, hfree, rfl⟩

/-- A growth delivers a power of two of chunks, which does not wrap. -/
theorem WellFormed.nextSize_of_fits (hw : pool.WellFormed p h free live) (hfits : pool.Fits p) :
    pool.nextSize * 2 % p.sizeModulus = pool.nextSize * 2 := by
  have hptr := p.ptrSize_ge
  have hroom := hw.alloc_ge
  have hmul := Nat.mul_le_mul_left pool.nextSize (show 2 ≤ pool.allocSize by omega)
  unfold Fits at hfits
  exact Nat.mod_eq_of_lt (by omega)

/-- The chunks delivered are those carved from the new block. -/
theorem newChunks_eq {w : Warehouse} {addr j : ℕ} (hsize : w.allocSize = pool.allocSize)
    (hnext : w.nextSize = j + 2) (haddr : addr ≠ 0) :
    w.delivery p addr = (addr + p.ptrSize) :: pool.newChunks p addr j := by
  unfold Warehouse.delivery newChunks
  rw [if_neg haddr, hsize, hnext, chunksFrom_cons]

/-- The pool has a chunk to give. -/
theorem Stocked.malloc_of_ne {w : Warehouse} (hs : pool.Stocked p h live w) (answer : Answer)
    (hne : pool.storage.head ≠ pool.storage.tail) :
    ∃ after, pool.malloc p h answer = .ok ((w.malloc p answer.addr).1, h, after) ∧
      (w.malloc p answer.addr).1 ≠ 0 ∧
      after.Stocked p h ((w.malloc p answer.addr).1 :: live) (w.malloc p answer.addr).2 := by
  obtain ⟨rest, hfree, hmalloc, hwf⟩ := hs.wellFormed.malloc_spec answer hne
  obtain ⟨second, more, hstock, rfl⟩ := hs.wellFormed.exists_second hne hfree
  have htwo : ¬ w.stock.length ≤ 1 := fun hfew ↦ hne (hs.wellFormed.length_le_one_iff.mp hfew)
  have hserve : w.malloc p answer.addr =
      (pool.storage.head, { w with stock := second :: more }) := by
    simp [Warehouse.malloc, Warehouse.sizeAfter, htwo, Stock.serve_take_of_two hstock]
  have hpos := (hs.wellFormed.chunk_lt
    (hs.wellFormed.free_mem (show pool.storage.head ∈ w.stock by simp [hfree]))).1
  rw [hserve]
  exact ⟨_, hmalloc, by omega, hwf, hs.allocSize, hs.nextSize⟩

/-- The pool has none, and `::malloc` gives it a block. -/
theorem Stocked.malloc_of_grown {w : Warehouse} (hs : pool.Stocked p h live w) {answer : Answer}
    (hempty : pool.storage.head = pool.storage.tail) (haddr : answer.addr ≠ 0)
    (hfresh : h.Fresh p answer.addr (pool.requestSize p)) (hfits : pool.Fits p) :
    ∃ heap after, pool.malloc p h answer = .ok ((w.malloc p answer.addr).1, heap, after) ∧
      (w.malloc p answer.addr).1 ≠ 0 ∧
      after.Stocked p heap ((w.malloc p answer.addr).1 :: live) (w.malloc p answer.addr).2 := by
  have hw := hs.wellFormed
  obtain ⟨j, htotal, hnext⟩ := hw.blockChain.totalSize_eq hfits
  obtain ⟨heap, hgrow, hheap⟩ := hw.blockChain.resizeAndMalloc_eq_ok hw.tail_lt hfresh htotal
  have hwf := hw.wellFormed_grown hempty hfresh htotal hheap
  have hfew := hw.length_le_one_iff.mpr hempty
  have hdelivery := newChunks_eq (p := p) hs.allocSize (hs.nextSize.trans hnext) haddr
  have hserve : w.malloc p answer.addr = (answer.addr + p.ptrSize,
      { w with
        nextSize := w.nextSize * 2
        stock := pool.newChunks p answer.addr j ++ w.stock }) := by
    simp [Warehouse.malloc, Warehouse.sizeAfter, hfew, haddr, hdelivery,
      Stock.serve_take_cons hfew]
  have hmalloc : pool.malloc p h answer = pool.resizeAndMalloc p h answer := by
    unfold Pool.malloc
    simp [SegregatedStorage.empty, hempty]
  rw [hserve, hmalloc, hgrow]
  refine ⟨heap, _, rfl, by simp [haddr], hwf, hs.allocSize, ?_⟩
  change w.nextSize * 2 = pool.nextSize * 2 % p.sizeModulus
  rw [hw.nextSize_of_fits hfits, hs.nextSize]

/-- The pool has none, and `::malloc` refuses. -/
theorem Stocked.malloc_of_null {w : Warehouse} (hs : pool.Stocked p h live w) {answer : Answer}
    (hempty : pool.storage.head = pool.storage.tail) (hnull : answer.addr = 0) :
    pool.malloc p h answer = .ok (0, h, pool) ∧ w.malloc p answer.addr = (0, w) := by
  have hfew := hs.wellFormed.length_le_one_iff.mpr hempty
  refine ⟨Pool.malloc_of_null hempty hnull, ?_⟩
  simp [Warehouse.malloc, Warehouse.sizeAfter, Warehouse.delivery, hnull, Stock.serve_take_nil hfew]

/-- A `Malloc` that is not refused returns a chunk. -/
theorem Stocked.malloc_of_granted {w : Warehouse} (hs : pool.Stocked p h live w) {answer : Answer}
    (hfresh : pool.storage.head = pool.storage.tail → answer.addr ≠ 0 →
      h.Fresh p answer.addr (pool.requestSize p))
    (hgrant : pool.storage.head = pool.storage.tail → answer.addr ≠ 0 ∧ pool.Fits p) :
    ∃ heap after, pool.malloc p h answer = .ok ((w.malloc p answer.addr).1, heap, after) ∧
      (w.malloc p answer.addr).1 ≠ 0 ∧
      after.Stocked p heap ((w.malloc p answer.addr).1 :: live) (w.malloc p answer.addr).2 := by
  by_cases hempty : pool.storage.head = pool.storage.tail
  · obtain ⟨haddr, hfits⟩ := hgrant hempty
    exact hs.malloc_of_grown hempty haddr (hfresh hempty haddr) hfits
  · obtain ⟨after, hmalloc⟩ := hs.malloc_of_ne answer hempty
    exact ⟨h, after, hmalloc⟩

/-- What `Malloc` returns is what the warehouse hands out. -/
theorem Stocked.malloc_spec {w : Warehouse} (hs : pool.Stocked p h live w) {answer : Answer}
    (hfresh : pool.storage.head = pool.storage.tail → answer.addr ≠ 0 →
      h.Fresh p answer.addr (pool.requestSize p))
    (hfits : pool.storage.head = pool.storage.tail → answer.addr ≠ 0 → pool.Fits p) :
    ∃ heap after, pool.malloc p h answer = .ok ((w.malloc p answer.addr).1, heap, after) ∧
      after.Stocked p heap
        (if (w.malloc p answer.addr).1 = 0 then live else (w.malloc p answer.addr).1 :: live)
        (w.malloc p answer.addr).2 := by
  by_cases hrefused : pool.storage.head = pool.storage.tail ∧ answer.addr = 0
  · obtain ⟨hmalloc, hserve⟩ := hs.malloc_of_null hrefused.1 hrefused.2
    rw [hserve]
    exact ⟨h, pool, hmalloc, hs⟩
  · rw [not_and] at hrefused
    obtain ⟨heap, after, hmalloc, hne, hafter⟩ := hs.malloc_of_granted hfresh
      fun hempty ↦ ⟨hrefused hempty, hfits hempty (hrefused hempty)⟩
    exact ⟨heap, after, hmalloc, by rwa [if_neg hne]⟩

/-- `Free` and `FreeAppend` are the two ways to give a chunk back. -/
theorem Stocked.free_spec {w : Warehouse} (hs : pool.Stocked p h live w) {chunk : ℕ}
    (hlive : chunk ∈ live) :
    ∃ heap after, pool.free p h chunk = .ok (heap, after) ∧
      after.Stocked p heap (live.erase chunk) (w.accept (.give chunk)) := by
  obtain ⟨hfree, hwf⟩ := hs.wellFormed.free_spec hlive
  refine ⟨_, _, hfree, ?_, hs.allocSize, hs.nextSize⟩
  simpa [Warehouse.accept] using hwf

theorem Stocked.freeAppend_spec {w : Warehouse} (hs : pool.Stocked p h live w) {chunk : ℕ}
    (hlive : chunk ∈ live) :
    ∃ heap after, pool.freeAppend p h chunk = .ok (heap, after) ∧
      after.Stocked p heap (live.erase chunk) (w.accept (.giveLast chunk)) := by
  obtain ⟨hfree, hwf⟩ := hs.wellFormed.freeAppend_spec hlive
  refine ⟨_, _, hfree, ?_, hs.allocSize, hs.nextSize⟩
  simpa [Warehouse.accept] using hwf

end Pool

namespace Client

variable {p : Platform} {s after : Client} {w : Warehouse}

/-- The warehouse describes the pool of the client. -/
def Stocked (p : Platform) (s : Client) (w : Warehouse) : Prop :=
  s.pool.Stocked p s.heap s.live w

/-- A call within the contract, on a pool that is not purged and whose growth sizes do not wrap. -/
def InContract (p : Platform) (s : Client) (call : PoolCall) : Prop :=
  call ≠ .purge ∧ s.Allowed p call ∧ s.GrowthFits p call

theorem Fresh.stocked {requestedSize : ℕ} (h : s.Fresh p requestedSize) :
    s.Stocked p (Warehouse.construct p requestedSize) := by
  obtain ⟨hpool, hlive, -⟩ := h
  unfold Stocked
  rw [hpool, hlive]
  exact Pool.stocked_construct p s.heap requestedSize

/-- Every call has the result that the warehouse gives. -/
theorem describes (p : Platform) :
    Machine.Describes (Stocked p) (InContract p) (perform p) (Warehouse.perform p) := by
  rintro s w call hs ⟨hcall, hallowed, hfits⟩
  cases call with
  | malloc answer =>
    obtain ⟨heap, pool, hmalloc, hafter⟩ := Pool.Stocked.malloc_spec hs hallowed hfits
    refine ⟨(s.received ((w.malloc p answer.addr).1, heap, pool)).2, ?_, hafter⟩
    rw [perform, hmalloc]
    rfl
  | free chunk =>
    obtain ⟨heap, pool, hfree, hafter⟩ := Pool.Stocked.free_spec hs hallowed
    refine ⟨⟨heap, pool, s.live.erase chunk⟩, ?_, hafter⟩
    rw [perform, hfree]
    rfl
  | freeAppend chunk =>
    obtain ⟨heap, pool, hfree, hafter⟩ := Pool.Stocked.freeAppend_spec hs hallowed
    refine ⟨⟨heap, pool, s.live.erase chunk⟩, ?_, hafter⟩
    rw [perform, hfree]
    rfl
  | overwrite chunk offset data =>
    obtain ⟨hlive, hroom⟩ := hallowed
    refine ⟨s.overwritten (chunk + offset) data, rfl, ?_, hs.allocSize, hs.nextSize⟩
    apply hs.wellFormed.frame_live (s.overwritten (chunk + offset) data).heap hlive rfl
    intro x hx
    apply ByteMemory.write_of_outside
    omega
  | purge => exact absurd rfl hcall

theorem Stocked.freeList (hs : s.Stocked p w) : s.pool.FreeList p s.heap w.stock :=
  hs.wellFormed.freeList

/-- **Refinement.** Whatever a client of a fresh pool calls within its contract, and whatever it writes
into its chunks, the calls go through, their results are those of the warehouse, and the free list is
the stock of the warehouse in order. -/
theorem results_eq_warehouse {requestedSize : ℕ} {calls : List PoolCall}
    (hfresh : s.Fresh p requestedSize)
    (hfed : Machine.FedWell (InContract p) (perform p) s calls) :
    ∃ last, Machine.feed (perform p) s calls = .ok ((Machine.answers (Warehouse.perform p)
        (Warehouse.construct p requestedSize) calls).1, last) ∧
      last.pool.FreeList p last.heap (Machine.answers (Warehouse.perform p)
        (Warehouse.construct p requestedSize) calls).2.stock := by
  obtain ⟨last, hfeed, hlast⟩ := (describes p).feed_eq hfresh.stocked hfed
  exact ⟨last, hfeed, hlast.freeList⟩

theorem newcomer_fedWell :
    Machine.FedWell (InContract .x64) (perform .x64) newcomer [.malloc page] :=
  ⟨⟨by simp, newcomer_allowed, newcomer_growthFits⟩, fun _ _ _ ↦ trivial⟩

/-- The refinement applied to the first call of a client. -/
theorem results_eq_warehouse_newcomer :
    ∃ last, Machine.feed (perform .x64) newcomer [.malloc page] = .ok ((Machine.answers
        (Warehouse.perform .x64) (Warehouse.construct .x64 8) [.malloc page]).1, last) ∧
      last.pool.FreeList .x64 last.heap (Machine.answers
        (Warehouse.perform .x64) (Warehouse.construct .x64 8) [.malloc page]).2.stock :=
  results_eq_warehouse newcomer_fresh newcomer_fedWell

/-! ## What the results depend on -/

/-- The call without the bytes it brings along; nothing remains of a write. -/
def scrubbed : PoolCall → Option PoolCall
  | .malloc answer => some (.malloc ⟨answer.addr, fun _ ↦ 0⟩)
  | .free chunk => some (.free chunk)
  | .freeAppend chunk => some (.freeAppend chunk)
  | .overwrite _ _ _ => none
  | .purge => some .purge

/-- The chunks that were handed out, in order. -/
def chunksOf (results : List ℕ) : List ℕ :=
  results.filter fun result ↦ result ≠ 0

/-- A warehouse does not see the bytes. -/
theorem answers_scrubbed (p : Platform) (w : Warehouse) (calls : List PoolCall) :
    chunksOf (Machine.answers (Warehouse.perform p) w (calls.filterMap scrubbed)).1 =
        chunksOf (Machine.answers (Warehouse.perform p) w calls).1 ∧
      (Machine.answers (Warehouse.perform p) w (calls.filterMap scrubbed)).2 =
        (Machine.answers (Warehouse.perform p) w calls).2 := by
  induction calls generalizing w with
  | nil => exact ⟨rfl, rfl⟩
  | cons call rest ih =>
    cases call with
    | overwrite chunk offset data => exact ih w
    | malloc answer =>
      obtain ⟨hchunks, hlast⟩ := ih (w.malloc p answer.addr).2
      refine ⟨?_, hlast⟩
      simp only [List.filterMap_cons, scrubbed, Machine.answers_cons, Warehouse.perform, chunksOf,
        List.filter_cons]
      rw [show List.filter _ _ = _ from hchunks]
      rfl
    | free chunk =>
      obtain ⟨hchunks, hlast⟩ := ih (w.accept (.give chunk))
      exact ⟨hchunks, hlast⟩
    | freeAppend chunk =>
      obtain ⟨hchunks, hlast⟩ := ih (w.accept (.giveLast chunk))
      exact ⟨hchunks, hlast⟩
    | purge =>
      obtain ⟨hchunks, hlast⟩ := ih w
      exact ⟨hchunks, hlast⟩

/-- **Independence of memory.** Two clients of fresh pools, in different heaps, that make the same calls
get the same chunks in the same order and end with the same free list, whatever they write in between
and whatever is in the blocks that `::malloc` gives them. -/
theorem chunks_eq_of_scrubbed_eq {requestedSize : ℕ} {other : Client} {calls calls' : List PoolCall}
    (hfresh : s.Fresh p requestedSize) (hother : other.Fresh p requestedSize)
    (hfed : Machine.FedWell (InContract p) (perform p) s calls)
    (hfed' : Machine.FedWell (InContract p) (perform p) other calls')
    (hsame : calls.filterMap scrubbed = calls'.filterMap scrubbed) :
    ∃ results results' last last' path,
      Machine.feed (perform p) s calls = .ok (results, last) ∧
      Machine.feed (perform p) other calls' = .ok (results', last') ∧
      chunksOf results = chunksOf results' ∧
      last.pool.FreeList p last.heap path ∧ last'.pool.FreeList p last'.heap path := by
  obtain ⟨last, hfeed, hlast⟩ := (describes p).feed_eq hfresh.stocked hfed
  obtain ⟨last', hfeed', hlast'⟩ := (describes p).feed_eq hother.stocked hfed'
  obtain ⟨hchunks, hstate⟩ := answers_scrubbed p (Warehouse.construct p requestedSize) calls
  obtain ⟨hchunks', hstate'⟩ := answers_scrubbed p (Warehouse.construct p requestedSize) calls'
  rw [hsame] at hchunks hstate
  have hend := hstate.symm.trans hstate'
  refine ⟨_, _, last, last', _, hfeed, hfeed', hchunks.symm.trans hchunks', hlast.freeList, ?_⟩
  rw [hend]
  exact hlast'.freeList

/-- The same client in memory full of ones, and a block full of ones. -/
def dirty : Client := ⟨⟨fun _ ↦ 255, []⟩, Pool.construct .x64 8, []⟩

def dirtyPage : Answer := ⟨4096, fun _ ↦ 255⟩

theorem dirty_fedWell :
    Machine.FedWell (InContract .x64) (perform .x64) dirty [.malloc dirtyPage] := by
  refine ⟨⟨by simp, ?_, ?_⟩, fun _ _ _ ↦ trivial⟩
  · intro _ _
    decide
  · intro _ _
    unfold Pool.Fits
    decide

/-- The two clients get the same chunk. -/
theorem chunks_eq_of_scrubbed_eq_dirty :
    ∃ results results' last last' path,
      Machine.feed (perform .x64) newcomer [.malloc page] = .ok (results, last) ∧
      Machine.feed (perform .x64) dirty [.malloc dirtyPage] = .ok (results', last') ∧
      chunksOf results = chunksOf results' ∧
      last.pool.FreeList .x64 last.heap path ∧ last'.pool.FreeList .x64 last'.heap path :=
  chunks_eq_of_scrubbed_eq newcomer_fresh ⟨rfl, rfl, by simp [NullFree, dirty]⟩
    newcomer_fedWell dirty_fedWell rfl

/-! ## The order of reuse -/

/-- The calls that put a chunk in front of the free list. -/
def isFree : PoolCall → Bool
  | .free _ => true
  | _ => false

/-- The calls that put one behind its end. -/
def isFreeAppend : PoolCall → Bool
  | .freeAppend _ => true
  | _ => false

/-- One chunk leaves the hands of the client, and one joins the stock. -/
theorem Stocked.length_chunks (hs : s.Stocked p w) :
    (s.pool.chunks p).length = w.stock.length + s.live.length := by
  rw [← hs.wellFormed.partition.length_eq, List.length_append]

/-- What a call does to the number of chunks in the client's hands. -/
theorem length_live_of_perform (hs : s.Stocked p w) {call : PoolCall} (hin : s.InContract p call)
    {result : ℕ} (hperform : s.perform p call = .ok (result, after)) :
    (if isFree call then 1 else 0) + (if isFreeAppend call then 1 else 0) + after.live.length =
      s.live.length + (if result ≠ 0 then 1 else 0) := by
  obtain ⟨hcall, hallowed, hfits⟩ := hin
  cases call with
  | malloc answer =>
    obtain ⟨heap, pool, hmalloc, -⟩ := Pool.Stocked.malloc_spec hs hallowed hfits
    simp only [perform, hmalloc, Except.map, received, Except.ok.injEq, Prod.mk.injEq] at hperform
    obtain ⟨rfl, rfl⟩ := hperform
    by_cases hnull : (w.malloc p answer.addr).1 = 0
    · simp [isFree, isFreeAppend, hnull]
    · simp [isFree, isFreeAppend, hnull]
  | free chunk =>
    obtain ⟨heap, pool, hfree, -⟩ := Pool.Stocked.free_spec hs hallowed
    simp only [perform, hfree, Except.map, released, Except.ok.injEq, Prod.mk.injEq] at hperform
    obtain ⟨rfl, rfl⟩ := hperform
    have hpos := List.length_pos_of_mem hallowed
    simp only [isFree, isFreeAppend, List.length_erase_of_mem hallowed, if_true]
    simp only [Bool.false_eq_true, if_false, ne_eq, not_true_eq_false]
    omega
  | freeAppend chunk =>
    obtain ⟨heap, pool, hfree, -⟩ := Pool.Stocked.freeAppend_spec hs hallowed
    simp only [perform, hfree, Except.map, released, Except.ok.injEq, Prod.mk.injEq] at hperform
    obtain ⟨rfl, rfl⟩ := hperform
    have hpos := List.length_pos_of_mem hallowed
    simp only [isFree, isFreeAppend, List.length_erase_of_mem hallowed, if_true]
    simp only [Bool.false_eq_true, if_false, ne_eq, not_true_eq_false]
    omega
  | overwrite chunk offset data =>
    simp only [perform, Except.ok.injEq, Prod.mk.injEq] at hperform
    obtain ⟨rfl, rfl⟩ := hperform
    simp [isFree, isFreeAppend, overwritten]
  | purge => exact absurd rfl hcall

/-- A chunk in stock is what `Malloc` returns exactly if it is what the stock hands out. -/
theorem malloc_eq_iff {addr chunk : ℕ} (hpos : 0 < chunk) :
    (w.malloc p addr).1 = chunk ↔
      (Stock.serve w.stock (.take (w.delivery p addr))).1 = some chunk := by
  unfold Warehouse.malloc
  cases (Stock.serve w.stock (.take (w.delivery p addr))).1 with
  | none =>
    simp only [Option.getD_none, reduceCtorEq, iff_false]
    omega
  | some first => simp

/-- Behind a chunk that stays in stock, the stock changes at its end only. -/
theorem idxOf_perform {call : PoolCall} {chunk : ℕ} (hpos : 0 < chunk) (hchunk : chunk ∈ w.stock)
    (hnodup : (w.perform p call).2.stock.Nodup) (hkept : (w.perform p call).1 ≠ chunk) :
    chunk ∈ (w.perform p call).2.stock ∧
      (w.perform p call).2.stock.idxOf chunk +
          (w.stock.length + (if isFreeAppend call then 1 else 0)) =
        w.stock.idxOf chunk + (w.perform p call).2.stock.length := by
  cases call with
  | malloc answer =>
    have hstays := mt (malloc_eq_iff hpos).mpr hkept
    exact ⟨Stock.mem_serve hchunk hstays, Stock.idxOf_serve hchunk hnodup hstays⟩
  | free other =>
    have hstays : (Stock.serve w.stock (.give other)).1 ≠ some chunk := by simp
    exact ⟨Stock.mem_serve hchunk hstays, Stock.idxOf_serve hchunk hnodup hstays⟩
  | freeAppend other =>
    have hstays : (Stock.serve w.stock (.giveLast other)).1 ≠ some chunk := by simp
    exact ⟨Stock.mem_serve hchunk hstays, Stock.idxOf_serve hchunk hnodup hstays⟩
  | overwrite | purge => exact ⟨hchunk, rfl⟩

/-- The place of a free chunk that a call does not hand out. -/
theorem Stocked.place_of_perform (hs : s.Stocked p w) {call : PoolCall}
    (hin : s.InContract p call) {result : ℕ} (hperform : s.perform p call = .ok (result, after))
    {chunk : ℕ} (hchunk : chunk ∈ w.stock) (hkept : result ≠ chunk) :
    after.Stocked p (w.perform p call).2 ∧ chunk ∈ (w.perform p call).2.stock ∧
      (w.perform p call).2.stock.idxOf chunk + (if result ≠ 0 then 1 else 0) +
          (s.pool.chunks p).length =
        w.stock.idxOf chunk + (if isFree call then 1 else 0) + (after.pool.chunks p).length := by
  have hlive := length_live_of_perform hs hin hperform
  obtain ⟨next, hnext, hafter⟩ := describes p s w call hs hin
  rw [hperform, Except.ok.injEq, Prod.mk.injEq] at hnext
  obtain ⟨rfl, rfl⟩ := hnext
  have hpos := (hs.wellFormed.chunk_lt (hs.wellFormed.free_mem hchunk)).1
  have hnodup := (List.nodup_append.mp hafter.wellFormed.nodup_append).1
  obtain ⟨hstays, hplace⟩ := idxOf_perform hpos hchunk hnodup hkept
  refine ⟨hafter, hstays, ?_⟩
  rw [hs.length_chunks, hafter.length_chunks]
  omega

/-- How many chunks were handed out. -/
def handedOut (results : List ℕ) : ℕ :=
  results.countP fun result ↦ result ≠ 0

/-- The place of a free chunk after calls that do not hand it out. -/
theorem Stocked.place_of_feed {calls : List PoolCall} (hs : s.Stocked p w)
    (hfed : Machine.FedWell (InContract p) (perform p) s calls) {results : List ℕ}
    (hfeed : Machine.feed (perform p) s calls = .ok (results, after)) {chunk : ℕ}
    (hchunk : chunk ∈ w.stock) (hkept : chunk ∉ results) :
    ∃ w', after.Stocked p w' ∧ chunk ∈ w'.stock ∧
      w'.stock.idxOf chunk + handedOut results + (s.pool.chunks p).length =
        w.stock.idxOf chunk + calls.countP isFree + (after.pool.chunks p).length := by
  induction calls generalizing s w results with
  | nil =>
    rw [Machine.feed_nil, Except.ok.injEq, Prod.mk.injEq] at hfeed
    obtain ⟨rfl, rfl⟩ := hfeed
    exact ⟨w, hs, hchunk, rfl⟩
  | cons call rest ih =>
    obtain ⟨result, next, later, hperform, hlater, rfl⟩ := Machine.of_feed_cons hfeed
    obtain ⟨hin, hrest⟩ := hfed
    rw [List.mem_cons, not_or] at hkept
    obtain ⟨hnext, hstays, hplace⟩ := hs.place_of_perform hin hperform hchunk (Ne.symm hkept.1)
    obtain ⟨w', hlast, hmem, hends⟩ := ih hnext (hrest result next hperform) hlater hstays hkept.2
    refine ⟨w', hlast, hmem, ?_⟩
    unfold handedOut at hends ⊢
    rw [List.countP_cons, List.countP_cons]
    simp only [decide_eq_true_eq]
    omega

/-- A chunk that was in stock is not the first of a delivery. -/
theorem Stocked.head_delivery_ne (hs : s.Stocked p w) {answer : Answer}
    (hin : s.InContract p (.malloc answer)) {chunk : ℕ} (hchunk : chunk ∈ w.stock)
    (hfew : w.stock.length ≤ 1) : (w.delivery p answer.addr).head? ≠ some chunk := by
  intro hhead
  obtain ⟨-, hallowed, hfits⟩ := hin
  have hempty := hs.wellFormed.length_le_one_iff.mp hfew
  obtain ⟨rest, hdelivery⟩ : ∃ rest, w.delivery p answer.addr = chunk :: rest :=
    List.head?_eq_some_iff.mp hhead
  have haddr : answer.addr ≠ 0 := by
    intro hnull
    simp [Warehouse.delivery, hnull] at hdelivery
  have hserve : w.malloc p answer.addr =
      (chunk, { w with nextSize := w.nextSize * 2, stock := rest ++ w.stock }) := by
    simp [Warehouse.malloc, Warehouse.sizeAfter, hfew, haddr, hdelivery,
      Stock.serve_take_cons hfew]
  obtain ⟨heap, pool, -, -, hafter⟩ :=
    Pool.Stocked.malloc_of_grown hs hempty haddr (hallowed hempty haddr) (hfits hempty haddr)
  rw [hserve] at hafter
  have hfree : chunk ∈ rest ++ w.stock := List.mem_append_right rest hchunk
  exact hafter.wellFormed.ne_of_free_of_live hfree List.mem_cons_self rfl

/-- `Malloc` returns a free chunk exactly if it is the first of at least two. -/
theorem Stocked.malloc_returns_iff (hs : s.Stocked p w) {answer : Answer}
    (hin : s.InContract p (.malloc answer)) {chunk : ℕ} (hchunk : chunk ∈ w.stock) :
    (∃ last, s.perform p (.malloc answer) = .ok (chunk, last)) ↔
      w.stock.idxOf chunk = 0 ∧ s.pool.storage.head ≠ s.pool.storage.tail := by
  have hpos := (hs.wellFormed.chunk_lt (hs.wellFormed.free_mem hchunk)).1
  obtain ⟨next, hnext, -⟩ := describes p s w _ hs hin
  have hresult : (∃ last, s.perform p (.malloc answer) = .ok (chunk, last)) ↔
      (w.malloc p answer.addr).1 = chunk := by
    rw [hnext]
    simp [Warehouse.perform]
  rw [hresult, malloc_eq_iff hpos,
    Stock.serve_take_eq_some_iff hchunk (hs.head_delivery_ne hin hchunk), ne_eq,
    ← hs.wellFormed.length_le_one_iff, not_le]

/-- Every state of a run without a purge is described by a warehouse. -/
theorem stocked_of_run {requestedSize : ℕ} {history : List (Client × PoolCall)}
    (hrun : (system p (Fresh p requestedSize)).Run history s)
    (hnopurge : System.Obeys (fun _ call ↦ call ≠ .purge) history) {path : List ℕ}
    (hpath : s.pool.FreeList p s.heap path) :
    s.Stocked p ⟨s.pool.allocSize, s.pool.nextSize, path⟩ := by
  obtain ⟨free, hw⟩ := wellFormed_of_run (fun start hfresh ↦ Fresh.wellFormed hfresh) hrun hnopurge
  rw [hpath.unique hw.freeList]
  exact ⟨hw, rfl, rfl⟩

end Client

end ServerCore.MemoryPool
