import ServerCore.Foundation.TransitionSystem
import ServerCore.MemoryPool.PoolGrowth

/-!
# Runs of a pool and its client

A client calls `Malloc`, `Free`, `FreeAppend` and `PurgeMemory` on one pool and writes into the chunks
it holds. It keeps the contract of a pool: it frees a chunk that `Malloc` returned and that it has not
freed since, and drops all its chunks at a purge. `::malloc` answers a growth with null or with a
block disjoint from those it has handed out.

The main theorem is about runs without a purge: the free list stays intact whatever the client does,
and `Malloc` hands out what is not handed out already.
-/

namespace ServerCore.MemoryPool

open Foundation

/-- A pool, the heap it shares with the rest of the program, and the chunks its client holds. -/
structure Client where
  heap : Heap
  pool : Pool
  live : List ℕ

/-- What a client can do. A call of `Malloc` comes with the answer of `::malloc` in case it grows. -/
inductive PoolCall
  | malloc (answer : Answer)
  | free (chunk : ℕ)
  | freeAppend (chunk : ℕ)
  | overwrite (chunk offset : ℕ) (data : List UInt8)
  | purge

namespace Client

variable {p : Platform} {s after : Client}

/-- The contract of the client, and of `::malloc` when the pool grows. -/
def Allowed (p : Platform) (s : Client) : PoolCall → Prop
  | .malloc answer => s.pool.storage.head = s.pool.storage.tail → answer.addr ≠ 0 →
      s.heap.Fresh p answer.addr (s.pool.requestSize p)
  | .free chunk | .freeAppend chunk => chunk ∈ s.live
  | .overwrite chunk offset data => chunk ∈ s.live ∧ offset + data.length ≤ s.pool.allocSize
  | .purge => True

/-- If the call grows the pool, the growth sizes do not wrap. -/
def GrowthFits (p : Platform) (s : Client) : PoolCall → Prop
  | .malloc answer => s.pool.storage.head = s.pool.storage.tail → answer.addr ≠ 0 → s.pool.Fits p
  | _ => True

/-- The client receives what `Malloc` returned. -/
def received (s : Client) (result : ℕ × Heap × Pool) : ℕ × Client :=
  (result.1, ⟨result.2.1, result.2.2, if result.1 = 0 then s.live else result.1 :: s.live⟩)

/-- The client has given a chunk back. -/
def released (s : Client) (chunk : ℕ) (result : Heap × Pool) : ℕ × Client :=
  (0, ⟨result.1, result.2, s.live.erase chunk⟩)

/-- The client has written into a chunk. -/
def overwritten (s : Client) (addr : ℕ) (data : List UInt8) : Client :=
  { s with heap := { s.heap with bytes := s.heap.bytes.write addr data } }

/-- The call and its result, `0` for the calls that return no chunk. -/
def perform (p : Platform) (s : Client) : PoolCall → Except Fault (ℕ × Client)
  | .malloc answer => (s.pool.malloc p s.heap answer).map s.received
  | .free chunk => (s.pool.free p s.heap chunk).map (s.released chunk)
  | .freeAppend chunk => (s.pool.freeAppend p s.heap chunk).map (s.released chunk)
  | .overwrite chunk offset data => .ok (0, s.overwritten (chunk + offset) data)
  | .purge => (s.pool.purgeMemory p s.heap).map fun result ↦ (0, ⟨result.1, result.2, []⟩)

/-- The client and its pool from given initial states on. A call that runs into undefined behaviour
has no step. -/
def system (p : Platform) (init : Client → Prop) : System Client PoolCall where
  init := init
  step s call after := s.Allowed p call ∧ ∃ result, s.perform p call = .ok (result, after)

/-- No block lies at address null. -/
def NullFree (s : Client) : Prop :=
  ∀ b ∈ s.heap.blocks, 0 < b.base

/-- A fresh pool. -/
def Fresh (p : Platform) (requestedSize : ℕ) (s : Client) : Prop :=
  s.pool = Pool.construct p requestedSize ∧ s.live = [] ∧ s.NullFree

/-- The pool is well formed, with its chunks divided between the free list and the client. -/
def WellFormed (p : Platform) (s : Client) : Prop :=
  ∃ free, s.pool.WellFormed p s.heap free s.live

theorem Fresh.wellFormed {requestedSize : ℕ} (h : s.Fresh p requestedSize) : s.WellFormed p := by
  obtain ⟨hpool, hlive, -⟩ := h
  refine ⟨[], ?_⟩
  rw [hpool, hlive]
  exact Pool.wellFormed_construct p s.heap requestedSize

/-! ## One call -/

/-- A chunk as `Malloc` should hand it out: not live, inside a block of the pool and behind its
header, apart from the live chunks and from all headers. -/
structure HandedOut (p : Platform) (s after : Client) (chunk : ℕ) : Prop where
  carved : chunk ∈ after.pool.chunks p
  notLive : chunk ∉ s.live
  inside : ∃ b ∈ after.pool.blocks, b ∈ after.heap.blocks ∧
    b.base + p.ptrSize ≤ chunk ∧ chunk + after.pool.allocSize ≤ b.base + b.size
  apartLive : ∀ other ∈ s.live, Apart chunk after.pool.allocSize other after.pool.allocSize
  apartHeaders : ∀ b ∈ after.pool.blocks, Apart chunk after.pool.allocSize b.base p.ptrSize

/-- What a well-formed pool counts as live next to the others was handed out properly. -/
theorem handedOut_of_wellFormed {free : List ℕ} {chunk : ℕ}
    (hw : after.pool.WellFormed p after.heap free (chunk :: s.live)) :
    s.HandedOut p after chunk := by
  have hmem := hw.live_mem List.mem_cons_self
  have hnodup := (List.nodup_append.mp hw.nodup_append).2.1
  have hnew := (List.nodup_cons.mp hnodup).1
  obtain ⟨b, hb, hlow, hhigh⟩ := hw.chunk_bounds hmem
  exact {
    carved := hmem
    notLive := hnew
    inside := ⟨b, hb, hw.owned b hb, hlow, hhigh⟩
    apartLive := by
      intro other hother
      apply hw.chunks_apart hmem (hw.live_mem (List.mem_cons_of_mem _ hother))
      intro heq
      exact hnew (heq ▸ hother)
    apartHeaders := by
      intro c hc
      exact (hw.chunk_apart_header hmem hc).symm }

/-- What a call other than a purge makes of a well-formed state. -/
structure Kept (p : Platform) (s after : Client) (result : ℕ) : Prop where
  wellFormed : after.WellFormed p
  nullFree : s.NullFree → after.NullFree
  handedOut : result ≠ 0 → s.HandedOut p after result

theorem kept_received {answer : Answer} {free : List ℕ}
    {outcome : Except Fault (ℕ × Heap × Pool)} (hw : s.pool.WellFormed p s.heap free s.live)
    (hout : Pool.MallocOutcome p s.heap s.pool free s.live answer outcome) {result : ℕ}
    (hreceived : outcome.map s.received = .ok (result, after)) : s.Kept p after result := by
  cases hout with
  | pop hne hfree hwf =>
    have hpos := (hw.chunk_lt (hw.free_mem (show s.pool.storage.head ∈ free by simp [hfree]))).1
    simp only [Except.map, received, Except.ok.injEq, Prod.mk.injEq,
      if_neg (show s.pool.storage.head ≠ 0 by omega)] at hreceived
    obtain ⟨rfl, rfl⟩ := hreceived
    exact ⟨⟨_, hwf⟩, fun hnull ↦ hnull, fun _ ↦ handedOut_of_wellFormed hwf⟩
  | outOfMemory hempty hnull =>
    simp only [Except.map, received, Except.ok.injEq, Prod.mk.injEq] at hreceived
    obtain ⟨rfl, rfl⟩ := hreceived
    exact ⟨⟨free, hw⟩, fun hnull ↦ hnull, fun hne ↦ absurd rfl hne⟩
  | grow hempty haddr hafter hwf =>
    simp only [Except.map, received, Except.ok.injEq, Prod.mk.injEq,
      if_neg (show answer.addr + p.ptrSize ≠ 0 by omega)] at hreceived
    obtain ⟨rfl, rfl⟩ := hreceived
    refine ⟨⟨_, hwf⟩, ?_, fun _ ↦ handedOut_of_wellFormed hwf⟩
    intro hnull b hb
    rcases List.mem_cons.mp (hafter.blocks ▸ hb) with rfl | hold
    · exact Nat.pos_of_ne_zero haddr
    · exact hnull b hold
  | overflow hempty haddr hwrap => simp [Except.map] at hreceived

theorem wellFormed_overwritten (hw : s.WellFormed p) {chunk offset : ℕ} {data : List UInt8}
    (hlive : chunk ∈ s.live) (hroom : offset + data.length ≤ s.pool.allocSize) :
    (s.overwritten (chunk + offset) data).WellFormed p := by
  obtain ⟨free, hw⟩ := hw
  refine ⟨free, hw.frame_live _ hlive rfl ?_⟩
  intro x hx
  apply ByteMemory.write_of_outside
  omega

/-- Every allowed call other than a purge keeps the pool well formed. -/
theorem kept_of_perform (hw : s.WellFormed p) {call : PoolCall} {result : ℕ}
    (hcall : call ≠ .purge) (hallowed : s.Allowed p call)
    (hperform : s.perform p call = .ok (result, after)) : s.Kept p after result := by
  cases call with
  | malloc answer =>
    obtain ⟨free, hw⟩ := hw
    exact kept_received hw (hw.malloc_outcome answer hallowed) hperform
  | free chunk =>
    obtain ⟨free, hw⟩ := hw
    obtain ⟨hfree, hwf⟩ := hw.free_spec hallowed
    simp only [perform, hfree, Except.map, released, Except.ok.injEq, Prod.mk.injEq] at hperform
    obtain ⟨rfl, rfl⟩ := hperform
    exact ⟨⟨_, hwf⟩, fun hnull ↦ hnull, fun hne ↦ absurd rfl hne⟩
  | freeAppend chunk =>
    obtain ⟨free, hw⟩ := hw
    obtain ⟨hfree, hwf⟩ := hw.freeAppend_spec hallowed
    simp only [perform, hfree, Except.map, released, Except.ok.injEq, Prod.mk.injEq] at hperform
    obtain ⟨rfl, rfl⟩ := hperform
    exact ⟨⟨_, hwf⟩, fun hnull ↦ hnull, fun hne ↦ absurd rfl hne⟩
  | overwrite chunk offset data =>
    obtain ⟨hlive, hroom⟩ := hallowed
    simp only [perform, Except.ok.injEq, Prod.mk.injEq] at hperform
    obtain ⟨rfl, rfl⟩ := hperform
    exact ⟨wellFormed_overwritten hw hlive hroom, fun hnull ↦ hnull, fun hne ↦ absurd rfl hne⟩
  | purge => exact absurd rfl hcall

/-- The two ways in which a call changes the pool itself: chunks go on the list or off it, or the pool
grows. -/
inductive PoolEffect (p : Platform) (s : Client) (call : PoolCall) (after : Client) : Prop
  | listed (hpool : after.pool = { s.pool with storage := after.pool.storage })
      (hnone : ∀ answer, call = .malloc answer → s.pool.storage.head = s.pool.storage.tail →
        answer.addr = 0)
  | grown {answer : Answer} {j : ℕ} (hcall : call = .malloc answer)
      (hempty : s.pool.storage.head = s.pool.storage.tail) (haddr : answer.addr ≠ 0)
      (hpool : after.pool = s.pool.grown p answer.addr j)
      (hlive : after.live = (answer.addr + p.ptrSize) :: s.live)

theorem effect_of_perform (hw : s.WellFormed p) {call : PoolCall} {result : ℕ}
    (hcall : call ≠ .purge) (hallowed : s.Allowed p call)
    (hperform : s.perform p call = .ok (result, after)) : s.PoolEffect p call after := by
  obtain ⟨free, hw⟩ := hw
  cases call with
  | malloc answer =>
    have hout := hw.malloc_outcome answer hallowed
    simp only [perform] at hperform
    generalize s.pool.malloc p s.heap answer = outcome at hout hperform
    cases hout with
    | overflow hempty haddr hwrap => simp [Except.map] at hperform
    | pop hne =>
      simp only [Except.map, received, Except.ok.injEq, Prod.mk.injEq] at hperform
      obtain ⟨-, rfl⟩ := hperform
      exact .listed rfl fun _ _ hempty ↦ absurd hempty hne
    | outOfMemory hempty hnull =>
      simp only [Except.map, received, Except.ok.injEq, Prod.mk.injEq] at hperform
      obtain ⟨-, rfl⟩ := hperform
      exact .listed rfl fun _ hsame _ ↦ PoolCall.malloc.inj hsame ▸ hnull
    | grow hempty haddr =>
      simp only [Except.map, received, Except.ok.injEq, Prod.mk.injEq] at hperform
      obtain ⟨-, rfl⟩ := hperform
      exact .grown rfl hempty haddr rfl (if_neg (by omega))
  | free chunk =>
    simp only [perform, (hw.free_spec hallowed).1, Except.map, released, Except.ok.injEq,
      Prod.mk.injEq] at hperform
    obtain ⟨-, rfl⟩ := hperform
    exact .listed rfl nofun
  | freeAppend chunk =>
    simp only [perform, (hw.freeAppend_spec hallowed).1, Except.map, released, Except.ok.injEq,
      Prod.mk.injEq] at hperform
    obtain ⟨-, rfl⟩ := hperform
    exact .listed rfl nofun
  | overwrite chunk offset data =>
    simp only [perform, Except.ok.injEq, Prod.mk.injEq] at hperform
    obtain ⟨-, rfl⟩ := hperform
    exact .listed rfl nofun
  | purge => exact absurd rfl hcall

/-- No call changes the chunk size. -/
theorem allocSize_of_perform (hw : s.WellFormed p) {call : PoolCall} {result : ℕ}
    (hcall : call ≠ .purge) (hallowed : s.Allowed p call)
    (hperform : s.perform p call = .ok (result, after)) :
    after.pool.allocSize = s.pool.allocSize := by
  cases effect_of_perform hw hcall hallowed hperform with
  | listed hpool hnone => rw [hpool]
  | grown hmalloc hempty haddr hpool hlive =>
    rw [hpool]
    rfl

/-- On a well-formed pool only a growth whose sizes wrap can go wrong, and then by leaving the new
block. -/
theorem perform_outcome (hw : s.WellFormed p) {call : PoolCall} (hcall : call ≠ .purge)
    (hallowed : s.Allowed p call) :
    (∃ result after, s.perform p call = .ok (result, after)) ∨
      (¬ s.GrowthFits p call ∧ ∃ addr, s.perform p call = .error (.leavesBlock addr)) := by
  obtain ⟨free, hw⟩ := hw
  cases call with
  | malloc answer =>
    have hout := hw.malloc_outcome answer hallowed
    simp only [perform]
    generalize s.pool.malloc p s.heap answer = outcome at hout ⊢
    cases hout with
    | overflow hempty haddr hwrap => exact Or.inr ⟨fun hfits ↦ hwrap (hfits hempty haddr), _, rfl⟩
    | pop | outOfMemory | grow => exact Or.inl ⟨_, _, rfl⟩
  | free chunk =>
    simp only [perform, (hw.free_spec hallowed).1]
    exact Or.inl ⟨_, _, rfl⟩
  | freeAppend chunk =>
    simp only [perform, (hw.freeAppend_spec hallowed).1]
    exact Or.inl ⟨_, _, rfl⟩
  | overwrite chunk offset data => exact Or.inl ⟨_, _, rfl⟩
  | purge => exact absurd rfl hcall

/-! ## Runs without a purge -/

/-- A run without a purge keeps the pool well formed, from wherever it starts. -/
theorem wellFormed_of_run {init : Client → Prop} (hinit : ∀ start, init start → start.WellFormed p)
    {history : List (Client × PoolCall)} (hrun : (system p init).Run history s)
    (hnopurge : System.Obeys (fun _ call ↦ call ≠ .purge) history) : s.WellFormed p := by
  apply hrun.invariant (WellFormed p) hinit _ hnopurge
  intro state call after hw hcall hstep
  obtain ⟨hallowed, result, hperform⟩ := hstep
  exact (kept_of_perform hw hcall hallowed hperform).wellFormed

/-- The path from `head_` to `tail_` repeats no chunk and passes exactly the carved chunks that are
not live. -/
def FreeListIntact (p : Platform) (s : Client) : Prop :=
  ∃ path, s.pool.FreeList p s.heap path ∧
    ∀ chunk, chunk ∈ path ↔ chunk ∈ s.pool.chunks p ∧ chunk ∉ s.live

theorem WellFormed.freeListIntact (hw : s.WellFormed p) : s.FreeListIntact p := by
  obtain ⟨free, hw⟩ := hw
  exact ⟨free, hw.freeList, fun _ ↦ hw.mem_free_iff⟩

/-- **The free list.** After any calls of `Malloc`, `Free` and `FreeAppend` and any writes of the
client, the free list is intact, and whatever the client may do next succeeds, `Malloc` handing out
only what nobody holds, as long as the growth sizes do not wrap. -/
theorem freeListIntact_of_run {requestedSize : ℕ} {history : List (Client × PoolCall)}
    (hrun : (system p (Fresh p requestedSize)).Run history s)
    (hnopurge : System.Obeys (fun _ call ↦ call ≠ .purge) history) :
    s.FreeListIntact p ∧
      ∀ call, call ≠ .purge → s.Allowed p call → s.GrowthFits p call →
        ∃ result after, s.perform p call = .ok (result, after) ∧
          (result ≠ 0 → s.HandedOut p after result) := by
  have hw := wellFormed_of_run (fun start hfresh ↦ Fresh.wellFormed hfresh) hrun hnopurge
  refine ⟨hw.freeListIntact, ?_⟩
  intro call hcall hallowed hfits
  rcases perform_outcome hw hcall hallowed with ⟨result, after, hperform⟩ | ⟨hwrap, -⟩
  · exact ⟨result, after, hperform, (kept_of_perform hw hcall hallowed hperform).handedOut⟩
  · exact absurd hfits hwrap

/-- A client of a fresh pool of 8-byte chunks. -/
def newcomer : Client := ⟨⟨fun _ ↦ 0, []⟩, Pool.construct .x64 8, []⟩

/-- A block at address 4096. -/
def page : Answer := ⟨4096, fun _ ↦ 0⟩

theorem newcomer_fresh : newcomer.Fresh .x64 8 :=
  ⟨rfl, rfl, by simp [NullFree, newcomer]⟩

theorem newcomer_allowed : newcomer.Allowed .x64 (.malloc page) := by
  intro _ _
  decide

theorem newcomer_growthFits : newcomer.GrowthFits .x64 (.malloc page) := by
  intro _ _
  unfold Pool.Fits
  decide

theorem exists_newcomer_run :
    ∃ after, (system .x64 (Fresh .x64 8)).Run [(newcomer, .malloc page)] after := by
  rcases perform_outcome newcomer_fresh.wellFormed (by simp) newcomer_allowed with
    ⟨result, after, hperform⟩ | ⟨hwrap, -⟩
  · have hstart : (system .x64 (Fresh .x64 8)).Run [] newcomer := .start newcomer_fresh
    exact ⟨after, hstart.next ⟨newcomer_allowed, result, hperform⟩⟩
  · exact absurd newcomer_growthFits hwrap

/-- The main theorem applied to a run that grows the pool. -/
theorem freeListIntact_of_run_grows :
    ∃ after, (system .x64 (Fresh .x64 8)).Run [(newcomer, .malloc page)] after ∧
      after.FreeListIntact .x64 := by
  obtain ⟨after, hrun⟩ := exists_newcomer_run
  exact ⟨after, hrun, (freeListIntact_of_run hrun (by simp)).1⟩

end Client

end ServerCore.MemoryPool
