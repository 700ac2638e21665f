import ServerCore.MemoryPool.GrowthLaws

/-!
# Every block is released once

A pool gives its blocks back only in `PurgeMemory`, which finds them through the headers it wrote into
them, next to chunks that the client writes to. Here a client makes any sequence of calls on a fresh
pool and then purges it, once or more often; the destructor is one more purge.

The blocks that the sequence obtains from `::malloc` are read off the calls, not off the pool. As long
as the sizes of the growths do not wrap, the purges walk exactly these blocks and release each one
once.
-/

namespace ServerCore.MemoryPool

open Foundation

/-- What a record of a purge must say of the blocks obtained: each is released once, nothing else is,
and no header is read after its block was released. -/
structure OncePerBlock (obtained : List Block) (events : List PurgeEvent) : Prop where
  once : ∀ b ∈ obtained, events.count (.release b.base) = 1
  only : ∀ ptr, .release ptr ∈ events → ∃ b ∈ obtained, b.base = ptr
  before : ∀ ptr front back, events = front ++ .readHeader ptr :: back → .release ptr ∉ front

namespace Pool

variable {p : Platform} {h : Heap} {pool : Pool}

theorem count_release_walk (bases : List ℕ) (ptr : ℕ) :
    (walk bases).count (.release ptr) = bases.count ptr := by
  induction bases with
  | nil => rfl
  | cons base rest ih =>
    rw [walk_cons, List.count_cons, List.count_cons, List.count_cons, ih]
    simp

theorem mem_of_readHeader_mem_walk {bases : List ℕ} {ptr : ℕ}
    (hmem : .readHeader ptr ∈ walk bases) : ptr ∈ bases := by
  simpa [walk] using hmem

/-- In a walk that meets no block twice, a header is read before its block is released. -/
theorem not_released_before_walk {bases : List ℕ} (hnodup : bases.Nodup) {ptr : ℕ}
    {front back : List PurgeEvent} (hsplit : walk bases = front ++ .readHeader ptr :: back) :
    .release ptr ∉ front := by
  induction bases generalizing front with
  | nil => simp [walk] at hsplit
  | cons base rest ih =>
    obtain ⟨hnew, hrest⟩ := List.nodup_cons.mp hnodup
    rw [walk_cons] at hsplit
    match front with
    | [] => simp
    | [event] => simp at hsplit
    | first :: second :: later =>
      simp only [List.cons_append, List.cons.injEq] at hsplit
      obtain ⟨rfl, rfl, hlater⟩ := hsplit
      have hmem : ptr ∈ rest := by
        apply mem_of_readHeader_mem_walk
        rw [hlater]
        simp
      have hne : ptr ≠ base := fun heq ↦ hnew (heq ▸ hmem)
      simp [hne, ih hrest hlater]

/-- A walk along blocks that start at different addresses treats each as it should. -/
theorem oncePerBlock_walk {blocks : List Block} (hnodup : (blocks.map Block.base).Nodup) :
    OncePerBlock blocks (walk (blocks.map Block.base)) where
  once := by
    intro b hb
    rw [count_release_walk]
    exact List.count_eq_one_of_mem hnodup (List.mem_map_of_mem hb)
  only := by
    intro ptr hmem
    have hcount := List.count_pos_iff.mpr hmem
    rw [count_release_walk] at hcount
    exact List.mem_map.mp (List.count_pos_iff.mp hcount)
  before := by
    intro ptr front back hsplit
    exact not_released_before_walk hnodup hsplit

end Pool

namespace Client

variable {p : Platform} {s after start : Client} {requestedSize : ℕ} {calls : List PoolCall}

/-! ## Sequences of calls -/

/-- The calls one after another, up to the first undefined behaviour. -/
def performAll (p : Platform) (s : Client) : List PoolCall → Except Fault Client
  | [] => return s
  | call :: rest => do
    let (_, after) ← s.perform p call
    performAll p after rest

/-- Each call keeps the contract in the state it is made in. -/
def AllAllowed (p : Platform) (s : Client) : List PoolCall → Prop
  | [] => True
  | call :: rest => s.Allowed p call ∧
      ∀ result after, s.perform p call = .ok (result, after) → AllAllowed p after rest

/-- The sizes of no growth wrap. -/
def GrowthsFit (p : Platform) (s : Client) : List PoolCall → Prop
  | [] => True
  | call :: rest => s.GrowthFits p call ∧
      ∀ result after, s.perform p call = .ok (result, after) → GrowthsFit p after rest

/-- The block that a call gets from `::malloc`, if it grows the pool and is not refused. -/
def obtains (p : Platform) (s : Client) : PoolCall → List Block
  | .malloc answer =>
    if s.pool.storage.empty ∧ answer.addr ≠ 0 then [⟨answer.addr, s.pool.requestSize p⟩] else []
  | _ => []

/-- The blocks that the calls get from `::malloc`, in order. -/
def obtained (p : Platform) (s : Client) : List PoolCall → List Block
  | [] => []
  | call :: rest => s.obtains p call ++
      match s.perform p call with
      | .ok (_, after) => obtained p after rest
      | .error _ => []

/-- `PurgeMemory` with a record of what it reads and releases. -/
def purge (p : Platform) (s : Client) : Except Fault (List PurgeEvent × Client) := do
  let (heap, events) ← Pool.purgeTraced p (s.heap.blocks.length + 1) s.heap s.pool.first
  return (events, ⟨heap, s.pool.purged, []⟩)

/-- `count` purges in a row and all they do. -/
def purges (p : Platform) : ℕ → Client → Except Fault (List PurgeEvent × Client)
  | 0, s => return ([], s)
  | count + 1, s => do
    let (events, after) ← s.purge p
    let (later, last) ← purges p count after
    return (events ++ later, last)

/-- The record of a purge aside, this is the call `PurgeMemory`. -/
theorem map_purge (s : Client) : (s.purge p).map (fun result ↦ (0, result.2)) = s.perform p .purge := by
  unfold purge perform Pool.purgeMemory
  rw [← Pool.map_purgeTraced]
  cases Pool.purgeTraced p (s.heap.blocks.length + 1) s.heap s.pool.first with
  | error fault => rfl
  | ok result => rfl

/-- However often the pool is purged from here on, the destructor included, each of the blocks is
released exactly once. -/
def ReleasesOnce (p : Platform) (s : Client) (blocks : List Block) : Prop :=
  ∃ events, OncePerBlock blocks events ∧ ∀ further, ∃ last, s.purges p (further + 1) = .ok (events, last)

/-! ## What a call obtains -/

theorem obtains_of_grow {answer : Answer} (hempty : s.pool.storage.head = s.pool.storage.tail)
    (haddr : answer.addr ≠ 0) :
    s.obtains p (.malloc answer) = [⟨answer.addr, s.pool.requestSize p⟩] := by
  apply if_pos
  exact ⟨beq_iff_eq.mpr hempty, haddr⟩

theorem obtains_eq_nil {answer : Answer}
    (hnone : s.pool.storage.head = s.pool.storage.tail → answer.addr = 0) :
    s.obtains p (.malloc answer) = [] := by
  apply if_neg
  rintro ⟨hempty, haddr⟩
  exact haddr (hnone (beq_iff_eq.mp hempty))

/-- On a well-formed pool a call goes wrong exactly if it is a growth whose sizes wrap; otherwise the
pool has the blocks it had and the one that the call obtains. -/
theorem WellFormed.perform_cases (hw : s.WellFormed p) {call : PoolCall} (hcall : call ≠ .purge)
    (hallowed : s.Allowed p call) :
    (s.GrowthFits p call ∧ ∃ result after, s.perform p call = .ok (result, after) ∧
        after.WellFormed p ∧ after.pool.blocks = (s.obtains p call).reverse ++ s.pool.blocks) ∨
      (¬ s.GrowthFits p call ∧ ∃ addr, s.perform p call = .error (.leavesBlock addr)) := by
  rcases perform_outcome hw hcall hallowed with ⟨result, after, hperform⟩ | hwrap
  · have hafter := (kept_of_perform hw hcall hallowed hperform).wellFormed
    left
    suffices hboth : s.GrowthFits p call ∧
        after.pool.blocks = (s.obtains p call).reverse ++ s.pool.blocks from
      ⟨hboth.1, result, after, hperform, hafter, hboth.2⟩
    cases effect_of_perform hw hcall hallowed hperform with
    | listed hpool hnone =>
      have hblocks : after.pool.blocks = s.pool.blocks := by rw [hpool]
      cases call with
      | malloc answer =>
        have hnull := hnone answer rfl
        rw [obtains_eq_nil hnull, hblocks]
        exact ⟨fun hempty haddr ↦ absurd (hnull hempty) haddr, rfl⟩
      | free | freeAppend | overwrite | purge => exact ⟨trivial, hblocks⟩
    | grown hmalloc hempty haddr hpool hlive =>
      obtain ⟨free, hw⟩ := hw
      obtain ⟨free', hgrown⟩ := hafter
      rw [hpool] at hgrown
      rw [hmalloc, obtains_of_grow hempty haddr, hpool]
      exact ⟨fun _ _ ↦ hw.blockChain.fits_of_grown hgrown.blockChain, rfl⟩
  · exact Or.inr hwrap

/-- The same for a sequence of calls. -/
theorem WellFormed.performAll_cases (hw : s.WellFormed p) (hnopurge : .purge ∉ calls)
    (hallowed : s.AllAllowed p calls) :
    (s.GrowthsFit p calls ∧ ∃ after, s.performAll p calls = .ok after ∧ after.WellFormed p ∧
        after.pool.blocks = (s.obtained p calls).reverse ++ s.pool.blocks) ∨
      (¬ s.GrowthsFit p calls ∧ ∃ addr, s.performAll p calls = .error (.leavesBlock addr)) := by
  induction calls generalizing s with
  | nil => exact Or.inl ⟨trivial, s, rfl, hw, rfl⟩
  | cons call rest ih =>
    obtain ⟨hfirst, hrest⟩ := hallowed
    rw [List.mem_cons, not_or] at hnopurge
    unfold performAll obtained GrowthsFit
    rcases hw.perform_cases (Ne.symm hnopurge.1) hfirst with
      ⟨hfits, result, middle, hperform, hmiddle, hblocks⟩ | ⟨hwrap, addr, hperform⟩
    · simp only [hperform, bind, Except.bind, Except.ok.injEq, Prod.mk.injEq]
      have hstep : (∀ value next, result = value ∧ middle = next → next.GrowthsFit p rest) ↔
          middle.GrowthsFit p rest := by
        constructor
        · exact fun hall ↦ hall result middle ⟨rfl, rfl⟩
        · rintro hmiddle value next ⟨-, rfl⟩
          exact hmiddle
      rw [hstep]
      rcases ih hmiddle hnopurge.2 (hrest result middle hperform) with
        ⟨hfit, after, hafter, hwf, hall⟩ | ⟨hwrap, hfault⟩
      · refine Or.inl ⟨⟨hfits, hfit⟩, after, hafter, hwf, ?_⟩
        rw [hall, hblocks, List.reverse_append, List.append_assoc]
      · exact Or.inr ⟨fun hboth ↦ hwrap hboth.2, hfault⟩
    · simp only [hperform, bind, Except.bind]
      exact Or.inr ⟨fun hboth ↦ hwrap hboth.1, addr, rfl⟩

/-! ## What the purges release -/

theorem purge_of_first (hfirst : s.pool.first = 0) :
    s.purge p = .ok ([], ⟨s.heap, s.pool.purged, []⟩) := by
  unfold purge
  rw [hfirst]
  rfl

/-- With no block left, purges release nothing. -/
theorem purges_of_first (hfirst : s.pool.first = 0) (count : ℕ) :
    ∃ last, s.purges p count = .ok ([], last) := by
  induction count generalizing s with
  | zero => exact ⟨s, rfl⟩
  | succ count ih =>
    obtain ⟨last, hlast⟩ := @ih ⟨s.heap, s.pool.purged, []⟩ rfl
    refine ⟨last, ?_⟩
    simp only [purges, purge_of_first hfirst, bind, Except.bind, hlast]
    rfl

/-- The purges of a well-formed pool release its blocks, each once. -/
theorem WellFormed.releasesOnce (hw : s.WellFormed p) {blocks : List Block}
    (hblocks : s.pool.blocks = blocks.reverse) : s.ReleasesOnce p blocks := by
  obtain ⟨free, hw⟩ := hw
  obtain ⟨heap, hwalk, -⟩ := hw.blockChain.purgeTraced_spec
  have honce := Pool.oncePerBlock_walk hw.blockChain.nodup_bases
  refine ⟨Pool.walk (s.pool.blocks.map Block.base), ⟨?_, ?_, honce.before⟩, ?_⟩
  · intro b hb
    exact honce.once b (by rw [hblocks]; exact List.mem_reverse.mpr hb)
  · intro ptr hmem
    obtain ⟨b, hb, hbase⟩ := honce.only ptr hmem
    exact ⟨b, by simpa [hblocks] using hb, hbase⟩
  · intro further
    obtain ⟨last, hlast⟩ := @purges_of_first p ⟨heap, s.pool.purged, []⟩ rfl further
    refine ⟨last, ?_⟩
    simp only [purges, purge, hwalk, bind, Except.bind, pure, Except.pure, hlast, List.append_nil]

/-- **Release.** Let a client of a fresh pool make any calls of `Malloc`, `Free` and `FreeAppend` and any
writes into its chunks; any growth may be refused. The calls go through and later purges release each
block obtained exactly once, if and only if the sizes of no growth wrap. -/
theorem releasesOnce_iff_growthsFit (hfresh : start.Fresh p requestedSize)
    (hnopurge : .purge ∉ calls) (hallowed : start.AllAllowed p calls) :
    (∃ after, start.performAll p calls = .ok after ∧
      after.ReleasesOnce p (start.obtained p calls)) ↔ start.GrowthsFit p calls := by
  rcases hfresh.wellFormed.performAll_cases hnopurge hallowed with
    ⟨hfit, after, hcalls, hw, hblocks⟩ | ⟨hwrap, addr, hfault⟩
  · have hnone : start.pool.blocks = [] := by
      rw [hfresh.1]
      rfl
    rw [hnone, List.append_nil] at hblocks
    exact ⟨fun _ ↦ hfit, fun _ ↦ ⟨after, hcalls, hw.releasesOnce hblocks⟩⟩
  · constructor
    · rintro ⟨after, hcalls, -⟩
      rw [hfault] at hcalls
      cases hcalls
    · intro hfit
      exact absurd hfit hwrap

/-- On win32, the first growth of 64 MiB chunks gets a block of four bytes and writes outside it. -/
theorem releasesOnce_fails :
    ¬ ∀ p requestedSize start calls, Fresh p requestedSize start → .purge ∉ calls →
      AllAllowed p start calls → ∃ after, start.performAll p calls = .ok after ∧
        after.ReleasesOnce p (start.obtained p calls) := by
  intro hclaim
  let start : Client := ⟨⟨fun _ ↦ 0, []⟩, Pool.construct .win32 (2 ^ 26), []⟩
  have hfresh : start.Fresh .win32 (2 ^ 26) :=
    ⟨rfl, rfl, fun b hb ↦ absurd hb List.not_mem_nil⟩
  have hallowed : start.AllAllowed .win32 [.malloc page] :=
    ⟨fun _ _ ↦ by decide, fun _ _ _ ↦ trivial⟩
  obtain ⟨after, hcalls, -⟩ := hclaim _ _ start [.malloc page] hfresh (by simp) hallowed
  rcases hfresh.wellFormed.performAll_cases (by simp) hallowed with
    ⟨⟨hfits, -⟩, -⟩ | ⟨-, addr, hfault⟩
  · exact absurd (hfits rfl (by decide)) (by unfold Pool.Fits; decide)
  · rw [hfault] at hcalls
    cases hcalls

/-- The characterisation applied to one growth of 8-byte chunks. -/
theorem releasesOnce_iff_growthsFit_newcomer :
    (∃ after, newcomer.performAll .x64 [.malloc page] = .ok after ∧
      after.ReleasesOnce .x64 (newcomer.obtained .x64 [.malloc page])) ↔
      newcomer.GrowthsFit .x64 [.malloc page] :=
  releasesOnce_iff_growthsFit newcomer_fresh (by simp)
    ⟨newcomer_allowed, fun _ _ _ ↦ trivial⟩

end Client

end ServerCore.MemoryPool
