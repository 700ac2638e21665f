import ServerCore.MemoryPool.ObjectPool

/-!
# Who owns a chunk

The invariant has two halves. `Identified` is about the threads: ids are given out once each, and
the array has an entry for exactly the ids in use. `Shared` is about the memory: every pool is well
formed on its own, blocks of different pools do not overlap, and the tag of a live chunk is the index
of its pool. The two halves meet in `objectPool`, which creates pools.

All operations write inside the blocks of a single pool, so one lemma, `Shared.install`, carries the
second half through every one of them.
-/

namespace ServerCore.MemoryPool

open Foundation

namespace ObjectPool

variable {ι : Type} {o : Instantiation} {s after : ObjectPool ι}
  {free : ℕ → List ℕ} {id chunk : ℕ} {pool : Pool}

/-! ## Threads and their ids -/

/-- Ids are unique, those up to the counter have been given out and are indices of the array, and
the array has an entry for exactly these. -/
structure Identified (s : ObjectPool ι) : Prop where
  injective : ∀ t u, s.threadId t ≠ 0 → s.threadId t = s.threadId u → t = u
  le_counter : ∀ t, s.threadId t ≤ s.threadIdCounter
  onto : ∀ id, id ≠ 0 → id ≤ s.threadIdCounter → ∃ t, s.threadId t = id
  bounded : s.threadIdCounter ≤ maxThreadNum
  named : ∀ id, s.objectPoolArray id ≠ none ↔ id ≠ 0 ∧ ∃ t, s.threadId t = id

/-- The thread has an id, or there is one left for it. -/
def HasRoom (s : ObjectPool ι) (t : ι) : Prop :=
  s.threadId t ≠ 0 ∨ s.threadIdCounter < maxThreadNum

section Threads

theorem identified_initial (heap : Heap) : (initial ι heap).Identified where
  injective := by simp [initial]
  le_counter := by simp [initial]
  onto := by
    intro id hne hle
    simp only [initial, Nat.le_zero] at hle
    exact absurd hle hne
  bounded := Nat.zero_le _
  named := by
    intro id
    simp only [initial, ne_eq, not_true, false_iff, not_and, not_exists]
    intro hne _ heq
    exact hne heq.symm

/-- With at most 64 threads there is an id for each. -/
theorem Identified.hasRoom [Fintype ι] (hid : s.Identified)
    (hcard : Fintype.card ι ≤ maxThreadNum) (t : ι) : s.HasRoom t := by
  by_cases hnew : s.threadId t = 0
  · -- the ids given out, together with the zero of `t`, belong to different threads
    have hholder (id : Fin (s.threadIdCounter + 1)) : ∃ u, s.threadId u = id := by
      by_cases hzero : (id : ℕ) = 0
      · exact ⟨t, by rw [hnew, hzero]⟩
      · exact hid.onto id hzero (Nat.lt_succ_iff.mp id.isLt)
    choose holder hholder using hholder
    have hinjective : Function.Injective holder := by
      intro first second heq
      apply Fin.ext
      rw [← hholder first, ← hholder second, heq]
    have hle := Fintype.card_le_of_injective holder hinjective
    rw [Fintype.card_fin] at hle
    exact Or.inr (by omega)
  · exact Or.inl hnew

/-- The entry that the null id would name is never used, and neither is the one of the next id yet. -/
theorem Identified.zero_absent (hid : s.Identified) : s.objectPoolArray 0 = none := by
  by_contra hsome
  exact ((hid.named 0).mp hsome).1 rfl

theorem Identified.next_absent (hid : s.Identified) :
    s.objectPoolArray (s.threadIdCounter + 1) = none := by
  by_contra hsome
  obtain ⟨-, u, hu⟩ := (hid.named _).mp hsome
  have hle := hid.le_counter u
  omega

/-- Every id with an entry is an index of the array. -/
theorem Identified.id_le (hid : s.Identified) (hpool : s.objectPoolArray id = some pool) :
    id ≤ maxThreadNum := by
  obtain ⟨-, t, rfl⟩ := (hid.named id).mp (by simp [hpool])
  exact (hid.le_counter t).trans hid.bounded

theorem Identified.poolAt_eq (hid : s.Identified) (hpool : s.objectPoolArray id = some pool) :
    s.poolAt id = .ok pool := by
  have hle := hid.id_le hpool
  unfold poolAt
  rw [if_neg (by omega), hpool]

theorem Identified.install (hid : s.Identified) (hpool : s.objectPoolArray id = some pool)
    (pool' : Pool) (heap : Heap) (chunks : List ℕ) :
    (s.install id pool' heap chunks).Identified where
  injective := hid.injective
  le_counter := hid.le_counter
  onto := hid.onto
  bounded := hid.bounded
  named := by
    intro other
    change _ ↔ other ≠ 0 ∧ ∃ t, s.threadId t = other
    rw [← hid.named other]
    by_cases hother : other = id
    · simp [ObjectPool.install, hother, hpool]
    · simp [ObjectPool.install, hother]

/-- Creating a pool at the next index. -/
theorem Identified.create [DecidableEq ι] (hid : s.Identified) {t : ι} (hnew : s.threadId t = 0)
    (hlt : s.threadIdCounter < maxThreadNum) :
    Identified { s with
      threadIdCounter := s.threadIdCounter + 1
      threadId := Function.update s.threadId t (s.threadIdCounter + 1)
      objectPoolArray :=
        Function.update s.objectPoolArray (s.threadIdCounter + 1) (some pool) } where
  injective := by
    intro u v hu huv
    have hbound (w : ι) := hid.le_counter w
    by_cases hut : u = t
    · by_cases hvt : v = t
      · rw [hut, hvt]
      · have hv := hbound v
        simp only [hut, Function.update_self, Function.update_of_ne hvt] at huv
        omega
    · by_cases hvt : v = t
      · have hu' := hbound u
        simp only [hvt, Function.update_self, Function.update_of_ne hut] at huv
        omega
      · simp only [Function.update_of_ne hut, Function.update_of_ne hvt] at hu huv
        exact hid.injective u v hu huv
  le_counter := by
    intro u
    by_cases hut : u = t
    · simp [hut]
    · have hu := hid.le_counter u
      simp only [Function.update_of_ne hut]
      omega
  onto := by
    intro id hne hle
    by_cases hlast : id = s.threadIdCounter + 1
    · exact ⟨t, by simp [hlast]⟩
    · simp only at hle
      obtain ⟨u, hu⟩ := hid.onto id hne (by omega)
      have hut : u ≠ t := by
        intro heq
        rw [heq, hnew] at hu
        exact hne hu.symm
      exact ⟨u, by simpa [hut] using hu⟩
  bounded := hlt
  named := by
    intro id
    by_cases hidNew : id = s.threadIdCounter + 1
    · simp only [hidNew, Function.update_self]
      simp only [ne_eq, reduceCtorEq, not_false_eq_true, true_iff]
      exact ⟨trivial, t, by simp⟩
    · simp only [Function.update_of_ne hidNew]
      rw [hid.named id]
      constructor
      · intro h
        obtain ⟨hne, u, hu⟩ := h
        have hut : u ≠ t := by
          intro heq
          rw [heq, hnew] at hu
          exact hne hu.symm
        exact ⟨hne, u, by simpa [hut] using hu⟩
      · intro h
        obtain ⟨hne, u, hu⟩ := h
        by_cases hut : u = t
        · simp only [hut, Function.update_self] at hu
          exact absurd hu.symm hidNew
        · exact ⟨hne, u, by simpa [hut] using hu⟩

end Threads

/-! ## Pools and their memory -/

/-- With free lists `free`: every pool is well formed, their blocks are disjoint, and live chunks
carry the index of their pool. A pool whose chunk size has wrapped has never been used. -/
structure Shared (o : Instantiation) (s : ObjectPool ι) (free : ℕ → List ℕ) : Prop where
  wellFormed : ∀ id pool, s.objectPoolArray id = some pool →
    pool.WellFormed o.platform s.heap (free id) (s.live id)
  absent : ∀ id, s.objectPoolArray id = none → free id = [] ∧ s.live id = []
  allocSize : ∀ id pool, s.objectPoolArray id = some pool →
    pool.allocSize = o.newPool.allocSize
  unused : ∀ id pool, s.objectPoolArray id = some pool →
    pool = o.newPool ∨ o.requestedSize + 2 < 2 ^ 32
  apart : ∀ id other pool otherPool, id ≠ other → s.objectPoolArray id = some pool →
    s.objectPoolArray other = some otherPool →
    ∀ b ∈ pool.blocks, ∀ c ∈ otherPool.blocks, b.Apart c
  tagged : ∀ id, ∀ chunk ∈ s.live id, o.tag s.heap chunk = id

theorem shared_initial (heap : Heap) : (initial ι heap).Shared o fun _ ↦ [] where
  wellFormed := by simp [initial]
  absent := by simp [initial]
  allocSize := by simp [initial]
  unused := by simp [initial]
  apart := by simp [initial]
  tagged := by simp [initial]

/-- The requested bytes and the tag fit into a chunk. -/
theorem room_of_unwrapped (hroom : o.requestedSize + 2 < 2 ^ 32) :
    o.requestedSize + 2 ≤ o.newPool.allocSize := by
  unfold Instantiation.newPool Pool.construct
  rw [Nat.mod_eq_of_lt hroom]
  exact le_max_left _ _

namespace Shared

theorem exists_pool (hs : s.Shared o free) (hlive : chunk ∈ s.live id) :
    ∃ pool, s.objectPoolArray id = some pool ∧ chunk ∈ pool.chunks o.platform := by
  cases hpool : s.objectPoolArray id with
  | none => simp [(hs.absent id hpool).2] at hlive
  | some pool => exact ⟨pool, rfl, (hs.wellFormed id pool hpool).live_mem hlive⟩

theorem room_of_mem (hs : s.Shared o free) (hpool : s.objectPoolArray id = some pool)
    (hmem : chunk ∈ pool.chunks o.platform) : o.requestedSize + 2 < 2 ^ 32 := by
  rcases hs.unused id pool hpool with rfl | hroom
  · simp [Pool.chunks, Instantiation.newPool, Pool.construct] at hmem
  · exact hroom

/-- A live chunk is live in one pool only: its tag says in which. -/
theorem live_unique (hs : s.Shared o free) {other : ℕ} (hlive : chunk ∈ s.live id)
    (hother : chunk ∈ s.live other) : id = other :=
  (hs.tagged id chunk hlive).symm.trans (hs.tagged other chunk hother)

/-- A chunk is carved from one pool only. -/
theorem pool_unique (hs : s.Shared o free) {other : ℕ} {otherPool : Pool}
    (hpool : s.objectPoolArray id = some pool) (hother : s.objectPoolArray other = some otherPool)
    (hmem : chunk ∈ pool.chunks o.platform) (hmem' : chunk ∈ otherPool.chunks o.platform) :
    id = other := by
  by_contra hne
  have hw := hs.wellFormed id pool hpool
  obtain ⟨b, hb, hlow, hhigh⟩ := hw.chunk_bounds hmem
  obtain ⟨c, hc, hlow', hhigh'⟩ := (hs.wellFormed other otherPool hother).chunk_bounds hmem'
  have hapart := hs.apart id other pool otherPool hne hpool hother b hb c hc
  have hpos := hw.alloc_pos
  have hpos' := (hs.wellFormed other otherPool hother).alloc_pos
  unfold Block.Apart Foundation.Apart at hapart
  omega

/-- The rule behind all operations: one pool changes, memory changes inside its blocks only, and new
blocks overlap nothing. -/
theorem install (hs : s.Shared o free) (hpool : s.objectPoolArray id = some pool) {pool' : Pool}
    {heap : Heap} {list chunks : List ℕ} (hw : pool'.WellFormed o.platform heap list chunks)
    (halloc : pool'.allocSize = pool.allocSize) (hroom : o.requestedSize + 2 < 2 ^ 32)
    (hblocks : ∀ b ∈ s.heap.blocks, b ∈ heap.blocks)
    (hnew : ∀ b ∈ pool'.blocks, b ∈ pool.blocks ∨ ∀ c ∈ s.heap.blocks, b.Apart c)
    (hbytes : ∀ x, (∀ b ∈ pool'.blocks, x < b.base ∨ b.base + b.size ≤ x) →
      heap.bytes x = s.heap.bytes x)
    (htags : ∀ chunk ∈ chunks, o.tag heap chunk = id) :
    (s.install id pool' heap chunks).Shared o (Function.update free id list) := by
  have hapart (other : ℕ) (otherPool : Pool) (hne : other ≠ id)
      (hother : s.objectPoolArray other = some otherPool) (b : Block) (hb : b ∈ pool'.blocks)
      (c : Block) (hc : c ∈ otherPool.blocks) : b.Apart c := by
    rcases hnew b hb with hold | hfresh
    · exact hs.apart id other pool otherPool hne.symm hpool hother b hold c hc
    · exact hfresh c ((hs.wellFormed other otherPool hother).owned c hc)
  -- the blocks of the other pools keep their bytes
  have hkeep (other : ℕ) (otherPool : Pool) (hne : other ≠ id)
      (hother : s.objectPoolArray other = some otherPool) (c : Block) (hc : c ∈ otherPool.blocks)
      (x : ℕ) (hlow : c.base ≤ x) (hhigh : x < c.base + c.size) :
      heap.bytes x = s.heap.bytes x := by
    apply hbytes
    intro b hb
    have h := hapart other otherPool hne hother b hb c hc
    unfold Block.Apart Foundation.Apart at h
    omega
  exact {
    wellFormed := by
      intro other otherPool hother
      by_cases hne : other = id
      · subst hne
        simp only [ObjectPool.install, Function.update_self, Option.some.injEq] at hother ⊢
        exact hother ▸ hw
      · simp only [ObjectPool.install, Function.update_of_ne hne] at hother ⊢
        have hold := hs.wellFormed other otherPool hother
        apply hold.frame_blocks heap
        · intro c hc
          exact hblocks c (hold.owned c hc)
        · exact hkeep other otherPool hne hother
    absent := by
      intro other hother
      by_cases hne : other = id
      · simp [ObjectPool.install, hne] at hother
      · simp only [ObjectPool.install, Function.update_of_ne hne] at hother ⊢
        exact hs.absent other hother
    allocSize := by
      intro other otherPool hother
      by_cases hne : other = id
      · simp only [ObjectPool.install, hne, Function.update_self, Option.some.injEq] at hother
        rw [← hother, halloc, hs.allocSize id pool hpool]
      · simp only [ObjectPool.install, Function.update_of_ne hne] at hother
        exact hs.allocSize other otherPool hother
    unused := fun _ _ _ ↦ Or.inr hroom
    apart := by
      intro first second firstPool secondPool hne hfirst hsecond b hb c hc
      by_cases hf : first = id
      · have hs' : second ≠ id := fun heq ↦ hne (hf.trans heq.symm)
        simp only [ObjectPool.install, hf, Function.update_self, Option.some.injEq] at hfirst
        simp only [ObjectPool.install, Function.update_of_ne hs'] at hsecond
        subst hfirst
        exact hapart second secondPool hs' hsecond b hb c hc
      · simp only [ObjectPool.install, Function.update_of_ne hf] at hfirst
        by_cases hs' : second = id
        · simp only [ObjectPool.install, hs', Function.update_self, Option.some.injEq] at hsecond
          subst hsecond
          exact (hapart first firstPool hf hfirst c hc b hb).symm
        · simp only [ObjectPool.install, Function.update_of_ne hs'] at hsecond
          exact hs.apart first second firstPool secondPool hne hfirst hsecond b hb c hc
    tagged := by
      intro other chunk hchunk
      by_cases hne : other = id
      · subst hne
        simp only [ObjectPool.install, Function.update_self] at hchunk ⊢
        exact htags chunk hchunk
      · simp only [ObjectPool.install, Function.update_of_ne hne] at hchunk ⊢
        rw [← hs.tagged other chunk hchunk]
        obtain ⟨otherPool, hother, hmem⟩ := hs.exists_pool hchunk
        obtain ⟨c, hc, hlow, hhigh⟩ :=
          (hs.wellFormed other otherPool hother).chunk_bounds hmem
        have hfit := room_of_unwrapped hroom
        rw [← hs.allocSize other otherPool hother] at hfit
        apply ByteMemory.load_congr
        intro x hx hx'
        exact hkeep other otherPool hne hother c hc x (by omega) (by omega) }

/-- A pool created at an unused index. -/
theorem create (hs : s.Shared o free) (habsent : s.objectPoolArray id = none) (counter : ℕ)
    (threadId : ι → ℕ) :
    Shared o { s with
      threadIdCounter := counter
      threadId := threadId
      objectPoolArray := Function.update s.objectPoolArray id (some o.newPool) } free where
  wellFormed := by
    intro other pool hpool
    by_cases hne : other = id
    · simp only [hne, Function.update_self, Option.some.injEq] at hpool
      obtain ⟨hfree, hlive⟩ := hs.absent id habsent
      rw [hne, hfree, ← hpool]
      simp only [hlive]
      exact Pool.wellFormed_construct _ _ _
    · simp only [Function.update_of_ne hne] at hpool
      exact hs.wellFormed other pool hpool
  absent := by
    intro other hnone
    by_cases hne : other = id
    · simp [hne] at hnone
    · simp only [Function.update_of_ne hne] at hnone
      exact hs.absent other hnone
  allocSize := by
    intro other pool hpool
    by_cases hne : other = id
    · simp only [hne, Function.update_self, Option.some.injEq] at hpool
      rw [← hpool]
    · simp only [Function.update_of_ne hne] at hpool
      exact hs.allocSize other pool hpool
  unused := by
    intro other pool hpool
    by_cases hne : other = id
    · simp only [hne, Function.update_self, Option.some.injEq] at hpool
      exact Or.inl hpool.symm
    · simp only [Function.update_of_ne hne] at hpool
      exact hs.unused other pool hpool
  apart := by
    intro first second firstPool secondPool hne hfirst hsecond b hb c hc
    by_cases hf : first = id
    · simp only [hf, Function.update_self, Option.some.injEq] at hfirst
      simp [← hfirst, Instantiation.newPool, Pool.construct] at hb
    · by_cases hs' : second = id
      · simp only [hs', Function.update_self, Option.some.injEq] at hsecond
        simp [← hsecond, Instantiation.newPool, Pool.construct] at hc
      · simp only [Function.update_of_ne hf] at hfirst
        simp only [Function.update_of_ne hs'] at hsecond
        exact hs.apart first second firstPool secondPool hne hfirst hsecond b hb c hc
  tagged := hs.tagged

end Shared

/-! ## The pool of the calling thread -/

section Operations

variable [DecidableEq ι]

/-- What `object_pool()` provides: the thread has an id now, and an entry of the array. -/
structure Provided (o : Instantiation) (s : ObjectPool ι) (t : ι) (free : ℕ → List ℕ)
    (after : ObjectPool ι) : Prop where
  identified : after.Identified
  given : after.threadId t ≠ 0
  shared : after.Shared o free
  pool : after.objectPoolArray (after.threadId t) = some (s.poolOf o t)
  heap : after.heap = s.heap
  live : after.live = s.live
  kept : ∀ id pool, s.objectPoolArray id = some pool → after.objectPoolArray id = some pool

theorem objectPool_spec (hid : s.Identified) (hs : s.Shared o free)
    {t : ι} (hroom : s.HasRoom t) :
    ∃ after, s.objectPool o t = .ok after ∧ s.Provided o t free after := by
  by_cases hnew : s.threadId t = 0
  · have hlt : s.threadIdCounter < maxThreadNum := hroom.resolve_left (by simp [hnew])
    have habsent := hid.next_absent
    have hzero := hid.zero_absent
    have hprovided : s.Provided o t free { s with
        threadIdCounter := s.threadIdCounter + 1
        threadId := Function.update s.threadId t (s.threadIdCounter + 1)
        objectPoolArray :=
          Function.update s.objectPoolArray (s.threadIdCounter + 1) (some o.newPool) } := {
      identified := hid.create hnew hlt
      given := by simp
      shared := hs.create habsent _ _
      pool := by simp [poolOf, hnew, hzero]
      heap := rfl
      live := rfl
      kept := by
        intro id pool hpool
        have hne : id ≠ s.threadIdCounter + 1 := by
          intro heq
          rw [heq, habsent] at hpool
          cases hpool
        simpa [hne] using hpool }
    refine ⟨_, ?_, hprovided⟩
    unfold objectPool
    rw [if_neg (by simp [hnew]), if_pos (by omega)]
  · have hsome := (hid.named (s.threadId t)).mpr ⟨hnew, t, rfl⟩
    obtain ⟨pool, hpool⟩ := Option.ne_none_iff_exists'.mp hsome
    have hprovided : s.Provided o t free s := {
      identified := hid
      given := hnew
      shared := hs
      pool := by simp [poolOf, hpool]
      heap := rfl
      live := rfl
      kept := fun _ _ h ↦ h }
    exact ⟨s, if_pos hnew, hprovided⟩

end Operations

end ObjectPool

end ServerCore.MemoryPool
