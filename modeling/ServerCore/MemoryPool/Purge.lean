import ServerCore.MemoryPool.PoolRun

/-!
# What a purge leaves behind

`PurgeMemory` gives every block back along the chain of headers and sets `head_` to null. It leaves
`tail_` as it is, so a pool that has ever grown compares unequal ends afterwards: `Empty` answers no
and the next `Malloc` goes through the null `head_`. A pool that never grew is as good as new.

`Spent` is the state of a purged pool that had grown. Every state a client can reach is well formed
or spent, and nothing but another purge can be done with a spent pool.
-/

namespace ServerCore.MemoryPool

open Foundation

/-- What a purge does to a block: it reads the header word, and it passes the block to `::free`. -/
inductive PurgeEvent
  | readHeader (ptr : ℕ)
  | release (ptr : ℕ)
  deriving DecidableEq, Repr

namespace Pool

variable {p : Platform} {h : Heap} {pool : Pool} {free live : List ℕ}

/-- The `while` loop of `PurgeMemory` with a record of what it does, in order. -/
def purgeTraced (p : Platform) : ℕ → Heap → ℕ → Except Fault (Heap × List PurgeEvent)
  | 0, _, first => .error (.badFree first)
  | fuel + 1, h, first =>
    if first = 0 then return (h, [])
    else do
      let next ← h.loadNext p first
      let h ← h.free first
      let (h, events) ← purgeTraced p fuel h next
      return (h, .readHeader first :: .release first :: events)

/-- Keeping a record changes nothing. -/
theorem map_purgeTraced (fuel first : ℕ) (h : Heap) :
    (purgeTraced p fuel h first).map Prod.fst = purgeLoop p fuel h first := by
  induction fuel generalizing h first with
  | zero => rfl
  | succ fuel ih =>
    unfold purgeTraced purgeLoop
    by_cases hfirst : first = 0
    · simp [hfirst, Except.map, pure, Except.pure]
    · simp only [if_neg hfirst, bind, Except.bind]
      cases h.loadNext p first with
      | error fault => rfl
      | ok next =>
        cases h.free first with
        | error fault => rfl
        | ok freed =>
          simp only [← ih next freed]
          cases purgeTraced p fuel freed next with
          | error fault => rfl
          | ok result => rfl

/-- Each header is read and its block is released at once. -/
def walk (bases : List ℕ) : List PurgeEvent :=
  bases.flatMap fun ptr ↦ [.readHeader ptr, .release ptr]

@[simp]
theorem walk_cons (ptr : ℕ) (rest : List ℕ) :
    walk (ptr :: rest) = .readHeader ptr :: .release ptr :: walk rest := rfl

/-- The purge walks a chain of headers to its end and gives back exactly the blocks on it. -/
theorem purgeTraced_spec {chain : List Block} {fuel : ℕ} (hfuel : chain.length < fuel)
    (hlinked : Linked (h.next p) (chain.map Block.base ++ [0]))
    (howned : ∀ b ∈ chain, b ∈ h.blocks) (hroom : ∀ b ∈ chain, 0 < b.base ∧ p.ptrSize ≤ b.size)
    (hbases : chain.Pairwise fun b c ↦ b.base ≠ c.base) :
    ∃ after, purgeTraced p fuel h ((chain.map Block.base ++ [0]).headD 0) =
        .ok (after, walk (chain.map Block.base)) ∧
      after.bytes = h.bytes ∧
      ∀ b, b ∈ after.blocks ↔ b ∈ h.blocks ∧ ∀ c ∈ chain, b.base ≠ c.base := by
  induction chain generalizing fuel h with
  | nil =>
    obtain ⟨fuel, rfl⟩ := Nat.exists_eq_succ_of_ne_zero (Nat.ne_of_gt hfuel)
    exact ⟨h, rfl, rfl, fun b ↦ by simp⟩
  | cons b rest ih =>
    obtain ⟨fuel, rfl⟩ := Nat.exists_eq_succ_of_ne_zero (show fuel ≠ 0 by omega)
    obtain ⟨hpos, hsize⟩ := hroom b List.mem_cons_self
    have hmem := howned b List.mem_cons_self
    have hlive : h.Live b.base p.ptrSize := ⟨b, hmem, le_rfl, by omega⟩
    have hlink : h.next p b.base = (rest.map Block.base ++ [0]).headD 0 := by
      cases rest <;> exact ((linked_cons_cons _ _ _ _).mp hlinked).1
    obtain ⟨hdiff, hrest⟩ := List.pairwise_cons.mp hbases
    obtain ⟨after, hloop, hbytes, hblocks⟩ :=
      @ih { h with blocks := h.blocks.filter fun c ↦ c.base ≠ b.base } fuel
        (by simpa using hfuel) hlinked.tail
        (by
          intro c hc
          apply List.mem_filter.mpr ⟨howned c (List.mem_cons_of_mem _ hc), ?_⟩
          simpa using (hdiff c hc).symm)
        (fun c hc ↦ hroom c (List.mem_cons_of_mem _ hc)) hrest
    refine ⟨after, ?_, hbytes, ?_⟩
    · simp only [List.map_cons, List.cons_append, List.headD_cons]
      unfold purgeTraced
      rw [if_neg (by omega), Heap.loadNext_eq_ok hlive, hlink, Heap.free_eq_ok ⟨b, hmem, rfl⟩]
      simp only [bind, Except.bind, hloop]
      rfl
    · intro c
      rw [hblocks c, List.mem_filter, decide_eq_true_eq, List.forall_mem_cons, and_assoc]

/-- A header word fits into each block of a pool. -/
theorem BlockChain.header_fits (hbc : BlockChain p h pool) :
    ∀ b ∈ pool.blocks, 0 < b.base ∧ p.ptrSize ≤ b.size := by
  intro b hb
  obtain ⟨⟨j, hj⟩, hpos, -⟩ := hbc.carved b hb
  exact ⟨hpos, by omega⟩

theorem BlockChain.nodup_bases (hbc : BlockChain p h pool) :
    (pool.blocks.map Block.base).Nodup := by
  apply List.pairwise_map.mpr
  apply hbc.apart.imp_of_mem
  intro b c hb hc hapart
  have hptr := p.ptrSize_ge
  have hsize := (hbc.header_fits b hb).2
  have hsize' := (hbc.header_fits c hc).2
  unfold Block.Apart Foundation.Apart at hapart
  omega

/-- The pool after a purge. -/
def purged (pool : Pool) : Pool :=
  { pool with
    nextSize := 32
    storage := { pool.storage with head := 0 }
    first := 0
    blocks := [] }

/-- The loop of a purge ends after one walk along the blocks of the pool, and gives back these and no
others. -/
theorem BlockChain.purgeTraced_spec (hbc : BlockChain p h pool) :
    ∃ after, purgeTraced p (h.blocks.length + 1) h pool.first =
        .ok (after, walk (pool.blocks.map Block.base)) ∧ after.bytes = h.bytes ∧
      ∀ b, b ∈ after.blocks ↔ b ∈ h.blocks ∧ ∀ c ∈ pool.blocks, b.base ≠ c.base := by
  have hroom := hbc.header_fits
  have hfuel : pool.blocks.length < h.blocks.length + 1 := by
    have hnodup : pool.blocks.Nodup := hbc.nodup_bases.of_map
    exact Nat.lt_succ_of_le (List.subperm_of_subset hnodup hbc.owned).length_le
  rw [hbc.first_eq]
  exact Pool.purgeTraced_spec hfuel hbc.headers hbc.owned hroom
    (List.pairwise_map.mp hbc.nodup_bases)

/-- A purge succeeds, and gives back the blocks of the pool and no others. -/
theorem BlockChain.purgeMemory_spec (hbc : BlockChain p h pool) :
    ∃ after, pool.purgeMemory p h = .ok (after, pool.purged) ∧ after.bytes = h.bytes ∧
      ∀ b, b ∈ after.blocks ↔ b ∈ h.blocks ∧ ∀ c ∈ pool.blocks, b.base ≠ c.base := by
  obtain ⟨after, hloop, hkept⟩ := hbc.purgeTraced_spec
  refine ⟨after, ?_, hkept⟩
  unfold purgeMemory
  rw [← map_purgeTraced, hloop]
  rfl

theorem BlockChain.purged (hbc : BlockChain p h pool) (after : Heap) :
    BlockChain p after pool.purged where
  alloc_ge := hbc.alloc_ge
  grows := ⟨0, rfl, by cases p <;> decide⟩
  owned := by simp [Pool.purged]
  carved := by simp [Pool.purged]
  apart := List.Pairwise.nil
  first_eq := rfl
  headers := linked_singleton _ _

/-- Without a tail, the purged pool is well formed again. -/
theorem WellFormed.purged (hw : WellFormed p h pool free live) (htail : pool.storage.tail = 0)
    (after : Heap) : WellFormed p after pool.purged [] [] :=
  { hw.blockChain.purged after with
    partition := List.Perm.refl _
    head_eq := rfl
    tail_eq := htail
    nonempty := fun _ ↦ rfl
    linked := linked_nil _ }

end Pool

namespace Client

variable {p : Platform} {s after : Client}

/-- A purged pool that had grown: no blocks, no head, but a tail. -/
structure Spent (s : Client) : Prop where
  head : s.pool.storage.head = 0
  tail : s.pool.storage.tail ≠ 0
  first : s.pool.first = 0
  blocks : s.pool.blocks = []
  live : s.live = []

theorem Spent.malloc_eq (hspent : s.Spent) (hnull : s.NullFree) (answer : Answer) :
    s.perform p (.malloc answer) = .error (.deref 0) := by
  have hptr := p.ptrSize_ge
  have hempty : s.pool.storage.empty = false := by
    simpa [SegregatedStorage.empty, hspent.head] using hspent.tail.symm
  have hdead : ¬ s.heap.Live 0 p.ptrSize := by
    intro hlive
    obtain ⟨b, hb, hlow, -⟩ := hlive
    have hpos := hnull b hb
    omega
  simp only [perform, Pool.malloc, hempty, SegregatedStorage.malloc, hspent.head,
    Heap.loadNext, if_neg hdead]
  rfl

theorem Spent.purge_eq (hspent : s.Spent) :
    s.perform p .purge = .ok (0, ⟨s.heap, s.pool.purged, []⟩) := by
  simp only [perform, Pool.purgeMemory, hspent.first, Pool.purgeLoop, if_true]
  rfl

/-- What a purge makes of a well-formed state. -/
theorem WellFormed.purge_spec (hw : s.WellFormed p) :
    ∃ heap, s.perform p .purge = .ok (0, ⟨heap, s.pool.purged, []⟩) ∧
      ∀ b ∈ heap.blocks, b ∈ s.heap.blocks := by
  obtain ⟨free, hw⟩ := hw
  obtain ⟨heap, hpurge, -, hblocks⟩ := hw.blockChain.purgeMemory_spec
  refine ⟨heap, ?_, fun b hb ↦ ((hblocks b).mp hb).1⟩
  simp only [perform, hpurge]
  rfl

theorem spent_purged {heap : Heap} (htail : s.pool.storage.tail ≠ 0) :
    Spent ⟨heap, s.pool.purged, []⟩ :=
  ⟨rfl, htail, rfl, rfl, rfl⟩

/-- What every state reached by calls of any kind satisfies. -/
structure Settled (p : Platform) (s : Client) : Prop where
  nullFree : s.NullFree
  pool : s.WellFormed p ∨ s.Spent

/-- A purge of a settled state succeeds, and leaves a well-formed pool exactly when there is no
tail. -/
theorem Settled.purge_spec (hs : s.Settled p) :
    ∃ after, s.perform p .purge = .ok (0, after) ∧ after.NullFree ∧
      (s.pool.storage.tail = 0 → after.WellFormed p) ∧ (s.pool.storage.tail ≠ 0 → after.Spent) := by
  rcases hs.pool with hw | hspent
  · obtain ⟨heap, hpurge, hblocks⟩ := hw.purge_spec
    refine ⟨_, hpurge, fun b hb ↦ hs.nullFree b (hblocks b hb), ?_, spent_purged⟩
    intro htail
    obtain ⟨free, hw⟩ := hw
    exact ⟨[], hw.purged htail heap⟩
  · refine ⟨_, hspent.purge_eq, hs.nullFree, ?_, spent_purged⟩
    intro htail
    exact absurd htail hspent.tail

theorem settled_step {call : PoolCall} (hs : s.Settled p) (hallowed : s.Allowed p call) {result : ℕ}
    (hperform : s.perform p call = .ok (result, after)) : after.Settled p := by
  by_cases hcall : call = .purge
  · obtain ⟨purged, hpurge, hnull, hempty, hgrown⟩ := hs.purge_spec
    rw [hcall, hpurge, Except.ok.injEq, Prod.mk.injEq] at hperform
    rw [← hperform.2]
    by_cases htail : s.pool.storage.tail = 0
    · exact ⟨hnull, Or.inl (hempty htail)⟩
    · exact ⟨hnull, Or.inr (hgrown htail)⟩
  · rcases hs.pool with hw | hspent
    · have hkept := kept_of_perform hw hcall hallowed hperform
      exact ⟨hkept.nullFree hs.nullFree, Or.inl hkept.wellFormed⟩
    · -- a spent pool has no live chunks, and `Malloc` goes through null
      cases call with
      | malloc answer => simp [hspent.malloc_eq hs.nullFree] at hperform
      | free chunk | freeAppend chunk => simp [Allowed, hspent.live] at hallowed
      | overwrite chunk offset data => simp [Allowed, hspent.live] at hallowed
      | purge => exact absurd rfl hcall

theorem settled_of_reachable {requestedSize : ℕ}
    (hreach : (system p (Fresh p requestedSize)).Reachable s) : s.Settled p := by
  apply hreach.invariant (Settled p)
  · intro start hfresh
    exact ⟨hfresh.2.2, Or.inl hfresh.wellFormed⟩
  · intro state call next hs hstep
    obtain ⟨hallowed, result, hperform⟩ := hstep
    exact settled_step hs hallowed hperform

/-- From here on no sequence of `Malloc`, `Free`, `FreeAppend` and writes goes through null or into
memory that is not handed out, and `Malloc` hands out only chunks of the blocks obtained since that
nobody holds. -/
def Reusable (p : Platform) (s : Client) : Prop :=
  ∀ history after, (system p (· = s)).Run history after →
    System.Obeys (fun _ call ↦ call ≠ .purge) history →
    ∀ call, call ≠ .purge → after.Allowed p call →
      (∀ addr, after.perform p call ≠ .error (.deref addr)) ∧
        ∀ result last, after.perform p call = .ok (result, last) → result ≠ 0 →
          after.HandedOut p last result

theorem WellFormed.reusable (hw : s.WellFormed p) : s.Reusable p := by
  intro history after hrun hnopurge call hcall hallowed
  have hafter : after.WellFormed p := by
    apply wellFormed_of_run _ hrun hnopurge
    intro start hstart
    rwa [hstart]
  constructor
  · intro addr hfault
    rcases perform_outcome hafter hcall hallowed with ⟨result, last, hok⟩ | ⟨-, other, herror⟩
    · rw [hok] at hfault
      cases hfault
    · rw [herror] at hfault
      cases hfault
  · intro result last hok
    exact (kept_of_perform hafter hcall hallowed hok).handedOut

theorem Spent.not_reusable (hspent : s.Spent) (hnull : s.NullFree) : ¬ s.Reusable p := by
  intro hreusable
  have hallowed : s.Allowed p (.malloc ⟨0, fun _ ↦ 0⟩) := by
    intro _ hne
    exact absurd rfl hne
  have hsafe := hreusable [] s (.start rfl) (by simp) _ (by simp) hallowed
  exact hsafe.1 0 (hspent.malloc_eq hnull _)

/-- **Purging.** In every state that calls of `Malloc`, `Free`, `FreeAppend` and `PurgeMemory` reach,
a purge succeeds, and it leaves a reusable pool exactly when the pool has no tail, that is, when it
has never grown. -/
theorem purge_reusable_iff {requestedSize : ℕ}
    (hreach : (system p (Fresh p requestedSize)).Reachable s) :
    ∃ after, s.perform p .purge = .ok (0, after) ∧
      (after.Reusable p ↔ s.pool.storage.tail = 0) := by
  obtain ⟨after, hpurge, hnull, hempty, hgrown⟩ := (settled_of_reachable hreach).purge_spec
  refine ⟨after, hpurge, ?_⟩
  constructor
  · intro hreusable
    by_contra htail
    exact (hgrown htail).not_reusable hnull hreusable
  · intro htail
    exact (hempty htail).reusable

/-- One `Malloc` before the purge and one behind it: the second one reads through null. -/
theorem purge_then_malloc_faults :
    ∃ grown purged, (system .x64 (Fresh .x64 8)).Reachable grown ∧
      newcomer.perform .x64 (.malloc page) = .ok (4104, grown) ∧
      grown.perform .x64 .purge = .ok (0, purged) ∧ ¬ purged.Reusable .x64 ∧
      purged.Allowed .x64 (.malloc page) ∧
      purged.perform .x64 (.malloc page) = .error (.deref 0) := by
  have hw := Pool.wellFormed_construct .x64 newcomer.heap 8
  obtain ⟨heap, hgrow, -⟩ :=
    hw.blockChain.resizeAndMalloc_eq_ok hw.tail_lt
      (newcomer_allowed rfl (by decide)) (show _ = (62 + 2) * _ by decide)
  have hmalloc : newcomer.perform .x64 (.malloc page) =
      .ok (4104, ⟨heap, (Pool.construct .x64 8).grown .x64 4096 62, [4104]⟩) := by
    change ((Pool.construct .x64 8).resizeAndMalloc .x64 newcomer.heap page).map _ = _
    rw [hgrow]
    rfl
  have hreach : (system .x64 (Fresh .x64 8)).Reachable
      ⟨heap, (Pool.construct .x64 8).grown .x64 4096 62, [4104]⟩ :=
    ⟨_, .next (.start newcomer_fresh) ⟨newcomer_allowed, _, hmalloc⟩⟩
  obtain ⟨purged, hpurge, hnull, -, hgrown⟩ := (settled_of_reachable hreach).purge_spec
  have htail : ((Pool.construct .x64 8).grown .x64 4096 62).storage.tail ≠ 0 := by decide
  have hspent := hgrown htail
  have hallowed : purged.Allowed .x64 (.malloc page) := by
    intro hempty
    rw [hspent.head] at hempty
    exact absurd hempty.symm hspent.tail
  exact ⟨_, purged, hreach, hmalloc, hpurge, hspent.not_reusable hnull, hallowed,
    hspent.malloc_eq hnull page⟩

/-- The characterisation applied to a pool that has not grown. -/
theorem purge_reusable_iff_newcomer :
    ∃ after, newcomer.perform .x64 .purge = .ok (0, after) ∧
      (after.Reusable .x64 ↔ newcomer.pool.storage.tail = 0) :=
  purge_reusable_iff ⟨[], .start newcomer_fresh⟩

end Client

end ServerCore.MemoryPool
