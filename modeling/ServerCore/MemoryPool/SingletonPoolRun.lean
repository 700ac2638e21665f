import ServerCore.MemoryPool.SingletonPoolLists

/-!
# Runs of pools that exchange chunks

A growth brings the chunks of a fresh block onto the list of the thread. A purge takes the list and the
blocks of the thread away. The main theorem goes through all operations.
-/

namespace ServerCore.MemoryPool

open Foundation

namespace SingletonPool

variable {ι : Type} {p : Platform} {requestedSize : ℕ} {s after : SingletonPool ι}
  {available : ι → List ℕ} {t u : ι} {chunk : ℕ}

/-! ## Growth -/

section Growth

variable {h heap : Heap} {pool other : Pool} {ptr j : ℕ}

/-- The pools of other blocks do not see a growth. -/
theorem blockChain_of_grownHeap (hother : other.BlockChain p h)
    (hfresh : h.Fresh p ptr (pool.requestSize p)) (hgrown : Pool.GrownHeap p h pool ptr j heap) :
    other.BlockChain p heap := by
  apply hother.frame
  · intro b hb
    rw [hgrown.blocks]
    exact List.mem_cons_of_mem _ (hother.owned b hb)
  · intro b hb
    have hapart := hfresh.2.2 b (hother.owned b hb)
    obtain ⟨⟨i, hi⟩, -⟩ := hother.carved b hb
    unfold Block.Apart Foundation.Apart at hapart
    simp only at hapart
    apply Heap.next_congr
    intro x hlow hhigh
    exact hgrown.bytes x (by omega)

/-- What a growth leaves on an empty list. -/
theorem exists_listed_of_grownHeap (hpos : 0 < pool.allocSize)
    (hgrown : Pool.GrownHeap p h pool ptr j heap) :
    ∃ list, Listed p heap (pool.grownStorage p ptr j) list ∧
      (∀ chunk ∈ list, chunk ∈ pool.newChunks p ptr j) ∧ list.Nodup ∧
      (pool.storage.tail = 0 → (pool.grownStorage p ptr j).tail ∈ pool.newChunks p ptr j ∧
        (pool.grownStorage p ptr j).tail ∉ list) := by
  have hnodup : (pool.newChunks p ptr j).Nodup := nodup_chunksFrom hpos
  have hlinked : Linked (heap.next p) (pool.newChunks p ptr j) := hgrown.linked.tail
  have hconcat : pool.newChunks p ptr j =
      chunksFrom (ptr + p.ptrSize + pool.allocSize) pool.allocSize j ++
        [ptr + p.ptrSize + (j + 1) * pool.allocSize] := by
    rw [Pool.newChunks, chunksFrom_succ, Nat.add_mul, Nat.one_mul, Nat.add_comm (j * _),
      Nat.add_assoc (ptr + p.ptrSize)]
  by_cases htail : pool.storage.tail = 0
  · have hlast : (pool.grownStorage p ptr j).tail = ptr + p.ptrSize + (j + 1) * pool.allocSize :=
      if_pos htail
    rw [← hlast] at hconcat
    refine ⟨chunksFrom (ptr + p.ptrSize + pool.allocSize) pool.allocSize j, ⟨?_, ?_⟩, ?_, ?_, ?_⟩
    · rw [← hconcat, Pool.newChunks, chunksFrom_cons]
      rfl
    · rw [← hconcat]
      exact hlinked
    · intro chunk hmem
      rw [hconcat]
      exact List.mem_append_left _ hmem
    · exact nodup_chunksFrom hpos
    · rw [hconcat, List.nodup_append] at hnodup
      intro _
      rw [hconcat]
      refine ⟨List.mem_append_right _ (List.mem_singleton_self _), fun hmem ↦ ?_⟩
      exact hnodup.2.2 _ hmem _ (List.mem_singleton_self _) rfl
  · have hsame : (pool.grownStorage p ptr j).tail = pool.storage.tail := if_neg htail
    refine ⟨pool.newChunks p ptr j, ⟨?_, ?_⟩, fun _ h ↦ h, hnodup, fun hnull ↦ absurd hnull htail⟩
    · rw [Pool.newChunks, chunksFrom_cons]
      rfl
    · rw [hsame]
      apply linked_append.mpr ⟨hlinked, linked_singleton _ _, ?_⟩
      intro last hlast first hfirst
      rw [hconcat, List.getLast?_concat, Option.mem_some_iff] at hlast
      rw [List.head?_cons, Option.mem_some_iff] at hfirst
      rw [← hlast, ← hfirst]
      exact hgrown.spliced

/-- The chunks of a fresh block lie outside all blocks there were. -/
theorem Blocked.outside (hb : s.Blocked p requestedSize) {size : ℕ}
    (hfresh : s.heap.Fresh p ptr size) (hchunk : s.Carved p chunk) :
    chunk + chunkSize p requestedSize ≤ ptr ∨ ptr + size ≤ chunk := by
  obtain ⟨u, b, hblock, howned, hlow, hhigh⟩ := hb.chunk_bounds hchunk
  have hapart := hfresh.2.2 b howned
  unfold Block.Apart Foundation.Apart at hapart
  simp only at hapart
  omega

end Growth

section Grown

variable {heap : Heap} {ptr j : ℕ} {live : List ℕ}

theorem Blocked.chunks_grown (hb : s.Blocked p requestedSize)
    (htotal : (s.pools t).totalSize p = (j + 2) * (s.pools t).allocSize) :
    ((s.pools t).grown p ptr j).chunks p =
      ((ptr + p.ptrSize) :: (s.pools t).newChunks p ptr j) ++ (s.pools t).chunks p := by
  rw [(hb.chain t).chunks_grown htotal, chunksFrom_cons]
  rfl

/-- The new chunks are none of the chunks there were. -/
theorem Blocked.not_carved (hb : s.Blocked p requestedSize)
    (hfresh : s.heap.Fresh p ptr ((s.pools t).requestSize p))
    (htotal : (s.pools t).totalSize p = (j + 2) * (s.pools t).allocSize)
    (hnew : chunk ∈ (ptr + p.ptrSize) :: (s.pools t).newChunks p ptr j) : ¬ s.Carved p chunk := by
  intro hcarved
  have houtside := hb.outside hfresh hcarved
  have hpos := (hb.chain t).alloc_pos
  have hrequest := (hb.chain t).requestSize_eq.1
  rw [Pool.newChunks, ← chunksFrom_cons] at hnew
  obtain ⟨i, hi, rfl⟩ := mem_chunksFrom.mp hnew
  have hmul := Nat.mul_le_mul_right (s.pools t).allocSize (show i + 1 ≤ j + 2 from hi)
  rw [Nat.add_mul, Nat.one_mul] at hmul
  rw [hb.allocSize t] at *
  omega

variable [DecidableEq ι]

theorem Blocked.carved_grown (hb : s.Blocked p requestedSize)
    (htotal : (s.pools t).totalSize p = (j + 2) * (s.pools t).allocSize) :
    (s.install t ((s.pools t).grown p ptr j) heap live).Carved p chunk ↔
      chunk ∈ (ptr + p.ptrSize) :: (s.pools t).newChunks p ptr j ∨ s.Carved p chunk := by
  constructor
  · rintro ⟨u, hu⟩
    by_cases hut : u = t
    · rw [hut, install_pools_self, hb.chunks_grown htotal] at hu
      exact (List.mem_append.mp hu).imp id fun hold ↦ ⟨t, hold⟩
    · rw [install_pools_of_ne s hut] at hu
      exact Or.inr ⟨u, hu⟩
  · rintro (hnew | ⟨u, hu⟩)
    · refine ⟨t, ?_⟩
      rw [install_pools_self, hb.chunks_grown htotal]
      exact List.mem_append_left _ hnew
    · refine ⟨u, ?_⟩
      by_cases hut : u = t
      · rw [hut, install_pools_self, hb.chunks_grown htotal]
        exact List.mem_append_right _ (hut ▸ hu)
      · rwa [install_pools_of_ne s hut]

theorem Blocked.grown (hb : s.Blocked p requestedSize)
    (hfresh : s.heap.Fresh p ptr ((s.pools t).requestSize p))
    (htotal : (s.pools t).totalSize p = (j + 2) * (s.pools t).allocSize)
    (hgrown : Pool.GrownHeap p s.heap (s.pools t) ptr j heap) :
    (s.install t ((s.pools t).grown p ptr j) heap live).Blocked p requestedSize := by
  have hblock : ∀ u, u ≠ t → ∀ b ∈ ((s.pools t).grown p ptr j).blocks,
      ∀ c ∈ (s.pools u).blocks, b.Apart c := by
    intro u hut b hnew c hc
    rcases List.mem_cons.mp hnew with rfl | hold
    · exact hfresh.2.2 c ((hb.chain u).owned c hc)
    · exact hb.apart t u (Ne.symm hut) b hold c hc
  refine ⟨?_, ?_, ?_⟩
  · intro u
    by_cases hut : u = t
    · rw [hut, install_pools_self]
      apply (blockChain_of_grownHeap (hb.chain t) hfresh hgrown).grown
      · rw [hgrown.blocks]
        exact List.mem_cons_self
      · exact hfresh.1
      · exact hfresh.2.1
      · exact fun b hold ↦ hfresh.2.2 b ((hb.chain t).owned b hold)
      · exact htotal
      · exact hgrown.header
    · rw [install_pools_of_ne s hut]
      exact blockChain_of_grownHeap (hb.chain u) hfresh hgrown
  · intro u
    by_cases hut : u = t
    · rw [hut, install_pools_self]
      exact hb.allocSize t
    · rw [install_pools_of_ne s hut]
      exact hb.allocSize u
  · intro u v huv
    by_cases hut : u = t
    · subst hut
      rw [install_pools_self, install_pools_of_ne s (Ne.symm huv)]
      exact hblock v (Ne.symm huv)
    · by_cases hvt : v = t
      · subst hvt
        rw [install_pools_self, install_pools_of_ne s huv]
        exact fun b hold c hnew ↦ (hblock u huv c hnew b hold).symm
      · rw [install_pools_of_ne s hut, install_pools_of_ne s hvt]
        exact hb.apart u v huv

end Grown

variable [DecidableEq ι]

/-- `Malloc` on an empty list takes the first chunk of a fresh block. -/
theorem Circulating.grow (hs : s.Circulating p requestedSize available) (hdefined : s.fault = none)
    (hactive : s.Active t) (hempty : (s.pools t).storage.head = (s.pools t).storage.tail)
    {answer : Answer} (hfresh : s.heap.Fresh p answer.addr ((s.pools t).requestSize p))
    (hfits : (s.pools t).Fits p) : (s.attempt p (.malloc t answer)).Sound p requestedSize := by
  have hbc := hs.blocked.chain t
  obtain ⟨j, htotal, -⟩ := hbc.totalSize_eq hfits
  obtain ⟨heap, hresult, hgrown⟩ :=
    hbc.resizeAndMalloc_eq_ok (hs.tail_lt hactive) hfresh htotal
  generalize answer.addr = ptr at hfresh hresult hgrown
  obtain ⟨list, hlisted, hlist, hnodup, htail⟩ := exists_listed_of_grownHeap hbc.alloc_pos hgrown
  have hnew (other : ℕ) (hmem : other ∈ (ptr + p.ptrSize) :: (s.pools t).newChunks p ptr j) :
      ¬ s.Carved p other := hs.blocked.not_carved hfresh htotal hmem
  have hnewList (other : ℕ) (hmem : other ∈ list) : ¬ s.Carved p other :=
    hnew other (List.mem_cons_of_mem _ (hlist other hmem))
  have hfirst : ptr + p.ptrSize ∉ (s.pools t).newChunks p ptr j := by
    have hall : (chunksFrom (ptr + p.ptrSize) (s.pools t).allocSize (j + 2)).Nodup :=
      nodup_chunksFrom hbc.alloc_pos
    rw [chunksFrom_cons] at hall
    exact (List.nodup_cons.mp hall).1
  have hlinks (other : ℕ) (hcarved : s.Carved p other) :
      heap.next p other = s.heap.next p other := by
    have houtside := hs.blocked.outside hfresh hcarved
    have hroom : p.ptrSize ≤ chunkSize p requestedSize := le_max_right _ _
    apply Heap.next_congr
    intro x hlow hhigh
    exact hgrown.bytes x (by omega)
  have hcarved (live : List ℕ) (other : ℕ) :
      (s.install t ((s.pools t).grown p ptr j) heap live).Carved p other ↔
        other ∈ (ptr + p.ptrSize) :: (s.pools t).newChunks p ptr j ∨ s.Carved p other :=
    hs.blocked.carved_grown htotal
  have hheld (other : ℕ) (hmem : other ∈ (ptr + p.ptrSize) :: s.live) :
      other ∉ (s.pools t).newChunks p ptr j := by
    rcases List.mem_cons.mp hmem with rfl | hold
    · exact hfirst
    · exact fun hmem' ↦ hnew other (List.mem_cons_of_mem _ hmem') (hs.liveCarved other hold)
  have hkept (other : ℕ) (hold : s.Carved p other) (hnot : other ∉ s.live) :
      other ∉ (ptr + p.ptrSize) :: s.live := by
    rw [List.mem_cons, not_or]
    refine ⟨?_, hnot⟩
    rintro rfl
    exact hnew _ List.mem_cons_self hold
  have hsame (hnull : (s.pools t).storage.tail ≠ 0) :
      ((s.pools t).grown p ptr j).storage.tail = (s.pools t).storage.tail := if_neg hnull
  have hmoved : (s.install t ((s.pools t).grown p ptr j) heap
      ((ptr + p.ptrSize) :: s.live)).Circulating p requestedSize
      (Function.update available t list) := by
    apply hs.change
    · exact hs.blocked.grown hfresh htotal hgrown
    · intro other hmem
      rw [hcarved]
      rcases List.mem_cons.mp hmem with rfl | hold
      · exact Or.inl List.mem_cons_self
      · exact Or.inr (hs.liveCarved other hold)
    · refine List.nodup_cons.mpr ⟨fun hmem ↦ ?_, hs.liveNodup⟩
      exact hnew _ List.mem_cons_self (hs.liveCarved _ hmem)
    · exact fun u hu ↦ install_pools_of_ne s hu _ _ _
    · exact fun u hu ↦ active_install_of_ne s hu _ _ _
    · exact {
        listed := by
          rw [install_pools_self]
          exact fun _ ↦ hlisted
        inactive := by
          intro hidle
          refine absurd ⟨hactive.1, ?_⟩ hidle
          rintro ⟨-, hnull⟩
          rw [install_pools_self] at hnull
          exact Nat.ne_of_gt hfresh.1 hnull
        carved := fun other hmem ↦
          (hcarved _ other).mpr (Or.inl (List.mem_cons_of_mem _ (hlist other hmem)))
        nodup := hnodup
        notLive := fun other hmem hmem' ↦ hheld other hmem' (hlist other hmem)
        sentinel := by
          rw [install_pools_self, hs.blocked.chunks_grown htotal]
          intro _ _
          by_cases hnull : (s.pools t).storage.tail = 0
          · have hlast := (htail hnull).1
            refine ⟨List.mem_append_left _ (List.mem_cons_of_mem _ hlast), ?_⟩
            exact fun hmem ↦ hheld _ hmem hlast
          · have hold := (hs.holds t).sentinel hactive hnull
            rw [hsame hnull]
            exact ⟨List.mem_append_right _ hold.1, hkept _ ⟨t, hold.1⟩ hold.2⟩ }
    · intro u hu
      apply (hs.holds u).frame (install_pools_of_ne s hu _ _ _) (active_install_of_ne s hu _ _ _)
      · exact fun other hmem ↦ hlinks other ((hs.holds u).carved other hmem)
      · exact fun other hmem ↦ (hcarved _ other).mpr (Or.inr ((hs.holds u).carved other hmem))
      · exact fun other hmem ↦
          hkept other ((hs.holds u).carved other hmem) ((hs.holds u).notLive other hmem)
      · intro hbusy hnull
        have hold := (hs.holds u).sentinel hbusy hnull
        exact hkept _ ⟨u, hold.1⟩ hold.2
    · exact fun u _ other hmem hmem' ↦ hnewList other hmem ((hs.holds u).carved other hmem')
    · rw [install_pools_self]
      intro _ _
      by_cases hnull : (s.pools t).storage.tail = 0
      · refine ⟨(htail hnull).2, fun u _ hmem ↦ ?_⟩
        exact hnew _ (List.mem_cons_of_mem _ (htail hnull).1) ((hs.holds u).carved _ hmem)
      · have hold := (hs.holds t).sentinel hactive hnull
        rw [hsame hnull]
        exact ⟨fun hmem ↦ hnewList _ hmem ⟨t, hold.1⟩, fun u _ ↦ hs.reserved t u hactive hnull⟩
    · exact fun u _ hbusy hnull hmem ↦
        hnewList _ hmem ⟨u, ((hs.holds u).sentinel hbusy hnull).1⟩
  apply hmoved.sound_attempt hdefined
  have hmalloc : (s.pools t).malloc p s.heap answer =
      .ok (ptr + p.ptrSize, heap, (s.pools t).grown p ptr j) := by
    simp only [Pool.malloc, SegregatedStorage.empty, hempty, beq_self_eq_true, Bool.not_true]
    exact hresult
  have hpointer : ptr + p.ptrSize ≠ 0 := by
    have hptr := p.ptrSize_ge
    omega
  simp only [perform, hmalloc, bind, Except.bind, pure, Except.pure, if_neg hpointer]

/-- `::malloc` answers with null, and nothing has happened. -/
theorem Circulating.refuse (hs : s.Circulating p requestedSize available) (hdefined : s.fault = none)
    (hempty : (s.pools t).storage.head = (s.pools t).storage.tail) {answer : Answer}
    (hnull : answer.addr = 0) : (s.attempt p (.malloc t answer)).Sound p requestedSize := by
  apply hs.sound_attempt hdefined
  have hmalloc : (s.pools t).malloc p s.heap answer = .ok (0, s.heap, s.pools t) :=
    Pool.malloc_of_null hempty hnull
  have hsame : s.install t (s.pools t) s.heap s.live = s := by
    unfold install
    rw [Function.update_eq_self]
  simp only [perform, hmalloc, bind, Except.bind, pure, Except.pure, if_true, hsame]

/-! ## Release -/

omit [DecidableEq ι] in
/-- The blocks that do not belong to the thread outlive its purge. -/
theorem Blocked.kept (hb : s.Blocked p requestedSize) {heap : Heap}
    (hblocks : ∀ b, b ∈ heap.blocks ↔ b ∈ s.heap.blocks ∧ ∀ c ∈ (s.pools t).blocks, b.base ≠ c.base)
    (hu : u ≠ t) {b : Block} (hmem : b ∈ (s.pools u).blocks) : b ∈ heap.blocks := by
  rw [hblocks]
  refine ⟨(hb.chain u).owned b hmem, fun c hc hbase ↦ ?_⟩
  have hapart := hb.apart u t hu b hmem c hc
  obtain ⟨⟨i, hi⟩, -⟩ := (hb.chain u).carved b hmem
  obtain ⟨⟨j, hj⟩, -⟩ := (hb.chain t).carved c hc
  have hptr := p.ptrSize_ge
  unfold Block.Apart Foundation.Apart at hapart
  omega

/-- The blocks of a thread are released, and with them its list. -/
theorem Circulating.release (hs : s.Circulating p requestedSize available)
    (hunused : s.Unused p t) (hgathered : s.Gathered p t) {heap : Heap} {exited : List ι}
    (hbytes : heap.bytes = s.heap.bytes)
    (hblocks : ∀ b, b ∈ heap.blocks ↔ b ∈ s.heap.blocks ∧ ∀ c ∈ (s.pools t).blocks, b.base ≠ c.base)
    (hexited : ∀ u, u ≠ t → (u ∈ exited ↔ u ∈ s.exited)) :
    ({ s.install t (s.pools t).purged heap s.live with exited := exited } :
      SingletonPool ι).Circulating p requestedSize (Function.update available t []) := by
  let after : SingletonPool ι :=
    { s.install t (s.pools t).purged heap s.live with exited := exited }
  have hself : after.pools t = (s.pools t).purged :=
    install_pools_self s t (s.pools t).purged heap s.live
  have hpools (u : ι) (hu : u ≠ t) : after.pools u = s.pools u :=
    install_pools_of_ne s hu (s.pools t).purged heap s.live
  have hactive (u : ι) (hu : u ≠ t) : after.Active u ↔ s.Active u := by
    unfold Active Purged
    rw [hpools u hu]
    exact and_congr_left' (not_congr (hexited u hu))
  -- a chunk survives unless the thread carved it
  have hcarved (chunk : ℕ) (hold : s.Carved p chunk) (hnot : chunk ∉ (s.pools t).chunks p) :
      after.Carved p chunk := by
    obtain ⟨u, hmem⟩ := hold
    have hu : u ≠ t := by
      rintro rfl
      exact hnot hmem
    exact ⟨u, by rwa [hpools u hu]⟩
  -- a pool that is active after its own purge has never grown
  have htail (hbusy : after.Active t) : (after.pools t).storage.tail = 0 := by
    by_contra htail
    rw [Active, Purged, hself] at hbusy
    rw [hself] at htail
    exact hbusy.2 ⟨htail, rfl⟩
  apply hs.change
  · refine ⟨?_, ?_, ?_⟩
    · intro u
      by_cases hu : u = t
      · rw [hu, hself]
        exact (hs.blocked.chain t).purged heap
      · rw [hpools u hu]
        apply (hs.blocked.chain u).frame
        · exact fun b hb ↦ hs.blocked.kept hblocks hu hb
        · exact fun b _ ↦ Heap.next_congr fun x _ _ ↦ congrFun hbytes x
    · intro u
      by_cases hu : u = t
      · rw [hu, hself]
        exact hs.blocked.allocSize t
      · rw [hpools u hu]
        exact hs.blocked.allocSize u
    · intro u v huv b hb c hc
      by_cases hu : u = t
      · rw [hu, hself] at hb
        exact absurd hb List.not_mem_nil
      · by_cases hv : v = t
        · rw [hv, hself] at hc
          exact absurd hc List.not_mem_nil
        · rw [hpools u hu] at hb
          rw [hpools v hv] at hc
          exact hs.blocked.apart u v huv b hb c hc
  · exact fun chunk hlive ↦ hcarved chunk (hs.liveCarved chunk hlive) (hunused chunk hlive)
  · exact hs.liveNodup
  · exact hpools
  · exact hactive
  · refine ⟨?_, fun _ ↦ rfl, ?_, List.nodup_nil, ?_, ?_⟩
    · intro hbusy
      have hnull := htail hbusy
      rw [hself] at hnull ⊢
      exact ⟨hnull.symm, linked_singleton _ _⟩
    · exact fun chunk hmem ↦ absurd hmem List.not_mem_nil
    · exact fun chunk hmem ↦ absurd hmem List.not_mem_nil
    · exact fun hbusy hgrown ↦ absurd (htail hbusy) hgrown
  · intro u hu
    apply (hs.holds u).frame (hpools u hu) (hactive u hu)
    · exact fun chunk _ ↦ Heap.next_congr fun x _ _ ↦ congrFun hbytes x
    · intro chunk hmem
      have hbusy : s.Active u := by
        by_contra hidle
        rw [(hs.holds u).inactive hidle] at hmem
        exact absurd hmem List.not_mem_nil
      apply hcarved chunk ((hs.holds u).carved chunk hmem)
      exact fun hmine ↦ hgathered u hu hbusy chunk hmine (hs.onFreeList hbusy hmem)
    · exact (hs.holds u).notLive
    · exact fun hbusy hgrown ↦ ((hs.holds u).sentinel hbusy hgrown).2
  · exact fun u _ chunk hmem ↦ absurd hmem List.not_mem_nil
  · exact fun hbusy hgrown ↦ absurd (htail hbusy) hgrown
  · exact fun u _ _ _ ↦ List.not_mem_nil

/-! ## Runs -/

omit [DecidableEq ι] in
theorem circulating_initial (heap : Heap) :
    (initial p requestedSize ι heap).Circulating p requestedSize fun _ ↦ [] where
  blocked := {
    chain := fun _ ↦ (Pool.wellFormed_construct p heap requestedSize).blockChain
    allocSize := fun _ ↦ rfl
    apart := fun _ _ _ _ hb ↦ absurd hb List.not_mem_nil }
  holds := fun _ ↦ {
    listed := fun _ ↦ ⟨rfl, linked_singleton _ _⟩
    inactive := fun _ ↦ rfl
    carved := fun _ hmem ↦ absurd hmem List.not_mem_nil
    nodup := List.nodup_nil
    notLive := fun _ hmem ↦ absurd hmem List.not_mem_nil
    sentinel := fun _ hgrown ↦ absurd rfl hgrown }
  liveCarved := fun _ hmem ↦ absurd hmem List.not_mem_nil
  liveNodup := List.nodup_nil
  oneList := fun _ _ _ hmem ↦ absurd hmem List.not_mem_nil
  reserved := fun _ _ _ hgrown ↦ absurd rfl hgrown

/-- Every operation keeps the pools sound if it is contained. -/
theorem sound_step {call : SingletonPoolCall ι} (hs : s.Sound p requestedSize)
    (hcontained : s.Contained p call) (hstep : (system p requestedSize ι).step s call after) :
    after.Sound p requestedSize := by
  obtain ⟨hdefined, hallowed, rfl⟩ := hstep
  obtain ⟨-, available, hs⟩ := hs
  cases call with
  | malloc t answer =>
    have hactive : s.Active t := ⟨hallowed.1, hcontained.1⟩
    by_cases hempty : (s.pools t).storage.head = (s.pools t).storage.tail
    · by_cases hnull : answer.addr = 0
      · exact hs.refuse hdefined hempty hnull
      · exact hs.grow hdefined hactive hempty (hallowed.2 hempty hnull) (hcontained.2 hempty hnull)
    · exact hs.pop hdefined hactive hempty answer
  | free t chunk => exact hs.free hdefined hallowed.2 t
  | purgeMemory t =>
    obtain ⟨heap, hpurge, hbytes, hblocks⟩ := (hs.blocked.chain t).purgeMemory_spec
    have hkept (u : ι) (_ : u ≠ t) : u ∈ s.exited ↔ u ∈ s.exited := Iff.rfl
    have hreleased := hs.release hallowed.2 hcontained hbytes hblocks hkept
    apply hreleased.sound_attempt hdefined
    simp only [perform, hpurge, bind, Except.bind, pure, Except.pure]
    rfl
  | exit t =>
    obtain ⟨heap, hpurge, hbytes, hblocks⟩ := (hs.blocked.chain t).purgeMemory_spec
    have hkept (u : ι) (hu : u ≠ t) : u ∈ t :: s.exited ↔ u ∈ s.exited := by
      rw [List.mem_cons, or_iff_right hu]
    have hreleased := hs.release hallowed.2 hcontained hbytes hblocks hkept
    apply hreleased.sound_attempt hdefined
    simp only [perform, hpurge, bind, Except.bind, pure, Except.pure]
  | overwrite chunk offset data => exact hs.overwrite hdefined hallowed.1 hallowed.2

/-- **Contained chunks.** In a run whose purges and ends of threads release only blocks whose chunks are on
no other free list, whose threads take no chunk once they have purged a pool that had grown, and whose
growth sizes do not wrap, `Malloc` hands out no chunk of a released block, and none that is live. -/
theorem handedOutOnce_of_contained {history : List (SingletonPool ι × SingletonPoolCall ι)}
    (hrun : (system p requestedSize ι).Run history s)
    (hcontained : System.Obeys (Contained p) history) :
    ∀ seen ∈ System.visited history s, seen.HandedOutOnce p requestedSize := by
  have hsound := hrun.invariant_visited (Sound p requestedSize) ?_ ?_ hcontained
  · intro seen hseen
    obtain ⟨hdefined, available, hs⟩ := hsound seen hseen
    exact hs.handedOutOnce hdefined
  · rintro start ⟨heap, rfl⟩
    exact ⟨rfl, _, circulating_initial heap⟩
  · exact fun state call next hs hcondition hstep ↦ sound_step hs hcondition hstep

/-! ## Two threads -/

instance (s : SingletonPool ι) (call : SingletonPoolCall ι) :
    Decidable (s.Allowed p requestedSize call) :=
  match call with
  | .malloc t _ => inferInstanceAs (Decidable (t ∉ s.exited ∧ (_ → _ → _)))
  | .free t chunk => inferInstanceAs (Decidable (t ∉ s.exited ∧ chunk ∈ s.live))
  | .purgeMemory t | .exit t =>
    inferInstanceAs (Decidable (t ∉ s.exited ∧ ∀ chunk ∈ s.live, chunk ∉ (s.pools t).chunks p))
  | .overwrite chunk offset data =>
    inferInstanceAs (Decidable (chunk ∈ s.live ∧ offset + data.length ≤ requestedSize))

/-- Two threads that have called nothing yet. -/
def newcomers : SingletonPool (Fin 2) := initial .x64 8 (Fin 2) ⟨fun _ ↦ 0, []⟩

/-- The steps that are allowed, as a function. -/
def allowedStep (s : SingletonPool (Fin 2)) (call : SingletonPoolCall (Fin 2)) :
    Option (SingletonPool (Fin 2)) :=
  if s.fault = none ∧ s.Allowed .x64 8 call then some (s.attempt .x64 call) else none

theorem run_of_allowedStep
    {history : List (SingletonPool (Fin 2) × SingletonPoolCall (Fin 2))} {s : SingletonPool (Fin 2)}
    (hrun : (System.ofStep (fun s ↦ s = newcomers) allowedStep).Run history s) :
    (system .x64 8 (Fin 2)).Run history s := by
  apply hrun.mono
  · rintro start rfl
    exact ⟨_, rfl⟩
  · intro state call after hstep
    obtain ⟨⟨hdefined, hallowed⟩, hafter⟩ := Option.ite_none_right_eq_some.mp hstep
    exact ⟨hdefined, hallowed, (Option.some.inj hafter).symm⟩

/-- The second thread frees a chunk of the first one, which purges; then the second one takes the
chunk from its own list. -/
def migrated : List (SingletonPoolCall (Fin 2)) :=
  [.malloc 0 Client.page, .free 1 4104, .purgeMemory 0, .malloc 1 Client.page]

/-- `Malloc` reads the link of a chunk in a block that has been released. -/
theorem handedOutOnce_fails :
    ¬ ∀ history s, (system .x64 8 (Fin 2)).Run history s → s.HandedOutOnce .x64 8 := by
  intro hclaim
  have hreplay : (System.replay allowedStep newcomers migrated).map
      (fun s ↦ decide (s.fault = some (.deref 4104))) = some true := by
    decide +kernel
  obtain ⟨history, s, hrun, htest⟩ :=
    System.exists_run_of_replay (fun s ↦ s = newcomers) rfl hreplay
  have hdefined := (hclaim history s (run_of_allowedStep hrun)).defined
  simp [hdefined] at htest

/-- A call that releases no block and needs no growth that wraps. -/
def Exchanges (s : SingletonPool (Fin 2)) : SingletonPoolCall (Fin 2) → Prop
  | .malloc t _ => ¬ s.Purged t ∧ (s.pools t).Fits .x64
  | .free _ _ => True
  | _ => False

instance (s : SingletonPool (Fin 2)) (call : SingletonPoolCall (Fin 2)) :
    Decidable (s.Exchanges call) :=
  match call with
  | .malloc _ _ => inferInstanceAs (Decidable (¬ (_ ∧ _) ∧ _ < _))
  | .free _ _ => inferInstanceAs (Decidable True)
  | .purgeMemory _ | .exit _ | .overwrite _ _ _ => inferInstanceAs (Decidable False)

theorem contained_of_exchanges {s : SingletonPool (Fin 2)} {call : SingletonPoolCall (Fin 2)}
    (hexchanges : s.Exchanges call) : s.Contained .x64 call := by
  cases call with
  | malloc t answer => exact ⟨hexchanges.1, fun _ _ ↦ hexchanges.2⟩
  | free t chunk => trivial
  | purgeMemory t | exit t => exact hexchanges.elim
  | overwrite chunk offset data => trivial

/-- The theorem applied to a run in which the second thread takes a chunk of the first one. -/
theorem handedOutOnce_of_contained_applies :
    ∃ history s, (system .x64 8 (Fin 2)).Run history s ∧ s.live = [4104] ∧
      ∀ seen ∈ System.visited history s, seen.HandedOutOnce .x64 8 := by
  have hreplay : (System.replay
      (fun s call ↦ if s.Exchanges call then allowedStep s call else none) newcomers
      [.malloc 0 Client.page, .free 1 4104, .malloc 1 Client.page]).map
      (fun s ↦ decide (s.live = [4104])) = some true := by
    decide +kernel
  obtain ⟨history, s, htested, hlive⟩ :=
    System.exists_run_of_replay (fun s ↦ s = newcomers) rfl hreplay
  obtain ⟨hrun, hexchanges⟩ := htested.of_tested
  have hcontained : System.Obeys (Contained .x64) history :=
    fun entry hentry ↦ contained_of_exchanges (hexchanges entry hentry)
  exact ⟨history, s, run_of_allowedStep hrun, by simpa using hlive,
    handedOutOnce_of_contained (run_of_allowedStep hrun) hcontained⟩

end SingletonPool

end ServerCore.MemoryPool
