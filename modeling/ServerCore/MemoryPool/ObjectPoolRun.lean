import ServerCore.MemoryPool.ObjectPoolOwnership

/-!
# Runs of object pools

Each operation has a lemma that carries the invariant through it: `malloc_spec` and `free_spec` for
the two that touch lists and tags, `Shared.overwrite` for the writes of clients. `Construct` and
`Destroy` are put together from these. The main theorem reads the ownership of chunks off the
invariant, in every state that any interleaving of whole operations reaches.
-/

namespace ServerCore.MemoryPool

open Foundation

namespace Instantiation

variable {o : Instantiation} {h after : Heap} {chunk id : ℕ}

theorem tag_setTag_self (h : Heap) (chunk : ℕ) (hid : id ≤ maxThreadNum) :
    o.tag (o.setTag h chunk id) chunk = id := by
  apply ByteMemory.load_store_self
  unfold maxThreadNum at hid
  omega

theorem storeTag_eq_ok_iff :
    o.storeTag h chunk id = .ok after ↔
      chunk ≠ 0 ∧ h.SameBlock chunk (chunk + o.requestedSize) 2 ∧ o.setTag h chunk id = after := by
  unfold storeTag
  by_cases hnull : chunk = 0
  · simp [hnull]
  · by_cases hsame : h.SameBlock chunk (chunk + o.requestedSize) 2
    · simp [hnull, hsame]
    · simp [hnull, hsame]

/-- The tag lies in the last bytes of a chunk. -/
theorem setTag_bytes_of_outside {allocSize x : ℕ} (hroom : o.requestedSize + 2 ≤ allocSize)
    (hx : x < chunk ∨ chunk + allocSize ≤ x) : (o.setTag h chunk id).bytes x = h.bytes x := by
  apply ByteMemory.store_of_outside
  omega

/-- If `RequestedSize + 2` wraps, the tag of the first chunk ever carved is outside its block. -/
theorem room_of_first_growth {ptr j : ℕ} (hfresh : h.Fresh o.platform ptr
      (o.newPool.requestSize o.platform))
    (hafter : Pool.GrownHeap o.platform h o.newPool ptr j after)
    (hsame : after.SameBlock (ptr + o.platform.ptrSize)
      (ptr + o.platform.ptrSize + o.requestedSize) 2) : o.requestedSize + 2 < 2 ^ 32 := by
  by_contra hwrap
  have hunsigned := o.unsigned
  have hptr := o.platform.ptrSize_ge
  have hptr' := o.platform.ptrSize_le
  have hsmall : (o.requestedSize + 2) % 2 ^ 32 ≤ o.platform.ptrSize := by omega
  have hrequest : o.newPool.requestSize o.platform = 65 * o.platform.ptrSize := by
    unfold newPool Pool.construct Pool.requestSize Pool.totalSize
    rw [Nat.max_eq_right hsmall]
    cases o.platform <;> rfl
  rw [hrequest] at hfresh
  obtain ⟨-, -, hapart⟩ := hfresh
  obtain ⟨b, hb, horigin, htag⟩ := hsame
  unfold Block.Contains at horigin htag
  rw [hafter.blocks, hrequest] at hb
  rcases List.mem_cons.mp hb with rfl | hold
  · simp only at horigin htag
    omega
  · have hdisjoint := hapart b hold
    unfold Block.Apart Foundation.Apart at hdisjoint
    simp only at hdisjoint
    omega

end Instantiation

namespace ObjectPool

variable {ι : Type} {o : Instantiation} {s after : ObjectPool ι} {free : ℕ → List ℕ}
  {id chunk : ℕ} {pool : Pool}

/-- The tag of a carved chunk is accessible. -/
theorem sameBlock_tag {h : Heap} {list chunks : List ℕ}
    (hw : pool.WellFormed o.platform h list chunks) (hmem : chunk ∈ pool.chunks o.platform)
    (hfit : o.requestedSize + 2 ≤ pool.allocSize) :
    h.SameBlock chunk (chunk + o.requestedSize) 2 := by
  obtain ⟨b, hb, hlow, hhigh⟩ := hw.chunk_bounds hmem
  exact ⟨b, hw.owned b hb, ⟨by omega, by omega⟩, ⟨by omega, by omega⟩⟩

theorem storeTag_eq_ok {h : Heap} {list chunks : List ℕ}
    (hw : pool.WellFormed o.platform h list chunks) (hmem : chunk ∈ pool.chunks o.platform)
    (hfit : o.requestedSize + 2 ≤ pool.allocSize) (id : ℕ) :
    o.storeTag h chunk id = .ok (o.setTag h chunk id) :=
  Instantiation.storeTag_eq_ok_iff.mpr
    ⟨Nat.ne_of_gt (hw.chunk_lt hmem).1, sameBlock_tag hw hmem hfit, rfl⟩

/-! ## Changes inside one chunk -/

/-- One pool changes and memory changes inside one of its chunks only. -/
theorem Shared.rewrite (hs : s.Shared o free) (hpool : s.objectPoolArray id = some pool)
    (hmem : chunk ∈ pool.chunks o.platform) {pool' : Pool} {heap : Heap} {list chunks : List ℕ}
    (hw : pool'.WellFormed o.platform heap list chunks) (halloc : pool'.allocSize = pool.allocSize)
    (hsame : pool'.blocks = pool.blocks) (hblocks : heap.blocks = s.heap.blocks)
    (hbytes : ∀ x, x < chunk ∨ chunk + pool.allocSize ≤ x → heap.bytes x = s.heap.bytes x)
    (hlive : ∀ other ∈ chunks, other ≠ chunk → other ∈ s.live id)
    (htag : chunk ∈ chunks → o.tag heap chunk = id) :
    (s.install id pool' heap chunks).Shared o (Function.update free id list) := by
  have hold := hs.wellFormed id pool hpool
  have hroom := hs.room_of_mem hpool hmem
  apply hs.install hpool hw halloc hroom
  · intro b hb
    rwa [hblocks]
  · intro b hb
    rw [hsame] at hb
    exact Or.inl hb
  · intro x hx
    obtain ⟨b, hb, hlow, hhigh⟩ := hold.chunk_bounds hmem
    have houtside := hx b (by rwa [hsame])
    exact hbytes x (by omega)
  · intro other hother
    by_cases heq : other = chunk
    · rw [heq] at hother ⊢
      exact htag hother
    · have hbefore := hlive other hother heq
      rw [← hs.tagged id other hbefore]
      have hapart := hold.chunks_apart (hold.live_mem hbefore) hmem heq
      have hfit := room_of_unwrapped hroom
      rw [← hs.allocSize id pool hpool] at hfit
      unfold Foundation.Apart at hapart
      apply ByteMemory.load_congr
      intro x hlow hhigh
      exact hbytes x (by omega)

/-- A client writes the requested bytes of a live chunk. -/
theorem Shared.overwrite (hs : s.Shared o free) (hlive : chunk ∈ s.live id) {offset : ℕ}
    {data : List UInt8} (hoffset : offset + data.length ≤ o.requestedSize) :
    (s.overwrite (chunk + offset) data).Shared o free := by
  obtain ⟨pool, hpool, hmem⟩ := hs.exists_pool hlive
  have hw := hs.wellFormed id pool hpool
  have hfit := room_of_unwrapped (hs.room_of_mem hpool hmem)
  rw [← hs.allocSize id pool hpool] at hfit
  have hbytes : ∀ x, x < chunk ∨ chunk + pool.allocSize ≤ x →
      (s.heap.bytes.write (chunk + offset) data) x = s.heap.bytes x := by
    intro x hx
    apply ByteMemory.write_of_outside
    omega
  have hrewrite := hs.rewrite hpool hmem
    (hw.frame_live { s.heap with bytes := s.heap.bytes.write (chunk + offset) data } hlive rfl
      hbytes) rfl rfl rfl hbytes (fun _ hother _ ↦ hother) (by
      intro _
      rw [← hs.tagged id chunk hlive]
      apply ByteMemory.load_write_of_apart
      unfold Foundation.Apart
      omega)
  have hsame : s.install id pool
      { s.heap with bytes := s.heap.bytes.write (chunk + offset) data } (s.live id) =
      s.overwrite (chunk + offset) data := by
    unfold ObjectPool.install ObjectPool.overwrite
    rw [← hpool, Function.update_eq_self, Function.update_eq_self]
  rwa [hsame, Function.update_eq_self] at hrewrite

/-! ## The operations -/

theorem Shared.install_dropped (hs : s.Shared o free) (hlive : chunk ∈ s.live id) (pool' : Pool)
    (heap : Heap) :
    (s.install id pool' heap (s.live id)).dropped chunk =
      s.install id pool' heap ((s.live id).erase chunk) := by
  have hothers : (fun other ↦ (s.live other).erase chunk) =
      Function.update s.live id ((s.live id).erase chunk) := by
    funext other
    by_cases hother : other = id
    · rw [hother, Function.update_self]
    · rw [Function.update_of_ne hother]
      apply List.erase_of_not_mem
      intro hmem
      exact hother (hs.live_unique hmem hlive)
  unfold ObjectPool.install dropped
  simp only [Function.update_eq_self, hothers]

variable [DecidableEq ι]

/-- The invariant, and the free lists it is about. -/
def Owned (o : Instantiation) (s : ObjectPool ι) (free : ℕ → List ℕ) : Prop :=
  s.Identified ∧ s.Shared o free

omit [DecidableEq ι] in
/-- The pool of a thread that has an id is in the array. -/
theorem Owned.entry (hs : s.Owned o free) {t : ι} (hgiven : s.threadId t ≠ 0) :
    s.objectPoolArray (s.threadId t) = some (s.poolOf o t) := by
  obtain ⟨pool, hpool⟩ := Option.ne_none_iff_exists'.mp ((hs.1.named _).mpr ⟨hgiven, t, rfl⟩)
  rw [poolOf, hpool, Option.getD_some]

theorem threadId_objectPool {t u : ι} (hprovide : s.objectPool o t = .ok after)
    (hgiven : s.threadId u ≠ 0) : after.threadId u = s.threadId u := by
  unfold objectPool at hprovide
  split at hprovide
  · rw [← Except.ok.inj hprovide]
  · next hnew =>
    split at hprovide
    · rw [← Except.ok.inj hprovide]
      apply Function.update_of_ne
      intro heq
      exact hnew (heq ▸ hgiven)
    · cases hprovide

/-- What `Free` of a live chunk did: the chunk is at one end of the list of its pool, and in no client's
hands. -/
structure GivenBack (o : Instantiation) (s : ObjectPool ι) (chunk id : ℕ) (after : ObjectPool ι)
    (free : ℕ → List ℕ) (list : List ℕ) : Prop where
  owned : after.Owned o (Function.update free id list)
  list_eq : list = chunk :: free id ∨ list = free id ++ [chunk]
  live : after.live = fun other ↦ (s.live other).erase chunk
  blocks : after.heap.blocks = s.heap.blocks
  ids : ∀ u, s.threadId u ≠ 0 → after.threadId u = s.threadId u

/-- `Free` by any thread puts a live chunk on the list of the pool it was carved from. -/
theorem free_effect (hs : s.Owned o free) {t : ι} (hspace : s.HasRoom t)
    (hlive : chunk ∈ s.live id) :
    ∃ after list, s.free o t chunk = .ok after ∧ s.GivenBack o chunk id after free list := by
  obtain ⟨provided, hprovide, hp⟩ := objectPool_spec hs.1 hs.2 hspace
  rw [← hp.live] at hlive
  obtain ⟨pool, hpool, hmem⟩ := hp.shared.exists_pool hlive
  have hw := hp.shared.wellFormed id pool hpool
  have hnodup := (List.nodup_append.mp hw.nodup_append).2.1
  have hfit := room_of_unwrapped (hp.shared.room_of_mem hpool hmem)
  rw [← hp.shared.allocSize id pool hpool] at hfit
  have hload : o.loadTag provided.heap chunk = .ok id := by
    unfold Instantiation.loadTag
    rw [if_pos (sameBlock_tag hw hmem hfit), hp.shared.tagged id chunk hlive]
  have hat := hp.identified.poolAt_eq hpool
  have herased : ∀ other ∈ (provided.live id).erase chunk, other ≠ chunk →
      other ∈ provided.live id := fun other hother _ ↦ List.mem_of_mem_erase hother
  have hroom := hw.alloc_ge
  have hback {pool' : Pool} {heap : Heap} {list : List ℕ}
      (hshared : (provided.install id pool' heap ((provided.live id).erase chunk)).Shared o
        (Function.update free id list))
      (hlist : list = chunk :: free id ∨ list = free id ++ [chunk])
      (hblocks : heap.blocks = provided.heap.blocks) :
      s.GivenBack o chunk id ((provided.install id pool' heap (provided.live id)).dropped chunk) free
        list := {
    owned := by
      rw [hp.shared.install_dropped hlive]
      exact ⟨hp.identified.install hpool _ _ _, hshared⟩
    list_eq := hlist
    live := by
      unfold dropped ObjectPool.install
      simp only [Function.update_eq_self, hp.live]
    blocks := hblocks.trans (congrArg Heap.blocks hp.heap)
    ids := by
      intro u hgiven
      have hkept := threadId_objectPool hprovide hgiven
      exact hkept }
  by_cases hown : id = provided.threadId t
  · obtain ⟨hfree, hwf⟩ := hw.free_spec hlive
    have hshared := hp.shared.rewrite hpool hmem hwf rfl rfl rfl
      (fun x hx ↦ Heap.setNext_bytes_of_outside (by omega)) herased
      (fun hagain ↦ absurd hagain hnodup.not_mem_erase)
    refine ⟨_, _, ?_, hback hshared (Or.inl rfl) rfl⟩
    unfold ObjectPool.free
    simp only [hprovide, bind, Except.bind, hload, hat, if_pos hown, hfree, pure, Except.pure]
  · obtain ⟨hfree, hwf⟩ := hw.freeAppend_spec hlive
    obtain ⟨front, hfront⟩ := hw.exists_sentinel (hw.free_ne_nil hlive)
    have htail : pool.storage.tail ∈ free id := by
      rw [hfront]
      simp
    have hshared := hp.shared.rewrite hpool (hw.free_mem htail) hwf rfl rfl rfl
      (fun x hx ↦ Heap.setNext_bytes_of_outside (by omega))
      (fun other hother _ ↦ List.mem_of_mem_erase hother)
      (fun hagain ↦ absurd rfl (hw.ne_of_free_of_live htail (List.mem_of_mem_erase hagain)))
    refine ⟨_, _, ?_, hback hshared (Or.inr rfl) rfl⟩
    unfold ObjectPool.free
    simp only [hprovide, bind, Except.bind, hload, hat, if_neg hown, hfree, pure, Except.pure]

theorem free_spec (hs : s.Owned o free) {t : ι} (hspace : s.HasRoom t)
    (hlive : chunk ∈ s.live id) :
    ∃ after free', s.free o t chunk = .ok after ∧ after.Owned o free' ∧ chunk ∈ free' id := by
  obtain ⟨after, list, hfree, hback⟩ := free_effect hs hspace hlive
  refine ⟨after, _, hfree, hback.owned, ?_⟩
  rw [Function.update_self]
  rcases hback.list_eq with hlist | hlist <;> simp [hlist]

/-- What `Malloc` did: the state owns its memory, and the result was live nowhere and is live in the
pool of the thread. -/
structure Obtained (o : Instantiation) (s : ObjectPool ι) (t : ι) (result : ℕ)
    (after : ObjectPool ι) (free : ℕ → List ℕ) : Prop where
  owned : after.Owned o free
  nonnull : result ≠ 0
  notLive : ∀ id, result ∉ s.live id
  live : result ∈ after.live (after.threadId t)
  given : after.threadId t ≠ 0

omit [DecidableEq ι] in
/-- `Malloc` that took the first chunk of a list. -/
theorem obtained_pop {t : ι} {provided : ObjectPool ι}
    (hp : s.Provided o t free provided) {rest : List ℕ}
    (hfree : free (provided.threadId t) = (s.poolOf o t).storage.head :: rest)
    (hwf : ((s.poolOf o t).popped o.platform provided.heap).WellFormed o.platform provided.heap rest
      ((s.poolOf o t).storage.head :: provided.live (provided.threadId t))) :
    s.Obtained o t (s.poolOf o t).storage.head
      (provided.install (provided.threadId t) ((s.poolOf o t).popped o.platform provided.heap)
        (o.setTag provided.heap (s.poolOf o t).storage.head (provided.threadId t))
        ((s.poolOf o t).storage.head :: provided.live (provided.threadId t)))
      (Function.update free (provided.threadId t) rest) := by
  have hw := hp.shared.wellFormed _ _ hp.pool
  have hmem := hw.free_mem (show (s.poolOf o t).storage.head ∈ free (provided.threadId t) by
    simp [hfree])
  have hfit := room_of_unwrapped (hp.shared.room_of_mem hp.pool hmem)
  rw [← hp.shared.allocSize _ _ hp.pool] at hfit
  have hbytes : ∀ x, x < (s.poolOf o t).storage.head ∨
      (s.poolOf o t).storage.head + (s.poolOf o t).allocSize ≤ x →
      (o.setTag provided.heap (s.poolOf o t).storage.head (provided.threadId t)).bytes x =
        provided.heap.bytes x :=
    fun x hx ↦ Instantiation.setTag_bytes_of_outside hfit hx
  have hwf' := hwf.frame_live
    (o.setTag provided.heap (s.poolOf o t).storage.head (provided.threadId t))
    List.mem_cons_self rfl hbytes
  have hshared := hp.shared.rewrite hp.pool hmem hwf' rfl rfl rfl hbytes
    (fun other hother hne ↦ (List.mem_cons.mp hother).resolve_left hne)
    (fun _ ↦ Instantiation.tag_setTag_self _ _ (hp.identified.id_le hp.pool))
  exact {
    owned := ⟨hp.identified.install hp.pool _ _ _, hshared⟩
    nonnull := Nat.ne_of_gt (hw.chunk_lt hmem).1
    notLive := by
      intro id hlive
      rw [← hp.live] at hlive
      obtain ⟨pool, hpool, hmem'⟩ := hp.shared.exists_pool hlive
      have hsame := hp.shared.pool_unique hpool hp.pool hmem' hmem
      rw [hsame] at hlive
      exact hw.ne_of_free_of_live (by simp [hfree]) hlive rfl
    live := by simp [install]
    given := hp.given }

/-- The new block has room for its header and the chunk handed out. -/
theorem first_le_requestSize {p : Platform} {heap : Heap} {pool : Pool} {ptr j : ℕ}
    {free live : List ℕ} (hwf : (pool.grown p ptr j).WellFormed p heap free live) :
    p.ptrSize + pool.allocSize ≤ pool.requestSize p := by
  obtain ⟨⟨i, hi⟩, -⟩ := hwf.carved ⟨ptr, pool.requestSize p⟩ List.mem_cons_self
  change pool.requestSize p = p.ptrSize + (i + 2) * pool.allocSize at hi
  have hmul := Nat.le_mul_of_pos_left pool.allocSize (show 0 < i + 2 by omega)
  omega

omit [DecidableEq ι] in
/-- `Malloc` that grew the pool. -/
theorem obtained_grow {t : ι} {provided : ObjectPool ι}
    (hp : s.Provided o t free provided) {ptr j : ℕ} {grown : Heap} (hptr : ptr ≠ 0)
    (hfresh : provided.heap.Fresh o.platform ptr ((s.poolOf o t).requestSize o.platform))
    (hafter : Pool.GrownHeap o.platform provided.heap (s.poolOf o t) ptr j grown)
    (hwf : ((s.poolOf o t).grown o.platform ptr j).WellFormed o.platform grown
      ((s.poolOf o t).newChunks o.platform ptr j ++ free (provided.threadId t))
      ((ptr + o.platform.ptrSize) :: provided.live (provided.threadId t)))
    (hsame : grown.SameBlock (ptr + o.platform.ptrSize)
      (ptr + o.platform.ptrSize + o.requestedSize) 2) :
    s.Obtained o t (ptr + o.platform.ptrSize)
      (provided.install (provided.threadId t) ((s.poolOf o t).grown o.platform ptr j)
        (o.setTag grown (ptr + o.platform.ptrSize) (provided.threadId t))
        ((ptr + o.platform.ptrSize) :: provided.live (provided.threadId t)))
      (Function.update free (provided.threadId t)
        ((s.poolOf o t).newChunks o.platform ptr j ++ free (provided.threadId t))) := by
  have hw := hp.shared.wellFormed _ _ hp.pool
  have hroom : o.requestedSize + 2 < 2 ^ 32 := by
    rcases hp.shared.unused _ _ hp.pool with hnew | hroom
    · rw [hnew] at hfresh hafter
      exact Instantiation.room_of_first_growth hfresh hafter hsame
    · exact hroom
  have hfit := room_of_unwrapped hroom
  rw [← hp.shared.allocSize _ _ hp.pool] at hfit
  obtain ⟨-, -, hapart⟩ := hfresh
  have hspan := first_le_requestSize hwf
  have hbytes : ∀ x, x < ptr + o.platform.ptrSize ∨
      ptr + o.platform.ptrSize + (s.poolOf o t).allocSize ≤ x →
      (o.setTag grown (ptr + o.platform.ptrSize) (provided.threadId t)).bytes x = grown.bytes x :=
    fun x hx ↦ Instantiation.setTag_bytes_of_outside hfit hx
  have houtside : ∀ x, x < ptr ∨ ptr + (s.poolOf o t).requestSize o.platform ≤ x →
      (o.setTag grown (ptr + o.platform.ptrSize) (provided.threadId t)).bytes x =
        provided.heap.bytes x := by
    intro x hx
    rw [hbytes x (by omega)]
    exact hafter.bytes x hx
  have hwf' := hwf.frame_live
    (o.setTag grown (ptr + o.platform.ptrSize) (provided.threadId t)) List.mem_cons_self rfl hbytes
  have hshared := hp.shared.install hp.pool hwf' rfl hroom
    (by
      intro c hc
      change c ∈ grown.blocks
      rw [hafter.blocks]
      exact List.mem_cons_of_mem _ hc)
    (by
      intro c hc
      rcases List.mem_cons.mp hc with hnew | hold
      · rw [hnew]
        exact Or.inr hapart
      · exact Or.inl hold)
    (by
      intro x hx
      exact houtside x (hx _ List.mem_cons_self))
    (by
      intro other hother
      rcases List.mem_cons.mp hother with hnew | hold
      · rw [hnew]
        exact Instantiation.tag_setTag_self _ _ (hp.identified.id_le hp.pool)
      · apply Eq.trans _ (hp.shared.tagged _ other hold)
        obtain ⟨c, hc, hlow', hhigh'⟩ := hw.chunk_bounds (hw.live_mem hold)
        have hdisjoint := hapart c (hw.owned c hc)
        unfold Block.Apart Foundation.Apart at hdisjoint
        simp only at hdisjoint
        apply ByteMemory.load_congr
        intro x hx hx'
        exact houtside x (by omega))
  exact {
    owned := ⟨hp.identified.install hp.pool _ _ _, hshared⟩
    nonnull := by omega
    notLive := by
      intro id hlive
      rw [← hp.live] at hlive
      obtain ⟨pool, hpool, hmem'⟩ := hp.shared.exists_pool hlive
      have hw' := hp.shared.wellFormed id pool hpool
      obtain ⟨c, hc, hlow', hhigh'⟩ := hw'.chunk_bounds hmem'
      have hdisjoint := hapart c (hw'.owned c hc)
      have hpos := hw'.alloc_pos
      have hpos' := hw.alloc_pos
      unfold Block.Apart Foundation.Apart at hdisjoint
      simp only at hdisjoint
      omega
    live := by simp [install]
    given := hp.given }

/-- The two ways in which `Malloc` succeeds: it takes the first chunk of the list, or the first one of
a new block. -/
inductive MallocEffect (o : Instantiation) (s : ObjectPool ι) (t : ι) (answer : Answer) (result : ℕ)
    (after : ObjectPool ι) (free : ℕ → List ℕ) : Prop
  | pop {rest : List ℕ}
      (hne : (s.poolOf o t).storage.head ≠ (s.poolOf o t).storage.tail)
      (hfree : free (after.threadId t) = result :: rest)
      (hobtained : s.Obtained o t result after (Function.update free (after.threadId t) rest))
      (hblocks : after.heap.blocks = s.heap.blocks)
      (hpool : after.poolOf o t = (s.poolOf o t).popped o.platform s.heap)
  | grow {j : ℕ} (hempty : (s.poolOf o t).storage.head = (s.poolOf o t).storage.tail)
      (haddr : answer.addr ≠ 0) (hresult : result = answer.addr + o.platform.ptrSize)
      (hobtained : s.Obtained o t result after (Function.update free (after.threadId t)
        ((s.poolOf o t).newChunks o.platform answer.addr j ++ free (after.threadId t))))
      (hpool : after.poolOf o t = (s.poolOf o t).grown o.platform answer.addr j)

theorem malloc_effect (hs : s.Owned o free) {t : ι} (hspace : s.HasRoom t)
    {answer : Answer} (hfresh : s.FreshFor o t answer) {result : ℕ}
    (hmalloc : s.malloc o t answer = .ok (result, after)) :
    s.MallocEffect o t answer result after free := by
  obtain ⟨provided, hprovide, hp⟩ := objectPool_spec hs.1 hs.2 hspace
  have hw := hp.shared.wellFormed _ _ hp.pool
  have hblocks : provided.heap.blocks = s.heap.blocks := congrArg Heap.blocks hp.heap
  rw [FreshFor, ← hp.heap] at hfresh
  have hout := hw.malloc_outcome answer hfresh
  unfold malloc at hmalloc
  simp only [hprovide, bind, Except.bind, hp.identified.poolAt_eq hp.pool] at hmalloc
  cases hresult : (s.poolOf o t).malloc o.platform provided.heap answer with
  | error fault => simp [hresult] at hmalloc
  | ok value =>
    rw [hresult] at hout hmalloc
    simp only [pure, Except.pure] at hmalloc
    cases htag : o.storeTag value.2.1 value.1 (provided.threadId t) with
    | error fault => simp [htag] at hmalloc
    | ok heap =>
      obtain ⟨hnonnull, hsame, rfl⟩ := Instantiation.storeTag_eq_ok_iff.mp htag
      simp only [htag, Except.ok.injEq, Prod.mk.injEq] at hmalloc
      obtain ⟨rfl, rfl⟩ := hmalloc
      cases hout with
      | pop hne hfree hwf =>
        exact .pop hne hfree (obtained_pop hp hfree hwf) hblocks (by simp [poolOf, install, hp.heap])
      | outOfMemory hempty hnull => exact absurd rfl hnonnull
      | grow hempty haddr hafter hwf =>
        refine .grow hempty haddr rfl
          (obtained_grow hp haddr (hfresh hempty haddr) hafter hwf hsame) ?_
        simp [poolOf, install]

theorem malloc_spec (hs : s.Owned o free) {t : ι} (hspace : s.HasRoom t)
    {answer : Answer} (hfresh : s.FreshFor o t answer) {result : ℕ}
    (hmalloc : s.malloc o t answer = .ok (result, after)) :
    ∃ free', s.Obtained o t result after free' := by
  cases malloc_effect hs hspace hfresh hmalloc with
  | pop hne hfree hobtained hblocks hpool => exact ⟨_, hobtained⟩
  | grow hempty haddr hresult hobtained hpool => exact ⟨_, hobtained⟩

theorem live_objectPool {t : ι} (hprovide : s.objectPool o t = .ok after) :
    after.live = s.live := by
  unfold objectPool at hprovide
  split at hprovide
  · rw [← Except.ok.inj hprovide]
  · split at hprovide
    · rw [← Except.ok.inj hprovide]
    · cases hprovide

/-- The stages of a `Malloc` that has a result. -/
theorem stages_of_malloc {t : ι} {answer : Answer} {result : ℕ}
    (hmalloc : s.malloc o t answer = .ok (result, after)) :
    ∃ provided pool heap tagged pool', s.objectPool o t = .ok provided ∧
      provided.poolAt (provided.threadId t) = .ok pool ∧
      pool.malloc o.platform provided.heap answer = .ok (result, heap, pool') ∧
      after = provided.install (provided.threadId t) pool' tagged
        (result :: provided.live (provided.threadId t)) := by
  obtain ⟨provided, hprovide, hmalloc⟩ := exists_ok_of_bind hmalloc
  obtain ⟨pool, hpool, hmalloc⟩ := exists_ok_of_bind hmalloc
  obtain ⟨⟨ret, heap, pool'⟩, hpop, hmalloc⟩ := exists_ok_of_bind hmalloc
  obtain ⟨tagged, -, hmalloc⟩ := exists_ok_of_bind hmalloc
  obtain ⟨rfl, rfl⟩ := Prod.mk.inj (Except.ok.inj hmalloc)
  exact ⟨provided, pool, heap, tagged, pool', hprovide, hpool, hpop, rfl⟩

/-- The chunk that `Malloc` returned is live in the pool of the thread. -/
theorem live_malloc {t : ι} {answer : Answer} {result : ℕ}
    (hmalloc : s.malloc o t answer = .ok (result, after)) : after.live =
      Function.update s.live (after.threadId t) (result :: s.live (after.threadId t)) := by
  obtain ⟨provided, -, -, -, -, hprovide, -, -, rfl⟩ := stages_of_malloc hmalloc
  rw [← live_objectPool hprovide]
  rfl

theorem threadId_malloc {t u : ι} {answer : Answer} {result : ℕ}
    (hmalloc : s.malloc o t answer = .ok (result, after)) (hgiven : s.threadId u ≠ 0) :
    after.threadId u = s.threadId u := by
  obtain ⟨provided, -, -, -, -, hprovide, -, -, rfl⟩ := stages_of_malloc hmalloc
  rw [← threadId_objectPool hprovide hgiven]
  rfl

/-- `Malloc` has a result unless a growth is refused or its size wraps. -/
theorem malloc_succeeds (hs : s.Owned o free) {t : ι} (hspace : s.HasRoom t)
    {answer : Answer} (hfresh : s.FreshFor o t answer) (hroom : o.requestedSize + 2 < 2 ^ 32)
    (hgrant : (s.poolOf o t).storage.head = (s.poolOf o t).storage.tail →
      answer.addr ≠ 0 ∧ (s.poolOf o t).Fits o.platform) :
    ∃ result after, s.malloc o t answer = .ok (result, after) := by
  obtain ⟨provided, hprovide, hp⟩ := objectPool_spec hs.1 hs.2 hspace
  have hw := hp.shared.wellFormed _ _ hp.pool
  have hfit := room_of_unwrapped hroom
  rw [← hp.shared.allocSize _ _ hp.pool] at hfit
  rw [FreshFor, ← hp.heap] at hfresh
  have hout := hw.malloc_outcome answer hfresh
  unfold malloc
  simp only [hprovide, bind, Except.bind, hp.identified.poolAt_eq hp.pool]
  generalize (s.poolOf o t).malloc o.platform provided.heap answer = outcome at hout ⊢
  cases hout with
  | outOfMemory hempty hnull => exact absurd hnull (hgrant hempty).1
  | overflow hempty haddr hwrap => exact absurd (hgrant hempty).2 hwrap
  | pop hne hfree hwf =>
    have hmem := hwf.live_mem List.mem_cons_self
    have hstore := storeTag_eq_ok hwf hmem hfit (provided.threadId t)
    exact ⟨_, _, by simp only [hstore]; rfl⟩
  | grow hempty haddr hafter hwf =>
    have hmem := hwf.live_mem List.mem_cons_self
    have hstore := storeTag_eq_ok hwf hmem hfit (provided.threadId t)
    exact ⟨_, _, by simp only [hstore]; rfl⟩

omit [DecidableEq ι] in
theorem Owned.overwrite (hs : s.Owned o free) (hlive : chunk ∈ s.live id) {offset : ℕ}
    {data : List UInt8} (hoffset : offset + data.length ≤ o.requestedSize) :
    (s.overwrite (chunk + offset) data).Owned o free :=
  ⟨⟨hs.1.injective, hs.1.le_counter, hs.1.onto, hs.1.bounded, hs.1.named⟩, hs.2.overwrite hlive hoffset⟩

/-- A chunk that a constructor rejects goes back to its pool; otherwise `Construct` is `Malloc`. -/
theorem construct_spec (hs : s.Owned o free) {t : ι} (hspace : s.HasRoom t)
    {answer : Answer} (hfresh : s.FreshFor o t answer) {offset : ℕ} {data : List UInt8}
    (hoffset : offset + data.length ≤ o.sizeofT) {throws : Bool} {result : ℕ}
    (hconstruct : s.construct o t answer offset data throws = .ok (result, after)) :
    (∃ free', after.Owned o free') ∧ (result ≠ 0 → ∀ id, result ∉ s.live id) := by
  unfold construct at hconstruct
  cases hmalloc : s.malloc o t answer with
  | error fault => simp [hmalloc, bind, Except.bind] at hconstruct
  | ok value =>
    obtain ⟨free', hobtained⟩ := malloc_spec hs hspace hfresh hmalloc
    have hwrite := hobtained.owned.overwrite hobtained.live (hoffset.trans o.fits)
    simp only [hmalloc, bind, Except.bind] at hconstruct
    cases throws with
    | false =>
      simp only [Bool.false_eq_true, if_false, pure, Except.pure, Except.ok.injEq,
        Prod.mk.injEq] at hconstruct
      obtain ⟨rfl, rfl⟩ := hconstruct
      exact ⟨⟨free', hwrite⟩, fun _ ↦ hobtained.notLive⟩
    | true =>
      obtain ⟨last, free'', hfree, howned, -⟩ :=
        free_spec hwrite (Or.inl hobtained.given) hobtained.live
      simp only [if_true, hfree, pure, Except.pure, Except.ok.injEq, Prod.mk.injEq] at hconstruct
      obtain ⟨rfl, rfl⟩ := hconstruct
      exact ⟨⟨free'', howned⟩, fun hne ↦ absurd rfl hne⟩

end ObjectPool

/-- The thread that makes the call, if it goes through `object_pool()`. -/
def ObjectPoolCall.caller {ι : Type} : ObjectPoolCall ι → Option ι
  | .malloc t _ | .construct t _ _ _ _ | .free t _ | .destroy t _ _ _ => some t
  | .overwrite _ _ _ => none

/-- The chunk a call gives back. -/
def ObjectPoolCall.freed {ι : Type} : ObjectPoolCall ι → Option ℕ
  | .free _ chunk | .destroy _ chunk _ _ => some chunk
  | .malloc _ _ | .construct _ _ _ _ _ | .overwrite _ _ _ => none

namespace ObjectPool

variable {ι : Type} [DecidableEq ι] {o : Instantiation} {s after : ObjectPool ι}
  {free : ℕ → List ℕ} {id chunk : ℕ}

/-- Giving a live chunk back always succeeds, and the chunk ends up on the list of its pool. -/
theorem freed_spec (hs : s.Owned o free) {call : ObjectPoolCall ι}
    (hspace : ∀ t, call.caller = some t → s.HasRoom t) (hallowed : s.Allowed o call)
    (hfreed : call.freed = some chunk) (hlive : chunk ∈ s.live id) :
    ∃ after free', s.perform o call = .ok (0, after) ∧ after.Owned o free' ∧ chunk ∈ free' id := by
  cases call with
  | free t other =>
    obtain rfl : other = chunk := Option.some.inj hfreed
    obtain ⟨last, free', hfree, howned, hmem⟩ := free_spec hs (hspace t rfl) hlive
    exact ⟨last, free', by simp only [perform, hfree]; rfl, howned, hmem⟩
  | destroy t other offset data =>
    obtain rfl : other = chunk := Option.some.inj hfreed
    have hwrite := hs.overwrite hlive (hallowed.2.trans o.fits)
    obtain ⟨last, free', hfree, howned, hmem⟩ := free_spec hwrite (hspace t rfl) hlive
    exact ⟨last, free', by simp only [perform, destroy, hfree]; rfl, howned, hmem⟩
  | malloc | construct | overwrite => cases hfreed

/-- Every call keeps the invariant, and returns no chunk that is live. -/
theorem perform_spec (hs : s.Owned o free) {call : ObjectPoolCall ι}
    (hspace : ∀ t, call.caller = some t → s.HasRoom t) (hallowed : s.Allowed o call) {result : ℕ}
    (hperform : s.perform o call = .ok (result, after)) :
    (∃ free', after.Owned o free') ∧ (result ≠ 0 → ∀ id, result ∉ s.live id) := by
  cases call with
  | malloc t answer =>
    obtain ⟨free', hobtained⟩ := malloc_spec hs (hspace t rfl) hallowed hperform
    exact ⟨⟨free', hobtained.owned⟩, fun _ ↦ hobtained.notLive⟩
  | construct t answer offset data throws =>
    exact construct_spec hs (hspace t rfl) hallowed.1 hallowed.2 hperform
  | free t other =>
    have hsome : s.Live other := hallowed
    obtain ⟨id, hlive⟩ := hsome
    obtain ⟨last, free', hfree, howned, -⟩ := freed_spec hs hspace hallowed rfl hlive
    rw [hfree, Except.ok.injEq, Prod.mk.injEq] at hperform
    obtain ⟨rfl, rfl⟩ := hperform
    exact ⟨⟨free', howned⟩, fun hne ↦ absurd rfl hne⟩
  | destroy t other offset data =>
    obtain ⟨id, hlive⟩ := hallowed.1
    obtain ⟨last, free', hfree, howned, -⟩ := freed_spec hs hspace hallowed rfl hlive
    rw [hfree, Except.ok.injEq, Prod.mk.injEq] at hperform
    obtain ⟨rfl, rfl⟩ := hperform
    exact ⟨⟨free', howned⟩, fun hne ↦ absurd rfl hne⟩
  | overwrite other offset data =>
    obtain ⟨⟨id, hlive⟩, hoffset⟩ := hallowed
    simp only [perform, Except.ok.injEq, Prod.mk.injEq] at hperform
    obtain ⟨rfl, rfl⟩ := hperform
    exact ⟨⟨free, hs.overwrite hlive hoffset⟩, fun hne ↦ absurd rfl hne⟩

/-- A thread without an id runs over the end of the array once all ids are given out. -/
theorem objectPool_eq_error {t : ι} (hfull : ¬ s.HasRoom t) :
    s.objectPool o t = .error (.badIndex (s.threadIdCounter + 1)) := by
  unfold HasRoom at hfull
  unfold objectPool
  rw [if_neg (by omega), if_neg (by omega)]

/-- So does every call of such a thread. -/
theorem perform_eq_error {call : ObjectPoolCall ι} {t : ι} (hcaller : call.caller = some t)
    (hfull : ¬ s.HasRoom t) :
    s.perform o call = .error (.badIndex (s.threadIdCounter + 1)) := by
  cases call with
  | malloc u answer =>
    obtain rfl : u = t := Option.some.inj hcaller
    simp only [perform, malloc, objectPool_eq_error hfull]
    rfl
  | construct u answer offset data throws =>
    obtain rfl : u = t := Option.some.inj hcaller
    simp only [perform, construct, malloc, objectPool_eq_error hfull]
    rfl
  | free u chunk =>
    obtain rfl : u = t := Option.some.inj hcaller
    simp only [perform, ObjectPool.free, objectPool_eq_error hfull]
    rfl
  | destroy u chunk offset data =>
    obtain rfl : u = t := Option.some.inj hcaller
    have hfull' : ¬ (s.overwrite (chunk + offset) data).HasRoom u := hfull
    simp only [perform, destroy, ObjectPool.free, objectPool_eq_error hfull']
    rfl
  | overwrite => cases hcaller

/-- A call that does not fail has found or created the pool of its thread. -/
theorem hasRoom_of_perform {call : ObjectPoolCall ι} {result : ℕ}
    (hperform : s.perform o call = .ok (result, after)) (t : ι) (hcaller : call.caller = some t) :
    s.HasRoom t := by
  by_contra hfull
  rw [perform_eq_error hcaller hfull] at hperform
  cases hperform

theorem owned_of_run {history : List (ObjectPool ι × ObjectPoolCall ι)}
    (hrun : (system ι o).Run history s) : ∃ free, s.Owned o free := by
  have hreach : (system ι o).Reachable s := ⟨history, hrun⟩
  apply hreach.invariant fun s ↦ ∃ free, s.Owned o free
  · intro start hstart
    obtain ⟨heap, rfl⟩ := hstart
    exact ⟨_, identified_initial heap, shared_initial heap⟩
  · intro state call next hstate hstep
    obtain ⟨free, howned⟩ := hstate
    obtain ⟨hallowed, result, hperform⟩ := hstep
    exact (perform_spec howned (hasRoom_of_perform hperform) hallowed hperform).1

/-! ## Ownership -/

end ObjectPool

namespace ObjectPool

variable {ι : Type} [Fintype ι] [DecidableEq ι] {o : Instantiation} {s after : ObjectPool ι}
  {free : ℕ → List ℕ} {id chunk : ℕ}

/-- Who owns what, with `free id` the chunks on the list of the pool at index `id`. -/
structure Ownership (o : Instantiation) (s : ObjectPool ι) (free : ℕ → List ℕ) : Prop where
  lists : ∀ id pool, s.objectPoolArray id = some pool →
    pool.FreeList o.platform s.heap (free id)
  noList : ∀ id, s.objectPoolArray id = none → free id = []
  /-- The tag of a live chunk is the id of one thread, whose pool carved the chunk. -/
  tagged : ∀ id, ∀ chunk ∈ s.live id, ∃ t pool, s.threadId t = o.tag s.heap chunk ∧
    (∀ other, s.threadId other = o.tag s.heap chunk → other = t) ∧
    s.objectPoolArray (o.tag s.heap chunk) = some pool ∧ chunk ∈ pool.chunks o.platform
  /-- No chunk is lost. -/
  complete : ∀ id pool, s.objectPoolArray id = some pool →
    ∀ chunk, chunk ∈ pool.chunks o.platform ↔ chunk ∈ free id ∨ chunk ∈ s.live id
  oneList : ∀ id other chunk, chunk ∈ free id → chunk ∈ free other → id = other
  notBoth : ∀ id other chunk, chunk ∈ free id → chunk ∉ s.live other

omit [Fintype ι] [DecidableEq ι] in
theorem Owned.ownership (hs : s.Owned o free) : s.Ownership o free := by
  obtain ⟨hid, hs⟩ := hs
  have hfree (id chunk : ℕ) (hmem : chunk ∈ free id) :
      ∃ pool, s.objectPoolArray id = some pool ∧ chunk ∈ pool.chunks o.platform := by
    cases hpool : s.objectPoolArray id with
    | none => simp [(hs.absent id hpool).1] at hmem
    | some pool => exact ⟨pool, rfl, (hs.wellFormed id pool hpool).free_mem hmem⟩
  exact {
    lists := fun id pool hpool ↦ (hs.wellFormed id pool hpool).freeList
    noList := fun id hnone ↦ (hs.absent id hnone).1
    tagged := by
      intro id chunk hlive
      obtain ⟨pool, hpool, hmem⟩ := hs.exists_pool hlive
      obtain ⟨hne, t, ht⟩ := (hid.named id).mp (by simp [hpool])
      rw [hs.tagged id chunk hlive]
      refine ⟨t, pool, ht, ?_, hpool, hmem⟩
      intro other hother
      exact hid.injective other t (by rwa [hother]) (hother.trans ht.symm)
    complete := by
      intro id pool hpool chunk
      rw [← (hs.wellFormed id pool hpool).partition.mem_iff, List.mem_append]
    oneList := by
      intro id other chunk hmem hmem'
      obtain ⟨pool, hpool, hchunk⟩ := hfree id chunk hmem
      obtain ⟨otherPool, hother, hchunk'⟩ := hfree other chunk hmem'
      exact hs.pool_unique hpool hother hchunk hchunk'
    notBoth := by
      intro id other chunk hmem hlive
      obtain ⟨pool, hpool, hchunk⟩ := hfree id chunk hmem
      obtain ⟨otherPool, hother, hchunk'⟩ := hs.exists_pool hlive
      have hsame := hs.pool_unique hpool hother hchunk hchunk'
      rw [← hsame] at hlive
      exact (hs.wellFormed id pool hpool).ne_of_free_of_live hmem hlive rfl }

/-- **Ownership across threads.** At most 64 threads call `Malloc`, `Construct`, `Free` and `Destroy`
in any order, any thread freeing any live chunk. In every state reached the tags name the threads
whose pools carved the chunks and every carved chunk is on one list or in one client's hands; giving
a live chunk back succeeds and puts it on the list of the pool that carved it; and no call returns
a chunk that is live. -/
theorem ownership_of_run (hcard : Fintype.card ι ≤ maxThreadNum)
    {history : List (ObjectPool ι × ObjectPoolCall ι)} (hrun : (system ι o).Run history s) :
    ∃ free, s.Ownership o free ∧ ∀ call, s.Allowed o call →
      (∀ chunk id, call.freed = some chunk → chunk ∈ s.live id →
        ∃ after free', s.perform o call = .ok (0, after) ∧ after.Ownership o free' ∧
          chunk ∈ free' id) ∧
      ∀ result after, s.perform o call = .ok (result, after) → result ≠ 0 →
        ∀ id, result ∉ s.live id := by
  obtain ⟨free, howned⟩ := owned_of_run hrun
  refine ⟨free, howned.ownership, ?_⟩
  intro call hallowed
  have hspace (t : ι) (_ : call.caller = some t) := howned.1.hasRoom hcard t
  constructor
  · intro chunk id hfreed hlive
    obtain ⟨after, free', hperform, hafter, hmem⟩ := freed_spec howned hspace hallowed hfreed hlive
    exact ⟨after, free', hperform, hafter.ownership, hmem⟩
  · intro result after hperform
    exact (perform_spec howned hspace hallowed hperform).2

/-- Pools of 6-byte objects: a tag fits into a chunk of the size of a pointer. -/
def small : Instantiation := ⟨.x64, 6, 6, le_rfl, by decide⟩

/-- The main theorem applied to one thread that takes a chunk and another one that frees it. -/
theorem ownership_of_run_remote :
    ∃ (middle : ObjectPool (Fin 2)) (result : ℕ) (s : ObjectPool (Fin 2)) (free : ℕ → List ℕ),
      (system (Fin 2) small).Run
        [(middle, .free 1 result), (initial (Fin 2) ⟨fun _ ↦ 0, []⟩, .malloc 0 ⟨4096, fun _ ↦ 0⟩)]
        s ∧ s.Ownership small free := by
  have hcard : Fintype.card (Fin 2) ≤ maxThreadNum := by decide
  have howned : (initial (Fin 2) ⟨fun _ ↦ 0, []⟩).Owned small fun _ ↦ [] :=
    ⟨identified_initial _, shared_initial _⟩
  have hfresh : (initial (Fin 2) ⟨fun _ ↦ 0, []⟩).FreshFor small 0 ⟨4096, fun _ ↦ 0⟩ := by
    intro _ _
    decide
  have hfits : ((initial (Fin 2) ⟨fun _ ↦ 0, []⟩).poolOf small 0).Fits small.platform := by
    unfold Pool.Fits
    decide
  obtain ⟨result, middle, hmalloc⟩ :=
    malloc_succeeds howned (howned.1.hasRoom hcard 0) hfresh (by decide) fun _ ↦ ⟨by decide, hfits⟩
  obtain ⟨free, hobtained⟩ := malloc_spec howned (howned.1.hasRoom hcard 0) hfresh hmalloc
  have hallowed : middle.Allowed small (.free 1 result) := ⟨_, hobtained.live⟩
  obtain ⟨s, free', hfree, -, -⟩ := freed_spec hobtained.owned
    (fun t _ ↦ hobtained.owned.1.hasRoom hcard t) hallowed rfl hobtained.live
  have hfirst : (system (Fin 2) small).step (initial (Fin 2) ⟨fun _ ↦ 0, []⟩)
      (.malloc 0 ⟨4096, fun _ ↦ 0⟩) middle := ⟨hfresh, result, hmalloc⟩
  have hsecond : (system (Fin 2) small).step middle (.free 1 result) s := ⟨hallowed, 0, hfree⟩
  have hstart : (system (Fin 2) small).Run [] (initial (Fin 2) ⟨fun _ ↦ 0, []⟩) := .start ⟨_, rfl⟩
  have hrun := (hstart.next hfirst).next hsecond
  obtain ⟨last, hownership, -⟩ := ownership_of_run hcard hrun
  exact ⟨middle, result, s, last, hrun, hownership⟩

end ObjectPool

end ServerCore.MemoryPool
