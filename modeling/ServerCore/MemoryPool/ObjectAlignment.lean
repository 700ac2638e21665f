import ServerCore.MemoryPool.GrowthLaws
import ServerCore.MemoryPool.Preallocate

/-!
# Where the objects of a pool lie

`ObjectPool` asks its `Pool` for chunks of `RequestedSize + 2` bytes, the two for the thread id, and the
chunks of a block lie one behind the other behind its header. `::malloc` aligns blocks to
`sizeof(void*)` at least. The first object of a block is therefore aligned like a pointer, and the next
one lies the size of a chunk further on.

The theorem says for which instantiations all objects are aligned to a divisor `a` of `sizeof(void*)`:
those whose chunk size is a multiple of `a`, and those so large that no chunk can ever be carved.
-/

namespace ServerCore.MemoryPool

open Foundation

namespace ObjectPool

variable {ι : Type} [DecidableEq ι] {o : Instantiation} {s after : ObjectPool ι}
  {free : ℕ → List ℕ} {t : ι} {n a : ℕ} {answer : Answer} {result : ℕ}

/-- `::malloc` answers this call with blocks aligned like pointers. -/
def AlignedAnswers (o : Instantiation) (_ : ObjectPool ι) : ServiceCall ι → Prop
  | .call (.malloc _ answer) | .call (.construct _ answer _ _ _) =>
      o.platform.ptrSize ∣ answer.addr
  | .call (.free _ _) | .call (.destroy _ _ _ _) | .call (.overwrite _ _ _) => True
  | .preallocate _ _ _ answers => ∀ i, o.platform.ptrSize ∣ (answers i).addr

/-- Whatever has happened before, a call that returns an object returns one at a multiple of `a`. -/
def ResultsAligned (ι : Type) [DecidableEq ι] (o : Instantiation) (a : ℕ) : Prop :=
  ∀ history s, (service ι o).Run history s → System.Obeys (AlignedAnswers o) history →
    ∀ call, s.Allowed o call → s.AlignedAnswers o (.call call) →
      ∀ result after, s.perform o call = .ok (result, after) → result ≠ 0 → a ∣ result

/-- The blocks of all pools are aligned like pointers. -/
def BasesAligned (o : Instantiation) (s : ObjectPool ι) : Prop :=
  ∀ id pool, s.objectPoolArray id = some pool → ∀ b ∈ pool.blocks, o.platform.ptrSize ∣ b.base

/-! ## The blocks stay aligned -/

omit [DecidableEq ι] in
theorem BasesAligned.install (hs : s.BasesAligned o) {id : ℕ} {pool : Pool}
    (hpool : ∀ b ∈ pool.blocks, o.platform.ptrSize ∣ b.base) (heap : Heap) (chunks : List ℕ) :
    (s.install id pool heap chunks).BasesAligned o := by
  intro other otherPool hother
  by_cases hown : other = id
  · simp only [ObjectPool.install, hown, Function.update_self, Option.some.injEq] at hother
    exact hother ▸ hpool
  · simp only [ObjectPool.install, Function.update_of_ne hown] at hother
    exact hs other otherPool hother

theorem basesAligned_objectPool (hs : s.BasesAligned o) (hprovide : s.objectPool o t = .ok after) :
    after.BasesAligned o := by
  unfold objectPool at hprovide
  split at hprovide
  · exact Except.ok.inj hprovide ▸ hs
  · split at hprovide
    · rw [← Except.ok.inj hprovide]
      intro id pool hpool
      by_cases hnew : id = s.threadIdCounter + 1
      · simp only [hnew, Function.update_self, Option.some.injEq] at hpool
        simp [← hpool, Instantiation.newPool, Pool.construct]
      · simp only [Function.update_of_ne hnew] at hpool
        exact hs id pool hpool
    · cases hprovide

omit [DecidableEq ι] in
theorem BasesAligned.poolAt (hs : s.BasesAligned o) {id : ℕ} {pool : Pool}
    (hpool : s.poolAt id = .ok pool) : ∀ b ∈ pool.blocks, o.platform.ptrSize ∣ b.base := by
  unfold ObjectPool.poolAt at hpool
  split at hpool
  · cases hpool
  · split at hpool
    · cases hpool
    · next found =>
      exact hs id pool (by rw [found, Except.ok.inj hpool])

/-- A growth adds the block that `::malloc` answered with. -/
theorem blocks_poolMalloc {p : Platform} {h heap : Heap} {pool pool' : Pool}
    (hmalloc : pool.malloc p h answer = .ok (result, heap, pool')) :
    ∀ b ∈ pool'.blocks, b ∈ pool.blocks ∨ b.base = answer.addr := by
  unfold Pool.malloc at hmalloc
  split at hmalloc
  · obtain ⟨storage, -, hmalloc⟩ := exists_ok_of_bind hmalloc
    simp only [pure, Except.pure, Except.ok.injEq, Prod.mk.injEq] at hmalloc
    rw [← hmalloc.2.2]
    exact fun b hb ↦ Or.inl hb
  · unfold Pool.resizeAndMalloc at hmalloc
    dsimp only at hmalloc
    split at hmalloc
    · simp only [pure, Except.pure, Except.ok.injEq, Prod.mk.injEq] at hmalloc
      rw [← hmalloc.2.2]
      exact fun b hb ↦ Or.inl hb
    · obtain ⟨carved, -, hmalloc⟩ := exists_ok_of_bind hmalloc
      obtain ⟨linked, -, hmalloc⟩ := exists_ok_of_bind hmalloc
      obtain ⟨taken, -, hmalloc⟩ := exists_ok_of_bind hmalloc
      simp only [pure, Except.pure, Except.ok.injEq, Prod.mk.injEq] at hmalloc
      rw [← hmalloc.2.2]
      intro b hb
      rcases List.mem_cons.mp hb with rfl | hold
      · exact Or.inr rfl
      · exact Or.inl hold

theorem basesAligned_malloc (hs : s.BasesAligned o) (hanswer : o.platform.ptrSize ∣ answer.addr)
    (hmalloc : s.malloc o t answer = .ok (result, after)) : after.BasesAligned o := by
  obtain ⟨provided, pool, heap, tagged, pool', hprovide, hpool, hpop, rfl⟩ := stages_of_malloc hmalloc
  have hprovided := basesAligned_objectPool hs hprovide
  apply hprovided.install
  intro b hb
  rcases blocks_poolMalloc hpop b hb with hold | hnew
  · exact hprovided.poolAt hpool b hold
  · rwa [hnew]

theorem basesAligned_free (hs : s.BasesAligned o) {chunk : ℕ}
    (hfree : s.free o t chunk = .ok after) : after.BasesAligned o := by
  obtain ⟨provided, hprovide, hfree⟩ := exists_ok_of_bind hfree
  obtain ⟨id, -, hfree⟩ := exists_ok_of_bind hfree
  obtain ⟨pool, hpool, hfree⟩ := exists_ok_of_bind hfree
  have hprovided := basesAligned_objectPool hs hprovide
  have hlast {heap : Heap} {pool' : Pool} (hblocks : pool'.blocks = pool.blocks) :
      ((provided.install id pool' heap (provided.live id)).dropped chunk).BasesAligned o := by
    have hinstalled : (provided.install id pool' heap (provided.live id)).BasesAligned o := by
      apply hprovided.install
      rw [hblocks]
      exact hprovided.poolAt hpool
    exact hinstalled
  dsimp only at hfree
  split at hfree
  · obtain ⟨⟨heap, pool'⟩, hback, hfree⟩ := exists_ok_of_bind hfree
    obtain ⟨storage, -, hback⟩ := exists_ok_of_bind hback
    rw [← Except.ok.inj hfree]
    apply hlast
    rw [← (Prod.mk.inj (Except.ok.inj hback)).2]
  · obtain ⟨⟨heap, pool'⟩, hback, hfree⟩ := exists_ok_of_bind hfree
    obtain ⟨storage, -, hback⟩ := exists_ok_of_bind hback
    rw [← Except.ok.inj hfree]
    apply hlast
    rw [← (Prod.mk.inj (Except.ok.inj hback)).2]

theorem basesAligned_perform (hs : s.BasesAligned o) {call : ObjectPoolCall ι}
    (hanswers : s.AlignedAnswers o (.call call)) (hperform : s.perform o call = .ok (result, after)) :
    after.BasesAligned o := by
  cases call with
  | malloc u answer => exact basesAligned_malloc hs hanswers hperform
  | construct u answer offset data throws =>
    obtain ⟨⟨ret, middle⟩, hmalloc, hperform⟩ := exists_ok_of_bind hperform
    have hmalloced := basesAligned_malloc hs hanswers hmalloc
    have hmiddle : (middle.overwrite (ret + offset) data).BasesAligned o := hmalloced
    cases throws with
    | false =>
      obtain ⟨-, rfl⟩ := Prod.mk.inj (Except.ok.inj hperform)
      exact hmiddle
    | true =>
      obtain ⟨last, hfree, hperform⟩ := exists_ok_of_bind hperform
      obtain ⟨-, rfl⟩ := Prod.mk.inj (Except.ok.inj hperform)
      exact basesAligned_free hmiddle hfree
  | free u chunk =>
    cases hfree : s.free o u chunk with
    | error fault => simp [perform, hfree, Except.map] at hperform
    | ok last =>
      simp only [perform, hfree, Except.map, Except.ok.injEq, Prod.mk.injEq] at hperform
      exact hperform.2 ▸ basesAligned_free hs hfree
  | destroy u chunk offset data =>
    have hwrite : (s.overwrite (chunk + offset) data).BasesAligned o := hs
    cases hfree : (s.overwrite (chunk + offset) data).free o u chunk with
    | error fault => simp [perform, destroy, hfree, Except.map] at hperform
    | ok last =>
      simp only [perform, destroy, hfree, Except.map, Except.ok.injEq, Prod.mk.injEq] at hperform
      exact hperform.2 ▸ basesAligned_free hwrite hfree
  | overwrite chunk offset data =>
    obtain ⟨-, rfl⟩ := Prod.mk.inj (Except.ok.inj hperform)
    exact hs

theorem basesAligned_mallocs {answers : ℕ → Answer} {count index : ℕ} {chunks : List ℕ}
    (hs : s.BasesAligned o) (hanswers : ∀ i, o.platform.ptrSize ∣ (answers i).addr)
    (hmallocs : s.mallocs o t answers count index = .ok (chunks, after)) : after.BasesAligned o := by
  induction count generalizing s index chunks with
  | zero =>
    obtain ⟨-, rfl⟩ := Prod.mk.inj (Except.ok.inj hmallocs)
    exact hs
  | succ count ih =>
    obtain ⟨⟨chunk, next⟩, hmalloc, hmallocs⟩ := exists_ok_of_bind hmallocs
    obtain ⟨⟨rest, last⟩, hrest, hmallocs⟩ := exists_ok_of_bind hmallocs
    obtain ⟨-, rfl⟩ := Prod.mk.inj (Except.ok.inj hmallocs)
    exact ih (basesAligned_malloc hs (hanswers index) hmalloc) hrest

theorem basesAligned_giveBack {chunks : List ℕ} {ret ret' : Bool} (hs : s.BasesAligned o)
    (hback : s.giveBack o t chunks ret = .ok (ret', after)) : after.BasesAligned o := by
  induction chunks generalizing s ret with
  | nil =>
    obtain ⟨-, rfl⟩ := Prod.mk.inj (Except.ok.inj hback)
    exact hs
  | cons chunk rest ih =>
    unfold giveBack at hback
    dsimp only at hback
    split at hback
    · obtain ⟨next, hfree, hback⟩ := exists_ok_of_bind hback
      exact ih (basesAligned_free hs hfree) hback
    · exact ih hs hback

theorem basesAligned_of_run {history : List (ObjectPool ι × ServiceCall ι)}
    (hrun : (service ι o).Run history s) (hanswers : System.Obeys (AlignedAnswers o) history) :
    s.BasesAligned o := by
  apply hrun.invariant (BasesAligned o) _ _ hanswers
  · rintro start ⟨heap, rfl⟩ id pool hpool
    cases hpool
  · intro state call next hstate hanswer hstep
    cases call with
    | call call =>
      obtain ⟨-, result, hperform⟩ := hstep
      exact basesAligned_perform hstate hanswer hperform
    | preallocate u n arr answers =>
      obtain ⟨-, ret, hpreallocate⟩ := hstep
      obtain ⟨⟨chunks, middle⟩, hfill, hback⟩ := exists_ok_of_bind hpreallocate
      have hstart : (state.withArr o n arr).BasesAligned o := by
        unfold ObjectPool.withArr
        split <;> exact hstate
      have hmiddle := basesAligned_mallocs hstart hanswer (mallocs_of_fillArr hfill).1
      exact basesAligned_giveBack hmiddle hback

/-! ## Where a chunk lies -/

omit [DecidableEq ι] in
/-- If the chunk size is a multiple of `a`, so is the address of every carved chunk. -/
theorem dvd_of_mem_chunks {p : Platform} {pool : Pool} {chunk : ℕ} (ha : a ∣ p.ptrSize)
    (hsize : a ∣ pool.allocSize) (hbases : ∀ b ∈ pool.blocks, p.ptrSize ∣ b.base)
    (hmem : chunk ∈ pool.chunks p) : a ∣ chunk := by
  obtain ⟨b, hb, hchunk⟩ := Pool.mem_chunks.mp hmem
  obtain ⟨i, -, rfl⟩ := mem_chunksFrom.mp hchunk
  exact dvd_add (dvd_add (ha.trans (hbases b hb)) ha) (hsize.mul_left i)

/-- A chunk that a call returns is live afterwards. -/
theorem live_of_perform (hs : s.Owned o free) {call : ObjectPoolCall ι}
    (hallowed : s.Allowed o call) (hperform : s.perform o call = .ok (result, after))
    (hne : result ≠ 0) : ∃ free' id, after.Owned o free' ∧ result ∈ after.live id := by
  have hspace := hasRoom_of_perform hperform
  cases call with
  | malloc u answer =>
    obtain ⟨free', hobtained⟩ := malloc_spec hs (hspace u rfl) hallowed hperform
    exact ⟨free', _, hobtained.owned, hobtained.live⟩
  | construct u answer offset data throws =>
    obtain ⟨⟨ret, middle⟩, hmalloc, hperform⟩ := exists_ok_of_bind hperform
    obtain ⟨free', hobtained⟩ := malloc_spec hs (hspace u rfl) hallowed.1 hmalloc
    cases throws with
    | false =>
      obtain ⟨rfl, rfl⟩ := Prod.mk.inj (Except.ok.inj hperform)
      exact ⟨free', _, hobtained.owned.overwrite hobtained.live (hallowed.2.trans o.fits),
        hobtained.live⟩
    | true =>
      obtain ⟨last, hfree, hperform⟩ := exists_ok_of_bind hperform
      obtain ⟨rfl, -⟩ := Prod.mk.inj (Except.ok.inj hperform)
      exact absurd rfl hne
  | free u chunk =>
    cases hfree : s.free o u chunk <;> simp [perform, hfree, Except.map] at hperform
    exact absurd hperform.1.symm hne
  | destroy u chunk offset data =>
    cases hfree : (s.overwrite (chunk + offset) data).free o u chunk <;>
      simp [perform, destroy, hfree, Except.map] at hperform
    exact absurd hperform.1.symm hne
  | overwrite chunk offset data =>
    obtain ⟨rfl, -⟩ := Prod.mk.inj (Except.ok.inj hperform)
    exact absurd rfl hne

theorem resultsAligned_of_dvd (ha : a ∣ o.platform.ptrSize) (hsize : a ∣ o.newPool.allocSize) :
    ResultsAligned ι o a := by
  intro history s hrun hanswers call hallowed hanswer result after hperform hne
  obtain ⟨free, howned⟩ := owned_of_service ⟨history, hrun⟩
  obtain ⟨free', id, hafter, hlive⟩ := live_of_perform howned hallowed hperform hne
  have hbases := basesAligned_perform (basesAligned_of_run hrun hanswers) hanswer hperform
  obtain ⟨pool, hpool, hmem⟩ := hafter.2.exists_pool hlive
  rw [← hafter.2.allocSize id pool hpool] at hsize
  exact dvd_of_mem_chunks ha hsize (hbases id pool hpool) hmem

/-! ## Chunk sizes that are not a multiple -/

/-- Two calls of `Malloc` on a new pool return the first two chunks of one block. -/
theorem exists_two_mallocs (t : ι) (hroom : o.requestedSize + 2 < 2 ^ 32)
    (hfits : o.newPool.Fits o.platform) :
    ∃ answer next, (initial ι ⟨fun _ ↦ 0, []⟩).Allowed o (.malloc t answer) ∧
      o.platform.ptrSize ∣ answer.addr ∧
      (initial ι ⟨fun _ ↦ 0, []⟩).malloc o t answer = .ok (2 * o.platform.ptrSize, next) ∧
      ∃ last, next.malloc o t ⟨0, fun _ ↦ 0⟩ =
        .ok (2 * o.platform.ptrSize + o.newPool.allocSize, last) := by
  let start : ObjectPool ι := initial ι ⟨fun _ ↦ 0, []⟩
  let answer : Answer := ⟨o.platform.ptrSize, fun _ ↦ 0⟩
  have hlowest : answer.addr = o.platform.ptrSize := rfl
  have hptr := o.platform.ptrSize_ge
  have hptr' := o.platform.ptrSize_le
  have howned : start.Owned o fun _ ↦ [] := ⟨identified_initial _, shared_initial _⟩
  have hspace : start.HasRoom t := Or.inr (by simp [start, initial, maxThreadNum])
  have hnew : start.poolOf o t = o.newPool := rfl
  have hempty : o.newPool.storage.head = o.newPool.storage.tail := rfl
  have hblocks : Pool.BlockChain o.platform start.heap o.newPool :=
    (Pool.wellFormed_construct o.platform start.heap _).blockChain
  have hrequest := hblocks.requestSize_eq
  have htotal : o.newPool.totalSize o.platform = 64 * o.newPool.allocSize := by
    unfold Pool.Fits at hfits
    exact Nat.mod_eq_of_lt (by omega)
  have hspan : 64 * o.newPool.allocSize + 2 * o.platform.ptrSize ≤ o.platform.sizeModulus := by
    have hmodulus : 64 ∣ o.platform.sizeModulus := by cases o.platform <;> decide
    rw [htotal] at hrequest
    omega
  have hallowed : start.Allowed o (.malloc t answer) := by
    intro _ _
    refine ⟨show 0 < o.platform.ptrSize by omega, ?_, by simp [start, initial]⟩
    rw [hnew, hrequest.1, htotal]
    change o.platform.ptrSize + _ ≤ _
    omega
  obtain ⟨result, next, hmalloc⟩ := malloc_succeeds howned hspace hallowed hroom fun _ ↦
    ⟨show o.platform.ptrSize ≠ 0 by omega, hfits⟩
  cases malloc_effect howned hspace hallowed hmalloc with
  | pop hne => exact absurd hempty hne
  | @grow j _ haddr hresult hobtained hpool =>
    rw [hnew] at hobtained hpool
    have hresult : result = 2 * o.platform.ptrSize := by
      rw [hresult]
      change o.platform.ptrSize + o.platform.ptrSize = _
      omega
    -- the new block has 64 chunks, one of them handed out
    have hentry : next.objectPoolArray (next.threadId t) =
        some (o.newPool.grown o.platform o.platform.ptrSize j) := by
      rw [hobtained.owned.entry hobtained.given, hpool]
    have hstock : next.Stocked o t (0 + 1) (Function.update (fun _ ↦ []) (next.threadId t)
        (o.newPool.newChunks o.platform o.platform.ptrSize j ++ [])) := by
      refine ⟨hobtained.owned, hobtained.given, ?_⟩
      have hcount := (hobtained.owned.2.wellFormed _ _ hentry).partition.length_eq
      have hchunks : (o.newPool.grown o.platform o.platform.ptrSize 62).chunks o.platform = _ :=
        hblocks.chunks_grown htotal
      change _ = ((o.newPool.grown o.platform o.platform.ptrSize 62).chunks o.platform).length
        at hcount
      rw [hchunks, live_malloc hmalloc] at hcount
      simp only [List.length_append, Function.update_self, List.length_cons, chunksFrom,
        List.length_map, List.length_range, start, initial, List.length_nil, hlowest] at hcount ⊢
      omega
    have hnull : next.FreshFor o t ⟨0, fun _ ↦ 0⟩ := fun _ hne ↦ absurd rfl hne
    obtain ⟨-, second, rest, last, -, hlist, hsecond, -⟩ := hstock.malloc hnull
    rw [Function.update_self, Pool.newChunks, chunksFrom_cons, List.cons_append,
      List.cons.injEq] at hlist
    refine ⟨answer, next, hallowed, dvd_refl _, by rw [hmalloc, hresult], last, ?_⟩
    rw [hsecond, ← hlist.1]
    congr 2
    omega

/-- Such a pair is aligned only if the chunk size is. -/
theorem dvd_of_resultsAligned (t : ι) (ha : a ∣ o.platform.ptrSize) (hfits : o.newPool.Fits o.platform)
    (haligned : ResultsAligned ι o a) : a ∣ o.newPool.allocSize := by
  by_cases hroom : o.requestedSize + 2 < 2 ^ 32
  · obtain ⟨answer, next, hallowed, hanswer, hfirst, last, hsecond⟩ :=
      exists_two_mallocs t hroom hfits
    have hstart : (service ι o).Run [] (initial ι ⟨fun _ ↦ 0, []⟩) := .start ⟨_, rfl⟩
    have hstep : (service ι o).step (initial ι ⟨fun _ ↦ 0, []⟩) (.call (.malloc t answer)) next :=
      ⟨hallowed, _, hfirst⟩
    have hanswers : System.Obeys (AlignedAnswers o)
        [(initial ι ⟨fun _ ↦ 0, []⟩, .call (.malloc t answer))] := by
      exact (System.obeys_cons _ _ _ _).mpr ⟨hanswer, System.obeys_nil _⟩
    have hpos := o.platform.ptrSize_ge
    have hdvd := haligned _ next (hstart.next hstep) hanswers (.malloc t ⟨0, fun _ ↦ 0⟩)
      (fun _ hne ↦ absurd rfl hne) (dvd_zero _) _ last hsecond (by omega)
    exact (Nat.dvd_add_right (ha.mul_left 2)).mp hdvd
  · -- `RequestedSize + 2` has wrapped to 0 or 1
    have hunsigned := o.unsigned
    have hptr := o.platform.ptrSize_ge
    have hsize : o.newPool.allocSize = o.platform.ptrSize := by
      unfold Instantiation.newPool Pool.construct
      exact Nat.max_eq_right (by omega)
    rwa [hsize]

/-! ## Chunk sizes that cannot be carved -/

/-- No pool has been used yet. -/
def Untouched (o : Instantiation) (s : ObjectPool ι) : Prop :=
  ∀ id pool, s.objectPoolArray id = some pool → pool = o.newPool

omit [DecidableEq ι] in
theorem Untouched.not_live (hs : s.Untouched o) (howned : s.Owned o free) {id chunk : ℕ} :
    chunk ∉ s.live id := by
  intro hlive
  obtain ⟨pool, hpool, hmem⟩ := howned.2.exists_pool hlive
  rw [hs id pool hpool] at hmem
  simp [Pool.chunks, Instantiation.newPool, Pool.construct] at hmem

/-- The first chunk ever handed out comes from a growth that does not wrap. -/
theorem Untouched.fits_of_malloc (hs : s.Untouched o) (howned : s.Owned o free)
    (hfresh : s.FreshFor o t answer) (hmalloc : s.malloc o t answer = .ok (result, after)) :
    o.newPool.Fits o.platform := by
  have hperform : s.perform o (.malloc t answer) = .ok (result, after) := hmalloc
  have hspace := hasRoom_of_perform hperform t rfl
  have hnew : s.poolOf o t = o.newPool := by
    unfold poolOf
    cases hpool : s.objectPoolArray (s.threadId t) with
    | none => rfl
    | some pool => exact hs _ pool hpool
  cases malloc_effect howned hspace hfresh hmalloc with
  | pop hne =>
    rw [hnew] at hne
    exact absurd rfl hne
  | @grow j _ haddr hresult hobtained hpool =>
    rw [hnew] at hpool
    have hgrown :=
      (hobtained.owned.2.wellFormed _ _ (hobtained.owned.entry hobtained.given)).blockChain
    rw [hpool] at hgrown
    exact (Pool.wellFormed_construct o.platform s.heap _).blockChain.fits_of_grown hgrown

theorem Untouched.perform (hs : s.Untouched o) (howned : s.Owned o free)
    (hwraps : ¬ o.newPool.Fits o.platform) {call : ObjectPoolCall ι} (hallowed : s.Allowed o call)
    (hperform : s.perform o call = .ok (result, after)) : after.Untouched o := by
  cases call with
  | malloc u answer => exact absurd (hs.fits_of_malloc howned hallowed hperform) hwraps
  | construct u answer offset data throws =>
    obtain ⟨⟨ret, middle⟩, hmalloc, -⟩ := exists_ok_of_bind hperform
    exact absurd (hs.fits_of_malloc howned hallowed.1 hmalloc) hwraps
  | free u chunk =>
    have hsome : s.Live chunk := hallowed
    obtain ⟨id, hlive⟩ := hsome
    exact absurd hlive (hs.not_live howned)
  | destroy u chunk offset data | overwrite chunk offset data =>
    obtain ⟨⟨id, hlive⟩, -⟩ := hallowed
    exact absurd hlive (hs.not_live howned)

theorem untouched_of_service (hwraps : ¬ o.newPool.Fits o.platform)
    (hreach : (service ι o).Reachable s) : s.Untouched o ∧ ∃ free, s.Owned o free := by
  refine ⟨?_, owned_of_service hreach⟩
  suffices hboth : s.Untouched o ∧ (service ι o).Reachable s from hboth.1
  apply hreach.invariant fun s ↦ s.Untouched o ∧ (service ι o).Reachable s
  · intro start hstart
    refine ⟨?_, ⟨[], .start hstart⟩⟩
    obtain ⟨heap, rfl⟩ := hstart
    intro id pool hpool
    cases hpool
  · rintro state call next ⟨huntouched, hstate⟩ hstep
    obtain ⟨free, howned⟩ := owned_of_service hstate
    obtain ⟨history, hrun⟩ := hstate
    refine ⟨?_, ⟨_, hrun.next hstep⟩⟩
    cases call with
    | call call =>
      obtain ⟨hallowed, result, hperform⟩ := hstep
      exact huntouched.perform howned hwraps hallowed hperform
    | preallocate u n arr answers =>
      obtain ⟨⟨harr, hfresh⟩, ret, hpreallocate⟩ := hstep
      obtain ⟨⟨chunks, middle⟩, hfill, hback⟩ := exists_ok_of_bind hpreallocate
      have hstart : (state.withArr o n arr).Untouched o := by
        unfold ObjectPool.withArr
        split <;> exact huntouched
      have hmallocs := (mallocs_of_fillArr hfill).1
      cases hcount : n.toNat with
      | zero =>
        rw [hcount] at hmallocs
        obtain ⟨rfl, rfl⟩ := Prod.mk.inj (Except.ok.inj hmallocs)
        obtain ⟨-, rfl⟩ := Prod.mk.inj (Except.ok.inj hback)
        exact hstart
      | succ count =>
        rw [hcount] at hmallocs hfresh
        obtain ⟨⟨chunk, last⟩, hmalloc, -⟩ := exists_ok_of_bind hmallocs
        exact absurd (hstart.fits_of_malloc (howned.withArr harr) hfresh.1 hmalloc) hwraps

/-- **Object alignment.** Let `a` divide `sizeof(void*)`. In every state that calls of an object pool
reach, the objects returned lie at multiples of `a`, if and only if `a` divides the chunk size or the
first growth cannot be computed, so that there are no objects. -/
theorem resultsAligned_iff (ι : Type) [DecidableEq ι] [Inhabited ι] (o : Instantiation) {a : ℕ}
    (ha : a ∣ o.platform.ptrSize) :
    ResultsAligned ι o a ↔ a ∣ o.newPool.allocSize ∨ ¬ o.newPool.Fits o.platform := by
  constructor
  · intro haligned
    by_cases hfits : o.newPool.Fits o.platform
    · exact Or.inl (dvd_of_resultsAligned default ha hfits haligned)
    · exact Or.inr hfits
  · rintro (hsize | hwraps)
    · exact resultsAligned_of_dvd ha hsize
    · intro history s hrun _ call hallowed _ result after hperform hne
      obtain ⟨huntouched, free, howned⟩ := untouched_of_service hwraps ⟨history, hrun⟩
      obtain ⟨free', id, hafter, hlive⟩ := live_of_perform howned hallowed hperform hne
      exact absurd hlive ((huntouched.perform howned hwraps hallowed hperform).not_live hafter)

/-- Objects of the size of a pointer. -/
def pointerSized : Instantiation := ⟨.x64, 8, 8, le_rfl, by decide⟩

/-- A type of 8 bytes aligned to 8: the second object of a block lies at 26 bytes from an aligned one. -/
theorem resultsAligned_fails :
    ¬ ∀ (o : Instantiation) (a : ℕ), a ∣ o.platform.ptrSize → ResultsAligned (Fin 1) o a := by
  intro hclaim
  have hfits : pointerSized.newPool.Fits pointerSized.platform := by
    unfold Pool.Fits
    decide
  have hdvd := dvd_of_resultsAligned 0 (dvd_refl 8) hfits (hclaim pointerSized 8 (dvd_refl 8))
  exact absurd hdvd (by decide)

/-- The characterisation applied to objects of 6 bytes aligned to 2. -/
theorem resultsAligned_iff_applies :
    ResultsAligned (Fin 1) small 2 ↔ 2 ∣ small.newPool.allocSize ∨ ¬ small.newPool.Fits .x64 :=
  resultsAligned_iff (Fin 1) small (by decide)

end ObjectPool

end ServerCore.MemoryPool
