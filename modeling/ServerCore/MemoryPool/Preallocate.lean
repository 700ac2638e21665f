import ServerCore.MemoryPool.ObjectPoolRun

/-!
# Preallocation

`Preallocate(n)` takes `n` chunks from the pool of the calling thread, remembers them in an array that
it gets from `::malloc` and never gives back, and then frees them all, so that they end up on the
thread's own list. The array is a list here; that it lies in a block of `sizeof(void*) * n` bytes, and
that an access outside that block is undefined behaviour, is kept.

The main theorem says that this works: after a `Preallocate(n)` whose allocations succeed, the next `n`
allocations of the thread take chunks from the list, whatever is freed by whom in between.
-/

namespace ServerCore.MemoryPool

open Foundation

namespace ObjectPool

variable {ι : Type} [DecidableEq ι] (o : Instantiation)

/-! ## The loops -/

/-- `sizeof(void*) * n` in `std::size_t`. -/
def arrSize (n : ℤ) : ℕ :=
  ((o.platform.ptrSize : ℤ) * n % o.platform.sizeModulus).toNat

/-- The state once `::malloc` has answered the request for `arr`. -/
def withArr (s : ObjectPool ι) (n : ℤ) (arr : Answer) : ObjectPool ι :=
  if arr.addr = 0 then s else { s with heap := s.heap.malloc (arrSize o n) arr }

/-- The access to `arr[index]`. -/
def accessArr (n : ℤ) (arr : Answer) (index : ℕ) : Except Fault Unit :=
  if arr.addr = 0 then .error (.deref (index * o.platform.ptrSize))
  else if (index + 1) * o.platform.ptrSize ≤ arrSize o n then .ok ()
  else .error (.leavesBlock (arr.addr + index * o.platform.ptrSize))

/-- The first loop of `Preallocate`, from `index` on. -/
def fillArr (t : ι) (n : ℤ) (arr : Answer) (answers : ℕ → Answer) :
    ℕ → ℕ → ObjectPool ι → Except Fault (List ℕ × ObjectPool ι)
  | 0, _, s => return ([], s)
  | count + 1, index, s => do
    let (chunk, s) ← s.malloc o t (answers index)
    accessArr o n arr index
    let (rest, s) ← fillArr t n arr answers count (index + 1) s
    return (chunk :: rest, s)

/-- The second loop of `Preallocate`. -/
def giveBack (t : ι) : List ℕ → Bool → ObjectPool ι → Except Fault (Bool × ObjectPool ι)
  | [], ret, s => return (ret, s)
  | chunk :: rest, ret, s => do
    let s ← if chunk ≠ 0 then s.free o t chunk else pure s
    giveBack t rest (ret && chunk ≠ 0) s

/-- `Preallocate`. -/
def preallocate (s : ObjectPool ι) (t : ι) (n : ℤ) (arr : Answer) (answers : ℕ → Answer) :
    Except Fault (Bool × ObjectPool ι) := do
  let (chunks, s) ← (s.withArr o n arr).fillArr o t n arr answers n.toNat 0
  s.giveBack o t chunks true

/-- The calls of `malloc` in the first loop, one after another. -/
def mallocs (t : ι) (answers : ℕ → Answer) :
    ℕ → ℕ → ObjectPool ι → Except Fault (List ℕ × ObjectPool ι)
  | 0, _, s => return ([], s)
  | count + 1, index, s => do
    let (chunk, s) ← s.malloc o t (answers index)
    let (rest, s) ← mallocs t answers count (index + 1) s
    return (chunk :: rest, s)

/-- Every growth that these calls need is answered by null or by a fresh block. -/
def AllFresh (t : ι) (answers : ℕ → Answer) : ℕ → ℕ → ObjectPool ι → Prop
  | 0, _, _ => True
  | count + 1, index, s => s.FreshFor o t (answers index) ∧
      ∀ chunk after, s.malloc o t (answers index) = .ok (chunk, after) →
        AllFresh t answers count (index + 1) after

/-- The contract of `::malloc` in a call of `Preallocate`. -/
def AllowsPreallocate (s : ObjectPool ι) (t : ι) (n : ℤ) (arr : Answer) (answers : ℕ → Answer) :
    Prop :=
  (arr.addr ≠ 0 → s.heap.Fresh o.platform arr.addr (arrSize o n)) ∧
    (s.withArr o n arr).AllFresh o t answers n.toNat 0

/-- The array is granted, and every allocation returns a chunk. -/
def AllocationsSucceed (s : ObjectPool ι) (t : ι) (n : ℤ) (arr : Answer) (answers : ℕ → Answer) :
    Prop :=
  0 < n → arr.addr ≠ 0 ∧ ∃ chunks last,
    (s.withArr o n arr).mallocs o t answers n.toNat 0 = .ok (chunks, last) ∧ 0 ∉ chunks

/-- The calls of an object pool, with `Preallocate`. -/
inductive ServiceCall (ι : Type)
  | call (call : ObjectPoolCall ι)
  | preallocate (thread : ι) (n : ℤ) (arr : Answer) (answers : ℕ → Answer)

/-- All threads and clients on a heap, with `Preallocate`. -/
def service (ι : Type) [DecidableEq ι] (o : Instantiation) :
    System (ObjectPool ι) (ServiceCall ι) where
  init s := ∃ heap, s = initial ι heap
  step s call after := match call with
    | .call call => s.Allowed o call ∧ ∃ result, s.perform o call = .ok (result, after)
    | .preallocate t n arr answers => s.AllowsPreallocate o t n arr answers ∧
        ∃ ret, s.preallocate o t n arr answers = .ok (ret, after)

variable {o} {s after : ObjectPool ι} {free : ℕ → List ℕ} {id chunk : ℕ} {t : ι} {n : ℤ}
  {arr : Answer} {answers : ℕ → Answer} {count index : ℕ} {chunks : List ℕ}

/-! ## The first loop -/

omit [DecidableEq ι] in
/-- A block handed out to somebody else changes nothing for the pools. -/
theorem Owned.withArr (hs : s.Owned o free)
    (hfresh : arr.addr ≠ 0 → s.heap.Fresh o.platform arr.addr (arrSize o n)) :
    (s.withArr o n arr).Owned o free := by
  unfold ObjectPool.withArr
  split
  · exact hs
  · next haddr =>
    obtain ⟨hid, hs⟩ := hs
    obtain ⟨-, -, hapart⟩ := hfresh haddr
    have hkeep (other : ℕ) (pool : Pool) (hpool : s.objectPoolArray other = some pool) (c : Block)
        (hc : c ∈ pool.blocks) (x : ℕ) (hlow : c.base ≤ x) (hhigh : x < c.base + c.size) :
        (s.heap.malloc (arrSize o n) arr).bytes x = s.heap.bytes x := by
      have h := hapart c ((hs.wellFormed other pool hpool).owned c hc)
      unfold Block.Apart Foundation.Apart at h
      apply Heap.malloc_bytes_of_outside
      simp only at h
      omega
    refine ⟨⟨hid.injective, hid.le_counter, hid.onto, hid.bounded, hid.named⟩,
      ⟨?_, hs.absent, hs.allocSize, hs.unused, hs.apart, ?_⟩⟩
    · intro other pool hpool
      have hold := hs.wellFormed other pool hpool
      apply hold.frame_blocks
      · intro c hc
        exact List.mem_cons_of_mem _ (hold.owned c hc)
      · exact hkeep other pool hpool
    · intro other chunk hlive
      rw [← hs.tagged other chunk hlive]
      obtain ⟨pool, hpool, hmem⟩ := hs.exists_pool hlive
      obtain ⟨c, hc, hlow, hhigh⟩ := (hs.wellFormed other pool hpool).chunk_bounds hmem
      have hfit := room_of_unwrapped (hs.room_of_mem hpool hmem)
      rw [← hs.allocSize other pool hpool] at hfit
      apply ByteMemory.load_congr
      intro x hx hx'
      exact hkeep other pool hpool c hc x (by omega) (by omega)

omit [DecidableEq ι] in
@[simp]
theorem live_withArr (s : ObjectPool ι) : (s.withArr o n arr).live = s.live := by
  unfold withArr
  split <;> rfl

/-- Accesses to the array aside, the first loop is the calls of `malloc`. -/
theorem mallocs_of_fillArr (hfill : s.fillArr o t n arr answers count index = .ok (chunks, after)) :
    s.mallocs o t answers count index = .ok (chunks, after) ∧ (count ≠ 0 → arr.addr ≠ 0) := by
  induction count generalizing s index chunks with
  | zero => exact ⟨hfill, fun hne ↦ absurd rfl hne⟩
  | succ count ih =>
    obtain ⟨⟨chunk, next⟩, hmalloc, hfill⟩ := exists_ok_of_bind hfill
    obtain ⟨⟨⟩, haccess, hfill⟩ := exists_ok_of_bind hfill
    obtain ⟨⟨rest, last⟩, hrest, hfill⟩ := exists_ok_of_bind hfill
    obtain ⟨rfl, rfl⟩ := Prod.mk.inj (Except.ok.inj hfill)
    constructor
    · unfold mallocs
      simp only [hmalloc, (ih hrest).1, bind, Except.bind]
      rfl
    · intro _ hnull
      rw [accessArr, if_pos hnull] at haccess
      cases haccess

theorem fillArr_eq_mallocs (harr : arr.addr ≠ 0)
    (hroom : (index + count) * o.platform.ptrSize ≤ arrSize o n) :
    s.fillArr o t n arr answers count index = s.mallocs o t answers count index := by
  induction count generalizing s index with
  | zero => rfl
  | succ count ih =>
    have hmul := Nat.mul_le_mul_right o.platform.ptrSize
      (show index + 1 ≤ index + (count + 1) by omega)
    have haccess : accessArr o n arr index = .ok () := by
      rw [accessArr, if_neg harr, if_pos (by omega)]
    have hrest (next : ObjectPool ι) := @ih next (index + 1)
      (by rwa [show index + 1 + count = index + (count + 1) by omega])
    unfold fillArr mallocs
    simp only [haccess, hrest, bind, Except.bind]

/-- What the calls of `malloc` did: the chunks are live in the pool of the thread. -/
structure Filled (o : Instantiation) (s : ObjectPool ι) (t : ι) (chunks : List ℕ)
    (after : ObjectPool ι) (free : ℕ → List ℕ) : Prop where
  owned : after.Owned o free
  live : after.live = Function.update s.live (after.threadId t)
    (chunks.reverse ++ s.live (after.threadId t))
  nonnull : 0 ∉ chunks
  ids : ∀ u, s.threadId u ≠ 0 → after.threadId u = s.threadId u

theorem mallocs_spec (hs : s.Owned o free) (hfresh : s.AllFresh o t answers count index)
    (hmallocs : s.mallocs o t answers count index = .ok (chunks, after)) :
    ∃ free', s.Filled o t chunks after free' := by
  induction count generalizing s index chunks free with
  | zero =>
    obtain ⟨rfl, rfl⟩ := Prod.mk.inj (Except.ok.inj hmallocs)
    exact ⟨free, hs, by simp, by simp, fun _ _ ↦ rfl⟩
  | succ count ih =>
    obtain ⟨hfirst, hlater⟩ := hfresh
    obtain ⟨⟨chunk, next⟩, hmalloc, hmallocs⟩ := exists_ok_of_bind hmallocs
    obtain ⟨⟨rest, last⟩, hrest, hmallocs⟩ := exists_ok_of_bind hmallocs
    obtain ⟨rfl, rfl⟩ := Prod.mk.inj (Except.ok.inj hmallocs)
    have hperform : s.perform o (.malloc t (answers index)) = .ok (chunk, next) := hmalloc
    have hspace := hasRoom_of_perform hperform t rfl
    obtain ⟨middle, hobtained⟩ := malloc_spec hs hspace hfirst hmalloc
    obtain ⟨free', hfilled⟩ := ih hobtained.owned (hlater chunk next hmalloc) hrest
    have hid := hfilled.ids t hobtained.given
    refine ⟨free', hfilled.owned, ?_, ?_, ?_⟩
    · rw [hfilled.live, live_malloc hmalloc, hid, Function.update_idem, Function.update_self,
        List.reverse_cons, List.append_assoc]
      rfl
    · rw [List.mem_cons, not_or]
      exact ⟨hobtained.nonnull.symm, hfilled.nonnull⟩
    · intro u hgiven
      have hkept := threadId_malloc hmalloc hgiven
      rw [hfilled.ids u (by rwa [hkept]), hkept]

theorem length_mallocs (hmallocs : s.mallocs o t answers count index = .ok (chunks, after)) :
    chunks.length = count := by
  induction count generalizing s index chunks with
  | zero =>
    obtain ⟨rfl, -⟩ := Prod.mk.inj (Except.ok.inj hmallocs)
    rfl
  | succ count ih =>
    obtain ⟨⟨chunk, next⟩, -, hmallocs⟩ := exists_ok_of_bind hmallocs
    obtain ⟨⟨rest, last⟩, hrest, hmallocs⟩ := exists_ok_of_bind hmallocs
    obtain ⟨rfl, rfl⟩ := Prod.mk.inj (Except.ok.inj hmallocs)
    rw [List.length_cons, ih hrest]

omit [DecidableEq ι] in
/-- A chunk in a client's hands belongs to a pool, which keeps one chunk back. -/
theorem Owned.of_live (hs : s.Owned o free) (hlive : chunk ∈ s.live id) :
    id ≠ 0 ∧ free id ≠ [] ∧ (s.live id).Nodup ∧ o.requestedSize + 2 < 2 ^ 32 ∧
      (s.live id).length * o.platform.ptrSize < o.platform.sizeModulus := by
  obtain ⟨pool, hpool, hmem⟩ := hs.2.exists_pool hlive
  have hw := hs.2.wellFormed id pool hpool
  have hle : (s.live id).length ≤ (pool.chunks o.platform).length := by
    rw [← hw.partition.length_eq, List.length_append]
    omega
  have hlt := hw.blockChain.length_chunks_mul_lt
  have hmul := Nat.mul_le_mul hle hw.alloc_ge
  exact ⟨((hs.1.named id).mp (by simp [hpool])).1, hw.free_ne_nil hlive,
    (List.nodup_append.mp hw.nodup_append).2.1, hs.2.room_of_mem hpool hmem, by omega⟩

namespace Filled

omit [DecidableEq ι] in
theorem mem_live (hfilled : s.Filled o t chunks after free) (hmem : chunk ∈ chunks) :
    chunk ∈ after.live (after.threadId t) := by
  rw [hfilled.live, Function.update_self]
  exact List.mem_append_left _ (List.mem_reverse.mpr hmem)

omit [DecidableEq ι] in
/-- So many chunks fit into the address space, and so does an array of pointers to them. -/
theorem length_mul_lt (hfilled : s.Filled o t chunks after free) (hne : chunks ≠ []) :
    chunks.length * o.platform.ptrSize < o.platform.sizeModulus := by
  obtain ⟨chunk, hmem⟩ := List.exists_mem_of_ne_nil chunks hne
  obtain ⟨-, -, -, -, hlt⟩ := hfilled.owned.of_live (hfilled.mem_live hmem)
  rw [hfilled.live, Function.update_self, List.length_append, List.length_reverse] at hlt
  have hmul := Nat.mul_le_mul_right o.platform.ptrSize
    (Nat.le_add_right chunks.length (s.live (after.threadId t)).length)
  omega

end Filled

/-! ## The second loop -/

/-- What the second loop did: the chunks are on the list of the thread and in no client's hands. -/
structure Returned (o : Instantiation) (s : ObjectPool ι) (t : ι) (chunks : List ℕ)
    (after : ObjectPool ι) (free free' : ℕ → List ℕ) : Prop where
  owned : after.Owned o free'
  live : after.live = fun other ↦ (s.live other).diff chunks
  length : (free' (s.threadId t)).length = (free (s.threadId t)).length + chunks.length
  ids : ∀ u, s.threadId u ≠ 0 → after.threadId u = s.threadId u

theorem giveBack_spec (hs : s.Owned o free) (hgiven : s.threadId t ≠ 0) (hnonnull : 0 ∉ chunks)
    (hnodup : chunks.Nodup) (hlive : ∀ chunk ∈ chunks, chunk ∈ s.live (s.threadId t)) (ret : Bool) :
    ∃ after free', s.giveBack o t chunks ret = .ok (ret, after) ∧
      s.Returned o t chunks after free free' := by
  induction chunks generalizing s free with
  | nil => exact ⟨s, free, rfl, hs, rfl, rfl, fun _ _ ↦ rfl⟩
  | cons chunk rest ih =>
    rw [List.mem_cons, not_or] at hnonnull
    obtain ⟨hnew, hrest⟩ := List.nodup_cons.mp hnodup
    have hne : chunk ≠ 0 := Ne.symm hnonnull.1
    obtain ⟨next, list, hfree, hback⟩ :=
      free_effect hs (Or.inl hgiven) (hlive chunk List.mem_cons_self)
    have hid := hback.ids t hgiven
    have hlist : list.length = (free (s.threadId t)).length + 1 := by
      rcases hback.list_eq with hlist | hlist <;> simp [hlist]
    obtain ⟨after, free', hlater, hreturned⟩ := ih hback.owned (by rwa [hid]) hnonnull.2 hrest
      (by
        intro other hother
        rw [hid, hback.live]
        apply (List.mem_erase_of_ne _).mpr (hlive other (List.mem_cons_of_mem _ hother))
        intro heq
        exact hnew (heq ▸ hother))
    refine ⟨after, free', ?_, hreturned.owned, ?_, ?_, ?_⟩
    · unfold giveBack
      simp only [hne, ne_eq, not_false_eq_true, if_true, decide_true, Bool.and_true, hfree, bind,
        Except.bind, hlater]
    · rw [hreturned.live, hback.live]
      funext other
      rw [List.diff_cons]
    · have hlength := hreturned.length
      rw [hid, Function.update_self] at hlength
      rw [hlength, hlist, List.length_cons]
      omega
    · intro u hgiven
      rw [hreturned.ids u (by rwa [hback.ids u hgiven]), hback.ids u hgiven]

/-! ## `Preallocate` as a whole -/

/-- What a `Preallocate` leaves: nobody holds more or less than before, and the list of the thread has
`n` chunks above its sentinel. -/
structure Preallocated (o : Instantiation) (s : ObjectPool ι) (t : ι) (n : ℤ) (after : ObjectPool ι)
    (free : ℕ → List ℕ) : Prop where
  owned : after.Owned o free
  live : ∀ id chunk, chunk ∈ after.live id ↔ chunk ∈ s.live id
  stocked : 0 < n → after.threadId t ≠ 0 ∧ n.toNat + 1 ≤ (free (after.threadId t)).length

/-- The second loop, after the first one has gone through. -/
theorem Filled.giveBack {s middle : ObjectPool ι} (hfilled : s.Filled o t chunks middle free)
    (hlength : chunks.length = n.toNat) : ∃ after free',
      middle.giveBack o t chunks true = .ok (true, after) ∧ s.Preallocated o t n after free' := by
  cases hchunks : chunks with
  | nil =>
    rw [hchunks] at hlength hfilled
    refine ⟨middle, free, rfl, hfilled.owned, ?_, ?_⟩
    · rw [hfilled.live]
      simp
    · intro hpos
      simp only [List.length_nil] at hlength
      omega
  | cons first rest =>
    have hmem : first ∈ chunks := by simp [hchunks]
    obtain ⟨hgiven, hlist, hnodup, -⟩ := hfilled.owned.of_live (hfilled.mem_live hmem)
    have hsome := List.length_pos_of_ne_nil hlist
    rw [hfilled.live, Function.update_self] at hnodup
    obtain ⟨hunique, -, hdisjoint⟩ := List.nodup_append.mp hnodup
    rw [List.nodup_reverse] at hunique
    rw [← hchunks]
    obtain ⟨after, free', hback, hreturned⟩ := giveBack_spec hfilled.owned hgiven hfilled.nonnull
      hunique (fun chunk hchunk ↦ hfilled.mem_live hchunk) true
    have hid := hreturned.ids t hgiven
    refine ⟨after, free', hback, hreturned.owned, ?_, ?_⟩
    · intro id chunk
      simp only [hreturned.live]
      by_cases hown : id = middle.threadId t
      · rw [hfilled.live, hown, Function.update_self, hnodup.mem_sdiff_iff, List.mem_append,
          List.mem_reverse]
        constructor
        · rintro ⟨hnew | hold, hnot⟩
          · exact absurd hnew hnot
          · exact hold
        · intro hold
          refine ⟨Or.inr hold, fun hnew ↦ ?_⟩
          exact hdisjoint chunk (List.mem_reverse.mpr hnew) chunk hold rfl
      · rw [hfilled.live, Function.update_of_ne hown]
        constructor
        · intro hmem
          exact List.diff_subset _ _ hmem
        · intro hold
          apply List.mem_diff_of_mem hold
          intro hnew
          have hother : chunk ∈ middle.live id := by
            rwa [hfilled.live, Function.update_of_ne hown]
          exact hown (hfilled.owned.2.live_unique hother (hfilled.mem_live hnew))
    · intro _
      rw [hid]
      refine ⟨hgiven, ?_⟩
      rw [hreturned.length]
      omega

theorem arrSize_eq (hnonneg : 0 ≤ n)
    (hlt : n.toNat * o.platform.ptrSize < o.platform.sizeModulus) :
    arrSize o n = n.toNat * o.platform.ptrSize := by
  have hvalue : (o.platform.ptrSize : ℤ) * n = ((n.toNat * o.platform.ptrSize : ℕ) : ℤ) := by
    rw [Nat.cast_mul, Int.toNat_of_nonneg hnonneg, mul_comm]
  unfold arrSize
  rw [hvalue]
  norm_cast
  exact Nat.mod_eq_of_lt hlt

/-- `Preallocate` is defined exactly if its allocations succeed, and then it returns true. -/
theorem preallocate_cases (hs : s.Owned o free) (hallows : s.AllowsPreallocate o t n arr answers) :
    (s.AllocationsSucceed o t n arr answers ∧ ∃ after free',
        s.preallocate o t n arr answers = .ok (true, after) ∧ s.Preallocated o t n after free') ∨
      (¬ s.AllocationsSucceed o t n arr answers ∧
        ∃ fault, s.preallocate o t n arr answers = .error fault) := by
  obtain ⟨harr, hfresh⟩ := hallows
  have hstart := hs.withArr harr
  have hfinish {chunks : List ℕ} {last : ObjectPool ι}
      (hfill : (s.withArr o n arr).fillArr o t n arr answers n.toNat 0 = .ok (chunks, last)) :
      s.AllocationsSucceed o t n arr answers ∧ ∃ after free',
        s.preallocate o t n arr answers = .ok (true, after) ∧ s.Preallocated o t n after free' := by
    obtain ⟨hmallocs, hgranted⟩ := mallocs_of_fillArr hfill
    obtain ⟨free', hfilled⟩ := mallocs_spec hstart hfresh hmallocs
    obtain ⟨after, free'', hback, hpre⟩ := hfilled.giveBack (length_mallocs hmallocs)
    refine ⟨fun hpos ↦ ⟨hgranted (by omega), chunks, last, hmallocs, hfilled.nonnull⟩,
      after, free'', ?_, hpre.owned, ?_, hpre.stocked⟩
    · simp only [preallocate, hfill, bind, Except.bind, hback]
    · rw [← live_withArr s]
      exact hpre.live
  cases hfill : (s.withArr o n arr).fillArr o t n arr answers n.toNat 0 with
  | ok result => exact Or.inl (hfinish hfill)
  | error fault =>
    refine Or.inr ⟨?_, fault, by simp only [preallocate, hfill, bind, Except.bind]⟩
    intro hsucceed
    by_cases hpos : 0 < n
    · obtain ⟨hgranted, chunks, last, hmallocs, -⟩ := hsucceed hpos
      obtain ⟨free', hfilled⟩ := mallocs_spec hstart hfresh hmallocs
      have hlength := length_mallocs hmallocs
      have hlt := hfilled.length_mul_lt (by
        intro hnil
        rw [hnil, List.length_nil] at hlength
        omega)
      rw [hlength] at hlt
      rw [fillArr_eq_mallocs hgranted (by rw [arrSize_eq hpos.le hlt, Nat.zero_add]), hmallocs] at hfill
      cases hfill
    · rw [Int.toNat_of_nonpos (by omega)] at hfill
      cases hfill

/-- The invariant holds with `Preallocate` as well. -/
theorem owned_of_service (hreach : (service ι o).Reachable s) : ∃ free, s.Owned o free := by
  apply hreach.invariant fun s ↦ ∃ free, s.Owned o free
  · intro start hstart
    obtain ⟨heap, rfl⟩ := hstart
    exact ⟨_, identified_initial heap, shared_initial heap⟩
  · intro state call next hstate hstep
    obtain ⟨free, howned⟩ := hstate
    cases call with
    | call call =>
      obtain ⟨hallowed, result, hperform⟩ := hstep
      exact (perform_spec howned (hasRoom_of_perform hperform) hallowed hperform).1
    | preallocate t n arr answers =>
      obtain ⟨hallows, ret, hpreallocate⟩ := hstep
      rcases preallocate_cases howned hallows with ⟨-, after, free', hok, hpre⟩ | ⟨-, fault, herror⟩
      · rw [hok, Except.ok.injEq, Prod.mk.injEq] at hpreallocate
        exact ⟨free', hpreallocate.2 ▸ hpre.owned⟩
      · rw [herror] at hpreallocate
        cases hpreallocate

end ObjectPool

/-- The thread that the call allocates for. -/
def ObjectPoolCall.allocator {ι : Type} : ObjectPoolCall ι → Option ι
  | .malloc t _ | .construct t _ _ _ _ => some t
  | .free _ _ | .destroy _ _ _ _ | .overwrite _ _ _ => none

/-- The constructor that the call runs throws. -/
def ObjectPoolCall.throws {ι : Type} : ObjectPoolCall ι → Bool
  | .construct _ _ _ _ throws => throws
  | .malloc _ _ | .free _ _ | .destroy _ _ _ _ | .overwrite _ _ _ => false

namespace ObjectPool

variable {ι : Type} [DecidableEq ι] {o : Instantiation} {s after : ObjectPool ι}
  {free : ℕ → List ℕ} {t : ι} {n : ℤ} {arr : Answer} {answers : ℕ → Answer} {count : ℕ}
  {call : ObjectPoolCall ι} {result : ℕ}

/-! ## What the thread may rely on -/

/-- How many of the steps allocate. -/
def allocations (history : List (ObjectPool ι × ObjectPoolCall ι)) : ℕ :=
  history.countP fun entry ↦ entry.2.allocator.isSome

/-- In `s`, the next call takes a chunk from the list of the thread: nothing is asked of `::malloc`, and
the chunk was in nobody's hands. A constructor that throws gives it back. -/
def TakesFromList (o : Instantiation) (s : ObjectPool ι) (t : ι) (call : ObjectPoolCall ι) : Prop :=
  (s.poolOf o t).storage.empty = false ∧
    ∃ result after, s.perform o call = .ok (result, after) ∧ after.heap.blocks = s.heap.blocks ∧
      (∀ id, result ∉ s.live id) ∧ (result = 0 ↔ call.throws = true)

/-- The next `count` allocations of the thread take chunks from its list, whoever frees and writes what
in between, as long as nobody else allocates. -/
def Promised (o : Instantiation) (s : ObjectPool ι) (t : ι) (count : ℕ) : Prop :=
  ∀ history last, ({ system ι o with init := (· = s) }).Run history last →
    System.Obeys (fun _ call ↦ call.allocator = none ∨ call.allocator = some t) history →
    allocations history < count →
    ∀ call, call.allocator = some t → last.Allowed o call → last.TakesFromList o t call

/-- The list of the thread has `count` chunks above its sentinel. -/
def Stocked (o : Instantiation) (s : ObjectPool ι) (t : ι) (count : ℕ) (free : ℕ → List ℕ) : Prop :=
  s.Owned o free ∧ s.threadId t ≠ 0 ∧ count + 1 ≤ (free (s.threadId t)).length

omit [DecidableEq ι] in
/-- A chunk that is given back never makes a list shorter. -/
theorem GivenBack.stocked {chunk id : ℕ} {list : List ℕ} (hback : s.GivenBack o chunk id after free list)
    (hgiven : s.threadId t ≠ 0) (hcount : count + 1 ≤ (free (s.threadId t)).length) :
    after.Stocked o t count (Function.update free id list) := by
  have hid := hback.ids t hgiven
  refine ⟨hback.owned, by rwa [hid], ?_⟩
  rw [hid]
  by_cases hown : s.threadId t = id
  · have hlist : list.length = (free id).length + 1 := by
      rcases hback.list_eq with hlist | hlist <;> simp [hlist]
    rw [hown] at hcount
    rw [hown, Function.update_self]
    omega
  · rwa [Function.update_of_ne hown]

/-- Calls that do not allocate keep the stock. -/
theorem Stocked.release (hs : s.Stocked o t count free) (hcall : call.allocator = none)
    (hallowed : s.Allowed o call) (hperform : s.perform o call = .ok (result, after)) :
    ∃ free', after.Stocked o t count free' := by
  obtain ⟨howned, hgiven, hcount⟩ := hs
  have hspace := hasRoom_of_perform hperform
  cases call with
  | malloc u answer | construct u answer offset data throws => cases hcall
  | free u chunk =>
    have hsome : s.Live chunk := hallowed
    obtain ⟨id, hlive⟩ := hsome
    obtain ⟨next, list, hfree, hback⟩ := free_effect howned (hspace u rfl) hlive
    simp only [perform, hfree, Except.map, Except.ok.injEq, Prod.mk.injEq] at hperform
    obtain ⟨-, rfl⟩ := hperform
    exact ⟨_, hback.stocked hgiven hcount⟩
  | destroy u chunk offset data =>
    obtain ⟨⟨id, hlive⟩, hoffset⟩ := hallowed
    have hwrite := howned.overwrite hlive (hoffset.trans o.fits)
    obtain ⟨next, list, hfree, hback⟩ := free_effect hwrite (hspace u rfl) hlive
    simp only [perform, destroy, hfree, Except.map, Except.ok.injEq, Prod.mk.injEq] at hperform
    obtain ⟨-, rfl⟩ := hperform
    exact ⟨_, hback.stocked hgiven hcount⟩
  | overwrite chunk offset data =>
    obtain ⟨⟨id, hlive⟩, hoffset⟩ := hallowed
    simp only [perform, Except.ok.injEq, Prod.mk.injEq] at hperform
    obtain ⟨-, rfl⟩ := hperform
    exact ⟨free, howned.overwrite hlive hoffset, hgiven, hcount⟩

/-- `Malloc` from a stocked list returns its first chunk. -/
theorem Stocked.malloc (hs : s.Stocked o t (count + 1) free) {answer : Answer}
    (hfresh : s.FreshFor o t answer) :
    (s.poolOf o t).storage.empty = false ∧ ∃ result rest after free',
      free (s.threadId t) = result :: rest ∧ s.malloc o t answer = .ok (result, after) ∧
        after.heap.blocks = s.heap.blocks ∧ s.Obtained o t result after free' ∧
        after.Stocked o t count free' := by
  obtain ⟨howned, hgiven, hcount⟩ := hs
  have hspace : s.HasRoom t := Or.inl hgiven
  have hpool := howned.entry hgiven
  have hw := howned.2.wellFormed _ _ hpool
  have hne := hw.head_ne_tail (by omega)
  have hhead : (s.poolOf o t).storage.head ∈ (s.poolOf o t).chunks o.platform := by
    obtain ⟨rest, hrest, -⟩ := hw.malloc_spec answer hne
    exact hw.free_mem (by rw [hrest]; exact List.mem_cons_self)
  obtain ⟨result, after, hmalloc⟩ := malloc_succeeds howned hspace hfresh
    (howned.2.room_of_mem hpool hhead) fun hempty ↦ absurd hempty hne
  have hid := threadId_malloc hmalloc hgiven
  cases malloc_effect howned hspace hfresh hmalloc with
  | grow hempty => exact absurd hempty hne
  | @pop rest _ hfree hobtained hblocks =>
    have hstock : count + 1 ≤ rest.length := by
      rw [← hid, hfree, List.length_cons] at hcount
      omega
    refine ⟨by simpa [SegregatedStorage.empty] using hne, result, rest, after, _, hid ▸ hfree,
      hmalloc, hblocks, hobtained, hobtained.owned, hobtained.given, ?_⟩
    rwa [Function.update_self]

/-- An allocation from a stocked list takes one chunk off the stock at most. -/
theorem Stocked.takesFromList (hs : s.Stocked o t (count + 1) free)
    (hcall : call.allocator = some t) (hallowed : s.Allowed o call) :
    s.TakesFromList o t call ∧ ∀ result after, s.perform o call = .ok (result, after) →
      ∃ free', after.Stocked o t count free' := by
  cases call with
  | malloc u answer =>
    obtain rfl : u = t := Option.some.inj hcall
    obtain ⟨hempty, result, -, after, free', -, hmalloc, hblocks, hobtained, hstock⟩ :=
      hs.malloc hallowed
    refine ⟨⟨hempty, result, after, hmalloc, hblocks, hobtained.notLive, ?_⟩, ?_⟩
    · simp [hobtained.nonnull, ObjectPoolCall.throws]
    · intro other last hperform
      have hsame := Except.ok.inj (hmalloc.symm.trans hperform)
      rw [← (Prod.mk.inj hsame).2]
      exact ⟨free', hstock⟩
  | construct u answer offset data throws =>
    obtain rfl : u = t := Option.some.inj hcall
    obtain ⟨hfresh, hoffset⟩ := hallowed
    obtain ⟨hempty, result, -, middle, free', -, hmalloc, hblocks, hobtained, hstock⟩ :=
      hs.malloc hfresh
    have hwrite := hobtained.owned.overwrite hobtained.live (hoffset.trans o.fits)
    have hgiven : (middle.overwrite (result + offset) data).threadId u ≠ 0 := hobtained.given
    cases throws with
    | false =>
      have hconstruct : s.perform o (.construct u answer offset data false) =
          .ok (result, middle.overwrite (result + offset) data) := by
        simp only [perform, construct, hmalloc, bind, Except.bind]
        rfl
      refine ⟨⟨hempty, result, _, hconstruct, hblocks, hobtained.notLive, ?_⟩, ?_⟩
      · simp [hobtained.nonnull, ObjectPoolCall.throws]
      · intro other last hperform
        have hsame := Except.ok.inj (hconstruct.symm.trans hperform)
        rw [← (Prod.mk.inj hsame).2]
        exact ⟨free', hwrite, hgiven, hstock.2.2⟩
    | true =>
      obtain ⟨after, list, hfree, hback⟩ := free_effect hwrite (Or.inl hgiven) hobtained.live
      have hconstruct : s.perform o (.construct u answer offset data true) = .ok (0, after) := by
        simp only [perform, construct, hmalloc, bind, Except.bind, if_true, hfree]
        rfl
      have hzero (id : ℕ) : 0 ∉ s.live id := by
        intro hmem
        obtain ⟨pool, hpool, hchunk⟩ := hs.1.2.exists_pool hmem
        exact absurd ((hs.1.2.wellFormed id pool hpool).chunk_lt hchunk).1 (lt_irrefl 0)
      refine ⟨⟨hempty, 0, after, hconstruct, hback.blocks.trans hblocks, hzero, ?_⟩, ?_⟩
      · simp [ObjectPoolCall.throws]
      · intro other last hperform
        have hsame := Except.ok.inj (hconstruct.symm.trans hperform)
        rw [← (Prod.mk.inj hsame).2]
        exact ⟨_, hback.stocked hgiven hstock.2.2⟩
  | free | destroy | overwrite => cases hcall

/-- Along a run, each allocation uses up one chunk of the stock at most. -/
theorem Stocked.run (hs : s.Stocked o t count free)
    {history : List (ObjectPool ι × ObjectPoolCall ι)} {last : ObjectPool ι}
    (hrun : ({ system ι o with init := (· = s) }).Run history last)
    (hobeys : System.Obeys (fun _ call ↦ call.allocator = none ∨ call.allocator = some t) history)
    (hle : allocations history ≤ count) :
    ∃ free', last.Stocked o t (count - allocations history) free' := by
  induction hrun with
  | start hstart => exact ⟨free, hstart ▸ hs⟩
  | @next history state after call hbefore hstep ih =>
    obtain ⟨hcall, hobeys⟩ := (System.obeys_cons _ _ _ _).mp hobeys
    obtain ⟨hallowed, result, hperform⟩ := hstep
    have hadd : allocations ((state, call) :: history) =
        allocations history + if call.allocator.isSome then 1 else 0 := List.countP_cons
    rcases hcall with hnone | hsome
    · rw [hnone, Option.isSome_none, if_neg (by decide), Nat.add_zero] at hadd
      rw [hadd] at hle ⊢
      obtain ⟨free', hstock⟩ := ih hobeys hle
      exact hstock.release hnone hallowed hperform
    · rw [hsome, Option.isSome_some, if_pos rfl] at hadd
      obtain ⟨free', hstock⟩ := ih hobeys (by omega)
      have hleft : count - allocations history =
          count - allocations ((state, call) :: history) + 1 := by omega
      rw [hleft] at hstock
      exact (hstock.takesFromList hsome hallowed).2 result after hperform

theorem Stocked.promised (hs : s.Stocked o t count free) : s.Promised o t count := by
  intro history last hrun hobeys hlt call hcall hallowed
  obtain ⟨free', hstock⟩ := hs.run hrun hobeys hlt.le
  rw [show count - allocations history = count - allocations history - 1 + 1 by omega] at hstock
  exact (hstock.takesFromList hcall hallowed).1

/-- **Preallocation.** In every state that calls of an object pool reach, a `Preallocate(n)` whose
allocations succeed returns true and leaves every chunk in the hands it was in, and the next `n`
allocations of the thread take chunks from its list that nobody holds. -/
theorem preallocate_keeps_promise (hreach : (service ι o).Reachable s)
    (hallows : s.AllowsPreallocate o t n arr answers)
    (hsucceed : s.AllocationsSucceed o t n arr answers) :
    ∃ after, s.preallocate o t n arr answers = .ok (true, after) ∧
      (∀ id chunk, chunk ∈ after.live id ↔ chunk ∈ s.live id) ∧ after.Promised o t n.toNat := by
  obtain ⟨free, howned⟩ := owned_of_service hreach
  rcases preallocate_cases howned hallows with ⟨-, after, free', hok, hpre⟩ | ⟨hfail, -⟩
  · refine ⟨after, hok, hpre.live, ?_⟩
    by_cases hpos : 0 < n
    · obtain ⟨hgiven, hcount⟩ := hpre.stocked hpos
      have hstock : after.Stocked o t n.toNat free' := ⟨hpre.owned, hgiven, hcount⟩
      exact hstock.promised
    · intro history last _ _ hlt
      omega
  · exact absurd hsucceed hfail

/-- The theorem applied to the first call on a thread, for one chunk. -/
theorem preallocate_keeps_promise_applies :
    ∃ after, (initial (Fin 2) ⟨fun _ ↦ 0, []⟩).preallocate small 0 1 ⟨65536, fun _ ↦ 0⟩
        (fun _ ↦ ⟨4096, fun _ ↦ 0⟩) = .ok (true, after) ∧
      (∀ id chunk, chunk ∈ after.live id ↔ chunk ∈ (initial (Fin 2) ⟨fun _ ↦ 0, []⟩).live id) ∧
      after.Promised small 0 (1 : ℤ).toNat := by
  let start : ObjectPool (Fin 2) := initial (Fin 2) ⟨fun _ ↦ 0, []⟩
  let arr : Answer := ⟨65536, fun _ ↦ 0⟩
  let page : Answer := ⟨4096, fun _ ↦ 0⟩
  have hreach : (service (Fin 2) small).Reachable start := ⟨[], .start ⟨_, rfl⟩⟩
  have harr : arr.addr ≠ 0 → start.heap.Fresh small.platform arr.addr (arrSize small 1) := by
    intro _
    decide
  have hfresh : (start.withArr small 1 arr).FreshFor small 0 page := by
    intro _ _
    decide
  have howned : start.Owned small fun _ ↦ [] := ⟨identified_initial _, shared_initial _⟩
  have hfits : ((start.withArr small 1 arr).poolOf small 0).Fits small.platform := by
    unfold Pool.Fits
    decide
  obtain ⟨result, after, hmalloc⟩ := malloc_succeeds (howned.withArr harr) (Or.inr (by decide))
    hfresh (by decide) fun _ ↦ ⟨by decide, hfits⟩
  obtain ⟨free, hobtained⟩ :=
    malloc_spec (howned.withArr harr) (Or.inr (by decide)) hfresh hmalloc
  apply preallocate_keeps_promise hreach
  · exact ⟨harr, hfresh, fun _ _ _ ↦ trivial⟩
  · intro _
    refine ⟨by decide, [result], after, ?_, by simpa using hobtained.nonnull.symm⟩
    change mallocs small 0 (fun _ ↦ page) 1 0 (start.withArr small 1 arr) = _
    simp only [mallocs, hmalloc, bind, Except.bind]
    rfl

end ObjectPool

end ServerCore.MemoryPool
