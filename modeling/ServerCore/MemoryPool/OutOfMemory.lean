import ServerCore.MemoryPool.GrowthLaws
import ServerCore.MemoryPool.Preallocate

/-!
# When `::malloc` refuses

`resize_and_malloc` returns null before it has touched anything if `::malloc` does, and `Preallocate`
tests every chunk against null. In between, the `malloc` of an `ObjectPool` writes the thread id behind
the requested bytes of the chunk, null or not, and `Preallocate` writes into an array that it never
tested.

The theorem says which calls do without a refusal. How many growths a `Preallocate` needs, and which of
its allocations ask for them, is computed from the factor and the length of the list before the call.
-/

namespace ServerCore.MemoryPool

open Foundation

namespace ObjectPool

variable {ι : Type} [DecidableEq ι] (o : Instantiation)

/-- How many chunks of the thread's pool no client holds. -/
def listed (s : ObjectPool ι) (t : ι) : ℕ :=
  ((s.poolOf o t).chunks o.platform).length - (s.live (s.threadId t)).length

/-- Every growth that `count` allocations need is granted and can be computed. The first allocation is
the one at `index`, and it finds the factor `nextSize` and a list of length `listed`. -/
def Supplied (answers : ℕ → Answer) : ℕ → ℕ → ℕ → ℕ → Prop
  | 0, _, _, _ => True
  | count + 1, index, nextSize, listed =>
    if 1 < listed then Supplied answers count (index + 1) nextSize (listed - 1)
    else (answers index).addr ≠ 0 ∧
      nextSize * o.newPool.allocSize + o.platform.ptrSize < o.platform.sizeModulus ∧
      Supplied answers count (index + 1) (nextSize * 2 % o.platform.sizeModulus)
        (listed + (nextSize - 1))

theorem supplied_succ (answers : ℕ → Answer) (count index nextSize listed : ℕ) :
    Supplied o answers (count + 1) index nextSize listed ↔
      if 1 < listed then Supplied o answers count (index + 1) nextSize (listed - 1)
      else (answers index).addr ≠ 0 ∧
        nextSize * o.newPool.allocSize + o.platform.ptrSize < o.platform.sizeModulus ∧
        Supplied o answers count (index + 1) (nextSize * 2 % o.platform.sizeModulus)
          (listed + (nextSize - 1)) :=
  Iff.rfl

/-- The contract of the clients and of `::malloc`. -/
def AllowedService (s : ObjectPool ι) : ServiceCall ι → Prop
  | .call call => s.Allowed o call
  | .preallocate t n arr answers => s.AllowsPreallocate o t n arr answers

/-- An allocation needs a growth, and `::malloc` answers null. -/
def Refused (s : ObjectPool ι) (t : ι) (answer : Answer) : Prop :=
  (s.poolOf o t).storage.empty = true ∧ answer.addr = 0

/-- The memory, the chunks in the hands of clients and the pool of every thread are what they were. -/
def Unharmed (s after : ObjectPool ι) : Prop :=
  after.heap = s.heap ∧ after.live = s.live ∧ ∀ u, after.poolOf o u = s.poolOf o u

/-- A refused allocation returns null and changes nothing. `Preallocate` returns false exactly if one of
its chunks is null, and keeps none. -/
def RefusalSafe (s : ObjectPool ι) : ServiceCall ι → Prop
  | .call (.malloc t answer) => s.Refused o t answer →
      ∃ after, s.malloc o t answer = .ok (0, after) ∧ s.Unharmed o after
  | .call (.construct t answer offset data throws) => s.Refused o t answer →
      ∃ after, s.construct o t answer offset data throws = .ok (0, after) ∧ s.Unharmed o after
  | .call (.free _ _) | .call (.destroy _ _ _ _) | .call (.overwrite _ _ _) => True
  | .preallocate t n arr answers => ∃ chunks filled ret after,
      (s.withArr o n arr).fillArr o t n arr answers n.toNat 0 = .ok (chunks, filled) ∧
      s.preallocate o t n arr answers = .ok (ret, after) ∧ (ret = false ↔ 0 ∈ chunks) ∧
      ∀ id chunk, chunk ∈ after.live id ↔ chunk ∈ s.live id

/-- Nothing that the call asks of `::malloc` is refused. A `Preallocate` of one chunk or more also needs
an id for the thread, room for the id in a chunk, and growths that do not wrap. -/
def Granted (s : ObjectPool ι) : ServiceCall ι → Prop
  | .call (.malloc t answer) | .call (.construct t answer _ _ _) => ¬ s.Refused o t answer
  | .call (.free _ _) | .call (.destroy _ _ _ _) | .call (.overwrite _ _ _) => True
  | .preallocate t n arr answers => 0 < n → arr.addr ≠ 0 ∧ s.HasRoom t ∧
      o.requestedSize + 2 < 2 ^ 32 ∧
      Supplied o answers n.toNat 0 (s.poolOf o t).nextSize (s.listed o t)

variable {o} {s after : ObjectPool ι} {free : ℕ → List ℕ} {t : ι} {answer : Answer}
  {answers : ℕ → Answer} {result count index : ℕ}

/-! ## One allocation -/

/-- The id that a thread is given belonged to nobody. -/
theorem threadId_malloc_new (hmalloc : s.malloc o t answer = .ok (result, after))
    (hnew : s.threadId t = 0) : after.threadId t = s.threadIdCounter + 1 := by
  obtain ⟨provided, -, -, -, -, hprovide, -, -, rfl⟩ := stages_of_malloc hmalloc
  unfold objectPool at hprovide
  rw [if_neg (not_not.mpr hnew)] at hprovide
  split at hprovide
  · rw [← Except.ok.inj hprovide]
    exact Function.update_self ..
  · cases hprovide

/-- What the pool of a thread without an id holds, the pool at its new id holds before the call. -/
theorem Owned.of_malloc (hs : s.Owned o free) (hmalloc : s.malloc o t answer = .ok (result, after)) :
    free (after.threadId t) = free (s.threadId t) ∧
      s.live (after.threadId t) = s.live (s.threadId t) := by
  by_cases hnew : s.threadId t = 0
  · have hzero := hs.2.absent _ hs.1.zero_absent
    have hnext := hs.2.absent _ hs.1.next_absent
    rw [threadId_malloc_new hmalloc hnew, hnew, hzero.1, hzero.2, hnext.1, hnext.2]
    exact ⟨rfl, rfl⟩
  · rw [threadId_malloc hmalloc hnew]
    exact ⟨rfl, rfl⟩

omit [DecidableEq ι] in
theorem Owned.length_add (hs : s.Owned o free) :
    (free (s.threadId t)).length + (s.live (s.threadId t)).length =
      ((s.poolOf o t).chunks o.platform).length := by
  cases hpool : s.objectPoolArray (s.threadId t) with
  | none =>
    rw [poolOf, hpool, (hs.2.absent _ hpool).1, (hs.2.absent _ hpool).2]
    rfl
  | some pool =>
    rw [poolOf, hpool, Option.getD_some, ← List.length_append]
    exact (hs.2.wellFormed _ _ hpool).partition.length_eq

omit [DecidableEq ι] in
/-- The chunks that no client holds are the ones on the list. -/
theorem Owned.listed_eq (hs : s.Owned o free) : s.listed o t = (free (s.threadId t)).length := by
  have hadd := hs.length_add (t := t)
  unfold listed
  omega

omit [DecidableEq ι] in
/-- A pool that has to grow has its sentinel on the list at most. -/
theorem Owned.listed_of_empty (hs : s.Owned o free)
    (hempty : (s.poolOf o t).storage.head = (s.poolOf o t).storage.tail) : ¬ 1 < s.listed o t := by
  rw [hs.listed_eq]
  intro htwo
  cases hpool : s.objectPoolArray (s.threadId t) with
  | none =>
    rw [(hs.2.absent _ hpool).1] at htwo
    exact absurd htwo (by decide)
  | some pool =>
    rw [poolOf, hpool, Option.getD_some] at hempty
    exact (hs.2.wellFormed _ _ hpool).head_ne_tail htwo hempty

omit [DecidableEq ι] in
theorem Owned.blockChain_poolOf (hs : s.Owned o free) :
    (s.poolOf o t).BlockChain o.platform s.heap ∧ (s.poolOf o t).allocSize = o.newPool.allocSize := by
  cases hpool : s.objectPoolArray (s.threadId t) with
  | none =>
    rw [poolOf, hpool]
    exact ⟨(Pool.wellFormed_construct o.platform s.heap _).blockChain, rfl⟩
  | some pool =>
    rw [poolOf, hpool]
    exact ⟨(hs.2.wellFormed _ _ hpool).blockChain, hs.2.allocSize _ _ hpool⟩

/-- What one allocation does to the factor and to the length of the list. -/
inductive Counted (o : Instantiation) (s : ObjectPool ι) (t : ι) (answer : Answer)
    (after : ObjectPool ι) : Prop
  | pop (hlisted : 1 < s.listed o t) (hafter : after.listed o t = s.listed o t - 1)
      (hsize : (after.poolOf o t).nextSize = (s.poolOf o t).nextSize)
  | grow (hlisted : ¬ 1 < s.listed o t) (haddr : answer.addr ≠ 0)
      (hfits : (s.poolOf o t).Fits o.platform)
      (hafter : after.listed o t = s.listed o t + ((s.poolOf o t).nextSize - 1))
      (hsize : (after.poolOf o t).nextSize =
        (s.poolOf o t).nextSize * 2 % o.platform.sizeModulus)

theorem counted_malloc (hs : s.Owned o free) (hfresh : s.FreshFor o t answer)
    (hmalloc : s.malloc o t answer = .ok (result, after)) : s.Counted o t answer after := by
  have hperform : s.perform o (.malloc t answer) = .ok (result, after) := hmalloc
  have hspace := hasRoom_of_perform hperform t rfl
  have hlength := hs.listed_eq (t := t)
  obtain ⟨hsame, hlive⟩ := hs.of_malloc hmalloc
  cases malloc_effect hs hspace hfresh hmalloc with
  | @pop rest hne hfree hobtained hblocks hpool =>
    have hrest := (hobtained.owned.of_live hobtained.live).2.1
    rw [Function.update_self] at hrest
    have hpos := List.length_pos_of_ne_nil hrest
    have hafter := hobtained.owned.listed_eq (t := t)
    rw [Function.update_self] at hafter
    rw [← hsame, hfree, List.length_cons] at hlength
    refine .pop (by omega) (by omega) ?_
    rw [hpool]
    rfl
  | @grow j hempty haddr hresult hobtained hpool =>
    have hwf := hobtained.owned.2.wellFormed _ _ (hobtained.owned.entry hobtained.given)
    rw [hpool] at hwf
    have hchain := hs.blockChain_poolOf (t := t)
    have hfits := hchain.1.fits_of_grown hwf.blockChain
    have hgrown := @Client.length_chunks_grown _ _ answer.addr j hchain.1.alloc_pos hfits
      hchain.1.requestSize_eq.1
    have hbefore := hs.length_add (t := t)
    have hcount := hobtained.owned.length_add (t := t)
    have hafter := hobtained.owned.listed_eq (t := t)
    rw [Function.update_self, List.length_append, hsame] at hafter
    rw [hpool, hgrown, live_malloc hmalloc, hlive, Function.update_self,
      Function.update_self, List.length_append, List.length_cons, hsame] at hcount
    refine .grow (hs.listed_of_empty hempty) haddr hfits (by omega) ?_
    rw [hpool]
    rfl

/-- `Malloc` has a result exactly if the thread has an id, the id has room in a chunk, and a growth that
is needed is granted and can be computed. -/
theorem exists_malloc_iff (hs : s.Owned o free) (hfresh : s.FreshFor o t answer) :
    (∃ result after, s.malloc o t answer = .ok (result, after)) ↔
      s.HasRoom t ∧ o.requestedSize + 2 < 2 ^ 32 ∧ (¬ 1 < s.listed o t →
        answer.addr ≠ 0 ∧ (s.poolOf o t).Fits o.platform) := by
  constructor
  · rintro ⟨result, after, hmalloc⟩
    have hperform : s.perform o (.malloc t answer) = .ok (result, after) := hmalloc
    have hspace := hasRoom_of_perform hperform t rfl
    obtain ⟨free', hobtained⟩ := malloc_spec hs hspace hfresh hmalloc
    refine ⟨hspace, (hobtained.owned.of_live hobtained.live).2.2.2.1, fun hshort ↦ ?_⟩
    cases counted_malloc hs hfresh hmalloc with
    | pop hlisted => exact absurd hlisted hshort
    | grow hlisted haddr hfits => exact ⟨haddr, hfits⟩
  · rintro ⟨hspace, hroom, hgrant⟩
    apply malloc_succeeds hs hspace hfresh hroom
    intro hempty
    exact hgrant (hs.listed_of_empty hempty)

/-- A refused `Malloc` has no result. -/
theorem not_refused_of_malloc (hs : s.Owned o free) (hfresh : s.FreshFor o t answer)
    (hmalloc : s.malloc o t answer = .ok (result, after)) : ¬ s.Refused o t answer := by
  have hperform : s.perform o (.malloc t answer) = .ok (result, after) := hmalloc
  rintro ⟨hempty, hnull⟩
  cases malloc_effect hs (hasRoom_of_perform hperform t rfl) hfresh hmalloc with
  | pop hne => exact hne (by simpa [SegregatedStorage.empty] using hempty)
  | grow hempty haddr => exact haddr hnull

/-! ## All allocations of a `Preallocate` -/

theorem exists_mallocs_iff (hs : s.Owned o free) (hfresh : s.AllFresh o t answers count index)
    (hspace : s.HasRoom t) (hroom : o.requestedSize + 2 < 2 ^ 32) :
    (∃ chunks last, s.mallocs o t answers count index = .ok (chunks, last)) ↔
      Supplied o answers count index (s.poolOf o t).nextSize (s.listed o t) := by
  induction count generalizing s free index with
  | zero => exact ⟨fun _ ↦ trivial, fun _ ↦ ⟨[], s, rfl⟩⟩
  | succ count ih =>
    obtain ⟨hfirst, hlater⟩ := hfresh
    have hsize := (hs.blockChain_poolOf (t := t)).2
    -- once the first allocation has a result, the list and the factor are what the count says
    have hstep {chunk : ℕ} {next : ObjectPool ι} (hmalloc : s.malloc o t (answers index) =
        .ok (chunk, next)) : (∃ chunks last, next.mallocs o t answers count (index + 1) =
          .ok (chunks, last)) ↔
        Supplied o answers (count + 1) index (s.poolOf o t).nextSize (s.listed o t) := by
      obtain ⟨free', hobtained⟩ := malloc_spec hs hspace hfirst hmalloc
      rw [ih hobtained.owned (hlater chunk next hmalloc) (Or.inl hobtained.given), supplied_succ]
      cases counted_malloc hs hfirst hmalloc with
      | pop hlisted hafter hfactor => rw [if_pos hlisted, hafter, hfactor]
      | grow hlisted haddr hfits hafter hfactor =>
        unfold Pool.Fits at hfits
        rw [hsize] at hfits
        rw [if_neg hlisted, hafter, hfactor]
        exact ⟨fun hrest ↦ ⟨haddr, hfits, hrest⟩, fun hall ↦ hall.2.2⟩
    constructor
    · rintro ⟨chunks, last, hmallocs⟩
      obtain ⟨⟨chunk, next⟩, hmalloc, hmallocs⟩ := exists_ok_of_bind hmallocs
      obtain ⟨⟨rest, last⟩, hrest, -⟩ := exists_ok_of_bind hmallocs
      exact (hstep hmalloc).mp ⟨rest, last, hrest⟩
    · intro hsupplied
      have hgrant : ¬ 1 < s.listed o t →
          (answers index).addr ≠ 0 ∧ (s.poolOf o t).Fits o.platform := by
        intro hshort
        rw [supplied_succ, if_neg hshort, ← hsize] at hsupplied
        exact ⟨hsupplied.1, hsupplied.2.1⟩
      obtain ⟨chunk, next, hmalloc⟩ := (exists_malloc_iff hs hfirst).mpr ⟨hspace, hroom, hgrant⟩
      obtain ⟨rest, last, hrest⟩ := (hstep hmalloc).mpr hsupplied
      refine ⟨chunk :: rest, last, ?_⟩
      unfold mallocs
      simp only [hmalloc, hrest, bind, Except.bind]
      rfl

omit [DecidableEq ι] in
/-- The array that `Preallocate` asks for is no part of any pool. -/
theorem poolOf_withArr (n : ℤ) (arr : Answer) :
    (s.withArr o n arr).poolOf o t = s.poolOf o t ∧ (s.withArr o n arr).listed o t = s.listed o t ∧
      ((s.withArr o n arr).HasRoom t ↔ s.HasRoom t) := by
  unfold ObjectPool.withArr
  split <;> exact ⟨rfl, rfl, Iff.rfl⟩

/-- The allocations of a `Preallocate` succeed exactly if nothing it asks for is refused. -/
theorem allocationsSucceed_iff (hs : s.Owned o free) {n : ℤ} {arr : Answer}
    (hallows : s.AllowsPreallocate o t n arr answers) :
    s.AllocationsSucceed o t n arr answers ↔ s.Granted o (.preallocate t n arr answers) := by
  obtain ⟨harr, hfresh⟩ := hallows
  have hstart := hs.withArr harr
  obtain ⟨hpool, hlisted, hspace⟩ := poolOf_withArr (o := o) (s := s) (t := t) n arr
  apply forall_congr'
  intro hpos
  apply and_congr_right
  intro _
  constructor
  · rintro ⟨chunks, last, hmallocs, -⟩
    have hcount : n.toNat = n.toNat - 1 + 1 := by omega
    have hfirst := hmallocs
    rw [hcount] at hfirst hfresh
    obtain ⟨⟨chunk, next⟩, hmalloc, -⟩ := exists_ok_of_bind hfirst
    obtain ⟨hroom, hunsigned, -⟩ := (exists_malloc_iff hstart hfresh.1).mp ⟨chunk, next, hmalloc⟩
    rw [← hcount] at hfresh
    refine ⟨hspace.mp hroom, hunsigned, ?_⟩
    rw [← hpool, ← hlisted]
    exact (exists_mallocs_iff hstart hfresh hroom hunsigned).mp ⟨chunks, last, hmallocs⟩
  · rintro ⟨hroom, hunsigned, hsupplied⟩
    rw [← hpool, ← hlisted] at hsupplied
    obtain ⟨chunks, last, hmallocs⟩ :=
      (exists_mallocs_iff hstart hfresh (hspace.mpr hroom) hunsigned).mpr hsupplied
    obtain ⟨free', hfilled⟩ := mallocs_spec hstart hfresh hmallocs
    exact ⟨chunks, last, hmallocs, hfilled.nonnull⟩

/-! ## Every call -/

/-- **Out of memory.** `Pool::Malloc` answers a refusal with null, without an access to memory. In every
state that calls of an object pool reach, a call of the object pool does what is asked of it if and only
if nothing that it asks for is refused. -/
theorem refusalSafe_iff (hreach : (service ι o).Reachable s) {call : ServiceCall ι}
    (hallowed : s.AllowedService o call) :
    (∀ (pool : Pool) heap (answer : Answer), pool.storage.empty = true → answer.addr = 0 →
        pool.malloc o.platform heap answer = .ok (0, heap, pool)) ∧
      (s.RefusalSafe o call ↔ s.Granted o call) := by
  constructor
  · intro pool heap answer hempty hnull
    exact Pool.malloc_of_null (by simpa [SegregatedStorage.empty] using hempty) hnull
  obtain ⟨free, howned⟩ := owned_of_service hreach
  cases call with
  | call call =>
    cases call with
    | malloc t answer =>
      constructor
      · intro hsafe hrefused
        obtain ⟨after, hmalloc, -⟩ := hsafe hrefused
        exact not_refused_of_malloc howned hallowed hmalloc hrefused
      · exact fun hgranted hrefused ↦ absurd hrefused hgranted
    | construct t answer offset data throws =>
      constructor
      · intro hsafe hrefused
        obtain ⟨after, hconstruct, -⟩ := hsafe hrefused
        obtain ⟨⟨chunk, next⟩, hmalloc, -⟩ := exists_ok_of_bind hconstruct
        exact not_refused_of_malloc howned hallowed.1 hmalloc hrefused
      · exact fun hgranted hrefused ↦ absurd hrefused hgranted
    | free t chunk | destroy t chunk offset data | overwrite chunk offset data => exact Iff.rfl
  | preallocate t n arr answers =>
    rw [← allocationsSucceed_iff howned hallowed]
    rcases preallocate_cases howned hallowed with
      ⟨hsucceed, after, free', hok, hpre⟩ | ⟨hfail, fault, herror⟩
    · refine ⟨fun _ ↦ hsucceed, fun _ ↦ ?_⟩
      obtain ⟨⟨chunks, filled⟩, hfill, -⟩ := exists_ok_of_bind hok
      have hmallocs := (mallocs_of_fillArr hfill).1
      obtain ⟨free'', hfilled⟩ := mallocs_spec (howned.withArr hallowed.1) hallowed.2 hmallocs
      refine ⟨chunks, filled, true, after, hfill, hok, ?_, hpre.live⟩
      simpa using hfilled.nonnull
    · constructor
      · rintro ⟨chunks, filled, ret, after, -, hok, -⟩
        rw [herror] at hok
        cases hok
      · exact fun hsucceed ↦ absurd hsucceed hfail

/-- The first `Malloc` of a thread is refused: the thread id is written to an address that is no memory. -/
theorem refusalSafe_fails : ¬ ∀ s, (service (Fin 1) small).Reachable s → ∀ call,
    s.AllowedService small call → s.RefusalSafe small call := by
  intro hclaim
  have hreach : (service (Fin 1) small).Reachable (initial (Fin 1) ⟨fun _ ↦ 0, []⟩) :=
    ⟨[], .start ⟨_, rfl⟩⟩
  have hallowed : (initial (Fin 1) ⟨fun _ ↦ 0, []⟩).AllowedService small
      (.call (.malloc 0 ⟨0, fun _ ↦ 0⟩)) := fun _ hne ↦ absurd rfl hne
  obtain ⟨after, hmalloc, -⟩ := hclaim _ hreach _ hallowed ⟨by decide, rfl⟩
  cases hmalloc

/-- The characterisation applied to the first call of a thread, a `Preallocate` of one chunk. -/
theorem refusalSafe_iff_applies :
    (∀ (pool : Pool) heap (answer : Answer), pool.storage.empty = true → answer.addr = 0 →
        pool.malloc .x64 heap answer = .ok (0, heap, pool)) ∧
      ((initial (Fin 1) ⟨fun _ ↦ 0, []⟩).RefusalSafe small
          (.preallocate 0 1 ⟨0, fun _ ↦ 0⟩ fun _ ↦ ⟨0, fun _ ↦ 0⟩) ↔
        (initial (Fin 1) ⟨fun _ ↦ 0, []⟩).Granted small
          (.preallocate 0 1 ⟨0, fun _ ↦ 0⟩ fun _ ↦ ⟨0, fun _ ↦ 0⟩)) := by
  have hreach : (service (Fin 1) small).Reachable (initial (Fin 1) ⟨fun _ ↦ 0, []⟩) :=
    ⟨[], .start ⟨_, rfl⟩⟩
  apply refusalSafe_iff hreach
  exact ⟨fun hne ↦ absurd rfl hne, fun _ hne ↦ absurd rfl hne, fun _ _ _ ↦ trivial⟩

end ObjectPool

end ServerCore.MemoryPool
