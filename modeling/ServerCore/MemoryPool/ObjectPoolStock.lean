import ServerCore.MemoryPool.ObjectPoolRun
import ServerCore.MemoryPool.PoolStock

/-!
# An object pool as one stock of chunks for each thread

`Depot` says what an `ObjectPool` is for, without memory, without ids and without tags: every thread
has a warehouse of its own, to which a chunk goes back from wherever it is freed. The object pool finds
the warehouse through the tag it wrote behind the chunk, the array and the thread-local id; it does
what the depot does all the same.

A depot falls apart into its warehouses. So what `Malloc` gives a thread depends only on the thread's
own calls and on the frees of its chunks by others.
-/

namespace ServerCore.MemoryPool

open Foundation

/-- The warehouses of the threads, and the thread to which a chunk was handed out last. -/
structure Depot (ι : Type) where
  warehouse : ι → Warehouse
  owner : ℕ → Option ι

namespace Depot

variable {ι : Type} [DecidableEq ι] (o : Instantiation)

omit [DecidableEq ι] in
def initial (ι : Type) (o : Instantiation) : Depot ι where
  warehouse _ := Warehouse.construct o.platform ((o.requestedSize + 2) % 2 ^ 32)
  owner _ := none

def malloc (d : Depot ι) (t : ι) (addr : ℕ) : ℕ × Depot ι :=
  (((d.warehouse t).malloc o.platform addr).1,
    { warehouse := Function.update d.warehouse t ((d.warehouse t).malloc o.platform addr).2
      owner := Function.update d.owner ((d.warehouse t).malloc o.platform addr).1 (some t) })

/-- The owner uses a chunk again at once; others put it behind all that the owner has. -/
def giveBack (t owner : ι) (chunk : ℕ) : StockCall ℕ :=
  if t = owner then .give chunk else .giveLast chunk

def free (d : Depot ι) (t : ι) (chunk : ℕ) : Depot ι :=
  match d.owner chunk with
  | none => d
  | some owner =>
    { d with
      warehouse := Function.update d.warehouse owner
        ((d.warehouse owner).accept (giveBack t owner chunk)) }

/-- A constructor that throws gives the chunk back to the thread itself. -/
def perform (d : Depot ι) : ObjectPoolCall ι → ℕ × Depot ι
  | .malloc t answer => d.malloc o t answer.addr
  | .construct t answer _ _ throws =>
    if throws then (0, (d.malloc o t answer.addr).2.free t (d.malloc o t answer.addr).1)
    else d.malloc o t answer.addr
  | .free t chunk | .destroy t chunk _ _ => (0, d.free t chunk)
  | .overwrite _ _ _ => (0, d)

end Depot

namespace ObjectPool

variable {ι : Type} {o : Instantiation} {s provided after : ObjectPool ι} {free : ℕ → List ℕ}
  {d : Depot ι} {t u : ι} {chunk : ℕ}

/-- The depot describes the object pool, whose free lists are these. -/
structure Depicted (o : Instantiation) (s : ObjectPool ι) (free : ℕ → List ℕ) (d : Depot ι) :
    Prop where
  owned : s.Owned o free
  warehouse : ∀ t, d.warehouse t =
    ⟨(s.poolOf o t).allocSize, (s.poolOf o t).nextSize, free (s.threadId t)⟩
  owner : ∀ t, ∀ chunk ∈ s.live (s.threadId t), d.owner chunk = some t

theorem depicted_initial (o : Instantiation) (heap : Heap) :
    (initial ι heap).Depicted o (fun _ ↦ []) (Depot.initial ι o) where
  owned := ⟨identified_initial heap, shared_initial heap⟩
  warehouse _ := rfl
  owner _ _ hlive := absurd hlive List.not_mem_nil

variable [DecidableEq ι]

theorem threadId_objectPool_of_ne (hprovide : s.objectPool o t = .ok provided) (hne : u ≠ t) :
    provided.threadId u = s.threadId u := by
  unfold objectPool at hprovide
  split at hprovide
  · rw [← Except.ok.inj hprovide]
  · split at hprovide
    · rw [← Except.ok.inj hprovide]
      exact Function.update_of_ne hne _ _
    · cases hprovide

/-- Each thread keeps its pool when one enters. -/
theorem Provided.poolOf_eq (hp : s.Provided o t free provided) (hs : s.Owned o free)
    (hprovide : s.objectPool o t = .ok provided) (u : ι) :
    provided.poolOf o u = s.poolOf o u := by
  by_cases hut : u = t
  · rw [hut, ObjectPool.poolOf, hp.pool]
    rfl
  · unfold poolOf
    rw [threadId_objectPool_of_ne hprovide hut]
    cases hpool : s.objectPoolArray (s.threadId u) with
    | some pool => rw [hp.kept _ _ hpool]
    | none =>
      have hnew : s.threadId u = 0 := by
        by_contra hgiven
        exact (hs.1.named _).mpr ⟨hgiven, u, rfl⟩ hpool
      rw [hnew, hp.identified.zero_absent]

/-- And its free list, which is empty when the thread is new. -/
theorem Provided.free_eq (hp : s.Provided o t free provided) (hs : s.Owned o free)
    (hprovide : s.objectPool o t = .ok provided) (u : ι) :
    free (provided.threadId u) = free (s.threadId u) := by
  by_cases hut : u = t
  · by_cases hnew : s.threadId t = 0
    · have habsent : s.objectPoolArray (provided.threadId t) = none := by
        by_contra hsome
        obtain ⟨-, v, hv⟩ := (hs.1.named _).mp hsome
        have hne : v ≠ t := by
          rintro rfl
          rw [hnew] at hv
          exact hp.given hv.symm
        rw [← threadId_objectPool_of_ne hprovide hne] at hv
        exact hne (hp.identified.injective v t (hv ▸ hp.given) hv)
      rw [hut, hnew, (hs.2.absent _ habsent).1, (hs.2.absent _ hs.1.zero_absent).1]
    · rw [hut, threadId_objectPool hprovide hnew]
  · rw [threadId_objectPool_of_ne hprovide hut]

theorem Depicted.provide (hd : s.Depicted o free d) (hprovide : s.objectPool o t = .ok provided)
    (hp : s.Provided o t free provided) : provided.Depicted o free d where
  owned := ⟨hp.identified, hp.shared⟩
  warehouse u := by
    rw [hp.poolOf_eq hd.owned hprovide, hp.free_eq hd.owned hprovide]
    exact hd.warehouse u
  owner u chunk hlive := by
    rw [hp.live] at hlive
    obtain ⟨pool, hpool, -⟩ := hd.owned.2.exists_pool hlive
    obtain ⟨hne, v, hv⟩ := (hd.owned.1.named (provided.threadId u)).mp (by simp [hpool])
    have hgiven : s.threadId v ≠ 0 := by rwa [hv]
    have hkept := threadId_objectPool hprovide hgiven
    have hsame : v = u := hp.identified.injective v u (by rwa [hkept]) (hkept.trans hv)
    rw [← hv, hsame] at hlive
    exact hd.owner u chunk hlive

/-- The pool of one thread changes, and no chunk of another one. -/
theorem Depicted.install (hs : s.Depicted o free d) (hgiven : s.threadId t ≠ 0) {pool : Pool}
    {heap : Heap} {chunks list : List ℕ} {w : Warehouse} {owner : ℕ → Option ι}
    (howned : (s.install (s.threadId t) pool heap chunks).Owned o
      (Function.update free (s.threadId t) list))
    (hw : pool.Stocked o.platform heap chunks w) (howner : ∀ chunk ∈ chunks, owner chunk = some t)
    (hothers : ∀ u, u ≠ t → ∀ chunk ∈ s.live (s.threadId u), owner chunk = d.owner chunk) :
    (s.install (s.threadId t) pool heap chunks).Depicted o
      (Function.update free (s.threadId t) list)
      ⟨Function.update d.warehouse t w, owner⟩ where
  owned := howned
  warehouse u := by
    by_cases hut : u = t
    · have hself := howned.2.wellFormed (s.threadId t) pool (by simp [ObjectPool.install])
      have hlist : list = w.stock := by
        simp only [Function.update_self, ObjectPool.install] at hself
        exact hself.freeList.unique hw.wellFormed.freeList
      rw [hut]
      simp [ObjectPool.install, poolOf, hlist, ← hw.allocSize, ← hw.nextSize]
    · have hid : s.threadId u ≠ s.threadId t := by
        intro heq
        exact hut (hs.owned.1.injective u t (heq ▸ hgiven) heq)
      simp only [ObjectPool.install, poolOf, Function.update_of_ne hut, Function.update_of_ne hid]
      exact hs.warehouse u
  owner u chunk hlive := by
    by_cases hut : u = t
    · rw [hut] at hlive ⊢
      apply howner
      simpa [ObjectPool.install] using hlive
    · have hid : s.threadId u ≠ s.threadId t := by
        intro heq
        exact hut (hs.owned.1.injective u t (heq ▸ hgiven) heq)
      simp only [ObjectPool.install, Function.update_of_ne hid] at hlive
      exact (hothers u hut chunk hlive).trans (hs.owner u chunk hlive)

/-- If the call needs a growth, it is granted, and its size does not wrap. -/
def GrowthGranted (o : Instantiation) (s : ObjectPool ι) : ObjectPoolCall ι → Prop
  | .malloc t answer | .construct t answer _ _ _ =>
    (s.poolOf o t).storage.head = (s.poolOf o t).storage.tail →
      answer.addr ≠ 0 ∧ (s.poolOf o t).Fits o.platform
  | .free _ _ | .destroy _ _ _ _ | .overwrite _ _ _ => True

/-- `Malloc` takes a chunk from the pool of the thread and writes the tag into it. -/
theorem Depicted.malloc_eq (hd : s.Depicted o free d) (hroom : o.requestedSize + 2 < 2 ^ 32)
    (hp : s.Provided o t free provided) (hprovide : s.objectPool o t = .ok provided)
    {answer : Answer} (hfresh : s.FreshFor o t answer) (hgrant : s.GrowthGranted o (.malloc t answer))
    {result : ℕ} {w : Warehouse}
    (hresult : (d.warehouse t).malloc o.platform answer.addr = (result, w)) :
    ∃ heap pool, s.malloc o t answer = .ok (result, provided.install (provided.threadId t) pool
        heap (result :: provided.live (provided.threadId t))) ∧
      pool.Stocked o.platform heap (result :: provided.live (provided.threadId t)) w := by
  have hw := hp.shared.wellFormed _ _ hp.pool
  have hstocked : (s.poolOf o t).Stocked o.platform provided.heap
      (provided.live (provided.threadId t)) (d.warehouse t) := by
    rw [(hd.provide hprovide hp).warehouse t, hp.poolOf_eq hd.owned hprovide]
    exact ⟨hw, rfl, rfl⟩
  rw [FreshFor, ← hp.heap] at hfresh
  obtain ⟨heap, pool, hmalloc, -, hafter⟩ := hstocked.malloc_of_granted hfresh hgrant
  have halloc : pool.allocSize = (s.poolOf o t).allocSize :=
    hafter.allocSize.symm.trans hstocked.allocSize
  rw [hresult] at hmalloc hafter
  have hfit := room_of_unwrapped hroom
  rw [← hp.shared.allocSize _ _ hp.pool, ← halloc] at hfit
  have hmem := hafter.wellFormed.live_mem List.mem_cons_self
  have hstore := storeTag_eq_ok hafter.wellFormed hmem hfit (provided.threadId t)
  refine ⟨o.setTag heap result (provided.threadId t), pool, ?_, ?_, hafter.allocSize,
    hafter.nextSize⟩
  · unfold ObjectPool.malloc
    simp only [hprovide, bind, Except.bind, hp.identified.poolAt_eq hp.pool, hmalloc, hstore]
    rfl
  · apply hafter.wellFormed.frame_live (o.setTag heap result (provided.threadId t))
      List.mem_cons_self rfl
    exact fun x hx ↦ Instantiation.setTag_bytes_of_outside hfit hx

/-- A `Malloc` that succeeds owns the memory it leaves. -/
theorem owned_of_malloc (hs : s.Owned o free) (hspace : s.HasRoom t) {answer : Answer}
    (hfresh : s.FreshFor o t answer) {result : ℕ} (hmalloc : s.malloc o t answer = .ok (result, after)) :
    ∃ list, s.Obtained o t result after (Function.update free (after.threadId t) list) := by
  cases malloc_effect hs hspace hfresh hmalloc with
  | pop hne hfree hobtained => exact ⟨_, hobtained⟩
  | grow hempty haddr hgrown hobtained => exact ⟨_, hobtained⟩

/-- `Malloc` returns what the warehouse of the thread hands out. -/
theorem Depicted.malloc (hd : s.Depicted o free d) (hroom : o.requestedSize + 2 < 2 ^ 32)
    (hspace : s.HasRoom t) {answer : Answer} (hfresh : s.FreshFor o t answer)
    (hgrant : s.GrowthGranted o (.malloc t answer)) :
    ∃ after free', s.malloc o t answer = .ok ((d.malloc o t answer.addr).1, after) ∧
      after.Depicted o free' (d.malloc o t answer.addr).2 ∧
      s.Obtained o t (d.malloc o t answer.addr).1 after free' := by
  obtain ⟨provided, hprovide, hp⟩ := objectPool_spec hd.owned.1 hd.owned.2 hspace
  obtain ⟨heap, pool, hmalloc, hafter⟩ := hd.malloc_eq hroom hp hprovide hfresh hgrant rfl
  obtain ⟨list, hobtained⟩ := owned_of_malloc hd.owned hspace hfresh hmalloc
  refine ⟨_, _, hmalloc, ?_, hobtained⟩
  have hne (u : ι) (chunk : ℕ) (hlive : chunk ∈ provided.live (provided.threadId u)) :
      chunk ≠ (d.malloc o t answer.addr).1 := by
    rintro rfl
    rw [hp.live] at hlive
    exact hobtained.notLive _ hlive
  apply (hd.provide hprovide hp).install hp.given hobtained.owned hafter
  · intro chunk hchunk
    rcases List.mem_cons.mp hchunk with rfl | hold
    · exact Function.update_self _ _ _
    · exact (Function.update_of_ne (hne t chunk hold) _ _).trans
        ((hd.provide hprovide hp).owner t chunk hold)
  · intro u hu chunk hchunk
    exact Function.update_of_ne (hne u chunk hchunk) _ _

/-- A chunk goes to the front of the thread's own list, or to the end of another one's. -/
theorem free_or_freeAppend {p : Platform} {h : Heap} {pool : Pool} {live : List ℕ} {w : Warehouse}
    (hs : pool.Stocked p h live w) (hlive : chunk ∈ live) {own : Prop} [Decidable own]
    (hown : own ↔ t = u) :
    ∃ heap pool', (if own then pool.free p h chunk else pool.freeAppend p h chunk) =
        .ok (heap, pool') ∧
      pool'.Stocked p heap (live.erase chunk) (w.accept (Depot.giveBack t u chunk)) := by
  unfold Depot.giveBack
  by_cases htu : t = u
  · rw [if_pos (hown.mpr htu), if_pos htu]
    exact hs.free_spec hlive
  · rw [if_neg (mt hown.mp htu), if_neg htu]
    exact hs.freeAppend_spec hlive

/-- `Free` reads the tag and puts the chunk on the list of the pool that the tag selects. -/
theorem Depicted.free_eq (hd : provided.Depicted o free d) (hprovide : s.objectPool o t = .ok provided)
    (hlive : chunk ∈ provided.live (provided.threadId u)) :
    ∃ heap pool, s.free o t chunk = .ok (provided.install (provided.threadId u) pool heap
        ((provided.live (provided.threadId u)).erase chunk)) ∧
      pool.Stocked o.platform heap ((provided.live (provided.threadId u)).erase chunk)
        ((d.warehouse u).accept (Depot.giveBack t u chunk)) := by
  obtain ⟨hid, hs⟩ := hd.owned
  obtain ⟨pool, hpool, hmem⟩ := hs.exists_pool hlive
  have hgiven := ((hid.named (provided.threadId u)).mp (by simp [hpool])).1
  have hw := hs.wellFormed _ pool hpool
  have hfit := room_of_unwrapped (hs.room_of_mem hpool hmem)
  rw [← hs.allocSize _ pool hpool] at hfit
  have hload : o.loadTag provided.heap chunk = .ok (provided.threadId u) := by
    unfold Instantiation.loadTag
    rw [if_pos (sameBlock_tag hw hmem hfit), hs.tagged _ chunk hlive]
  have hstocked : pool.Stocked o.platform provided.heap (provided.live (provided.threadId u))
      (d.warehouse u) := by
    have hview := hd.warehouse u
    rw [poolOf, hpool, Option.getD_some] at hview
    rw [hview]
    exact ⟨hw, rfl, rfl⟩
  have hown : provided.threadId u = provided.threadId t ↔ t = u := by
    constructor
    · intro heq
      exact (hid.injective u t hgiven heq).symm
    · rintro rfl
      rfl
  obtain ⟨heap, pool', hgive, hafter⟩ := free_or_freeAppend hstocked hlive hown
  refine ⟨heap, pool', ?_, hafter⟩
  rw [← hs.install_dropped hlive]
  unfold ObjectPool.free
  simp only [hprovide, bind, Except.bind, hload, hid.poolAt_eq hpool]
  by_cases hsame : provided.threadId u = provided.threadId t
  · rw [if_pos hsame] at hgive ⊢
    rw [hgive]
    rfl
  · rw [if_neg hsame] at hgive ⊢
    rw [hgive]
    rfl

/-- `Free` finds the warehouse that the chunk came from. -/
theorem Depicted.freed (hd : s.Depicted o free d) (hspace : s.HasRoom t) (hlive : s.Live chunk) :
    ∃ after free', s.free o t chunk = .ok after ∧ after.Depicted o free' (d.free t chunk) := by
  obtain ⟨id, hlive⟩ := hlive
  obtain ⟨after, list, hfree, hback⟩ := free_effect hd.owned hspace hlive
  obtain ⟨provided, hprovide, hp⟩ := objectPool_spec hd.owned.1 hd.owned.2 hspace
  have hd' := hd.provide hprovide hp
  rw [← hp.live] at hlive
  obtain ⟨pool, hpool, -⟩ := hp.shared.exists_pool hlive
  obtain ⟨hgiven, u, rfl⟩ := (hp.identified.named id).mp (by simp [hpool])
  obtain ⟨heap, pool', hresult, hafter⟩ := hd'.free_eq hprovide hlive
  have howned := hback.owned
  rw [← Except.ok.inj (hresult.symm.trans hfree)] at howned
  have hdepot : d.free t chunk = ⟨Function.update d.warehouse u
      ((d.warehouse u).accept (Depot.giveBack t u chunk)), d.owner⟩ := by
    unfold Depot.free
    rw [hd'.owner u chunk hlive]
  rw [hdepot]
  refine ⟨_, Function.update free (provided.threadId u) list, hresult, ?_⟩
  apply hd'.install hgiven howned hafter
  · intro other hother
    exact hd'.owner u other (List.mem_of_mem_erase hother)
  · intro _ _ _ _
    rfl

omit [DecidableEq ι] in
/-- A client writes the requested bytes of a chunk it holds. -/
theorem Depicted.overwrite (hd : s.Depicted o free d) (hlive : s.Live chunk) {offset : ℕ}
    {data : List UInt8} (hoffset : offset + data.length ≤ o.requestedSize) :
    (s.overwrite (chunk + offset) data).Depicted o free d := by
  obtain ⟨id, hlive⟩ := hlive
  exact ⟨hd.owned.overwrite hlive hoffset, hd.warehouse, hd.owner⟩

/-- A call within the contract, by a thread that there is an id for, whose growth is granted. -/
def InContract (o : Instantiation) (s : ObjectPool ι) (call : ObjectPoolCall ι) : Prop :=
  s.Allowed o call ∧ (∀ t, call.caller = some t → s.HasRoom t) ∧ s.GrowthGranted o call

/-- Every call has the result that the depot gives. -/
theorem describes (hroom : o.requestedSize + 2 < 2 ^ 32) :
    Machine.Describes (fun (s : ObjectPool ι) d ↦ ∃ free, s.Depicted o free d) (InContract o)
      (perform o) (Depot.perform o) := by
  rintro s d call ⟨free, hd⟩ ⟨hallowed, hspace, hgrant⟩
  cases call with
  | malloc t answer =>
    obtain ⟨after, free', hmalloc, hafter, -⟩ := hd.malloc hroom (hspace t rfl) hallowed hgrant
    exact ⟨after, hmalloc, free', hafter⟩
  | construct t answer offset data throws =>
    obtain ⟨middle, free', hmalloc, hmiddle, hobtained⟩ :=
      hd.malloc hroom (hspace t rfl) hallowed.1 hgrant
    have hlive : middle.Live (d.malloc o t answer.addr).1 := ⟨_, hobtained.live⟩
    have hwritten := hmiddle.overwrite hlive (hallowed.2.trans o.fits)
    cases throws with
    | false =>
      refine ⟨_, ?_, free', hwritten⟩
      simp only [perform, construct, hmalloc, bind, Except.bind]
      rfl
    | true =>
      obtain ⟨last, free'', hfree, hlast⟩ := hwritten.freed (Or.inl hobtained.given) hlive
      refine ⟨last, ?_, free'', hlast⟩
      simp only [perform, construct, hmalloc, bind, Except.bind, if_true, hfree]
      rfl
  | free t chunk =>
    obtain ⟨after, free', hfree, hafter⟩ := hd.freed (hspace t rfl) hallowed
    refine ⟨after, ?_, free', hafter⟩
    simp only [perform, hfree]
    rfl
  | destroy t chunk offset data =>
    have hwritten := hd.overwrite hallowed.1 (hallowed.2.trans o.fits)
    obtain ⟨after, free', hfree, hafter⟩ := hwritten.freed (hspace t rfl) hallowed.1
    refine ⟨after, ?_, free', hafter⟩
    simp only [perform, destroy, hfree]
    rfl
  | overwrite chunk offset data =>
    exact ⟨_, rfl, free, hd.overwrite hallowed.1 hallowed.2⟩

/-- **Refinement.** Whatever any threads call on an object pool within the contract, in any order, on
any heap, the calls go through and their results are those of the depot; every thread's free list is
the stock of its warehouse in order. -/
theorem results_eq_depot (hroom : o.requestedSize + 2 < 2 ^ 32) (heap : Heap)
    {calls : List (ObjectPoolCall ι)}
    (hfed : Machine.FedWell (InContract o) (perform o) (initial ι heap) calls) :
    ∃ last free, Machine.feed (perform o) (initial ι heap) calls =
        .ok ((Machine.answers (Depot.perform o) (Depot.initial ι o) calls).1, last) ∧
      last.Ownership o free ∧ ∀ t, free (last.threadId t) =
        ((Machine.answers (Depot.perform o) (Depot.initial ι o) calls).2.warehouse t).stock := by
  obtain ⟨last, hfeed, free, hlast⟩ :=
    (describes hroom).feed_eq ⟨_, depicted_initial o heap⟩ hfed
  refine ⟨last, free, hfeed, hlast.owned.ownership, ?_⟩
  intro t
  rw [hlast.warehouse t]

/-- A thread takes a chunk, and another one frees it. -/
def borrowed : List (ObjectPoolCall (Fin 2)) :=
  [.malloc 0 ⟨4096, fun _ ↦ 0⟩, .free 1 4104]

theorem inContract_first (t : Fin 2) (byte : UInt8) :
    (initial (Fin 2) ⟨fun _ ↦ byte, []⟩).InContract small (.malloc t ⟨4096, fun _ ↦ byte⟩) := by
  have hcard : Fintype.card (Fin 2) ≤ maxThreadNum := by decide
  refine ⟨?_, fun u _ ↦ (identified_initial _).hasRoom hcard u, ?_⟩
  · intro _ _
    refine ⟨Nat.succ_pos _, ?_, fun b hb ↦ absurd hb List.not_mem_nil⟩
    change 4096 + small.newPool.requestSize .x64 ≤ Platform.x64.sizeModulus
    decide
  · intro _
    refine ⟨Nat.succ_ne_zero _, ?_⟩
    change Pool.Fits .x64 small.newPool
    unfold Pool.Fits
    decide

theorem borrowed_fedWell :
    Machine.FedWell (InContract small) (perform small) (initial (Fin 2) ⟨fun _ ↦ 0, []⟩)
      borrowed := by
  refine ⟨inContract_first 0 0, ?_⟩
  intro answer next hperform
  obtain ⟨next', hnext, free, hd⟩ := describes (by decide) _ _ _
    ⟨_, depicted_initial small ⟨fun _ ↦ 0, []⟩⟩ (inContract_first 0 0)
  rw [hperform, Except.ok.injEq, Prod.mk.injEq] at hnext
  obtain ⟨hanswer, rfl⟩ := hnext
  have hchunk : answer = 4104 := hanswer.trans (by decide)
  have hlive : next.live = _ := live_malloc hperform
  refine ⟨⟨⟨next.threadId 0, ?_⟩, ?_, trivial⟩, fun _ _ _ ↦ trivial⟩
  · rw [hlive, Function.update_self, hchunk]
    exact List.mem_cons_self
  · exact fun u _ ↦ hd.owned.1.hasRoom (by decide) u

/-- The refinement applied to a chunk that travels. -/
theorem results_eq_depot_borrowed :
    ∃ last free, Machine.feed (perform small) (initial (Fin 2) ⟨fun _ ↦ 0, []⟩) borrowed =
        .ok ((Machine.answers (Depot.perform small) (Depot.initial (Fin 2) small) borrowed).1, last) ∧
      last.Ownership small free ∧ ∀ t, free (last.threadId t) =
        ((Machine.answers (Depot.perform small) (Depot.initial (Fin 2) small) borrowed).2.warehouse
          t).stock :=
  results_eq_depot (by decide) _ borrowed_fedWell

end ObjectPool

/-! ## What a thread gets depends on its own dealings -/

namespace Depot

variable {ι : Type} [DecidableEq ι] (o : Instantiation)

/-- What the warehouse of thread `t` sees of a chunk that thread `u` frees. -/
def returned (d : Depot ι) (t u : ι) (chunk : ℕ) : List PoolCall :=
  if d.owner chunk = some t then [if u = t then .free chunk else .freeAppend chunk] else []

/-- What it sees of a call. -/
def dealing (d : Depot ι) (t : ι) : ObjectPoolCall ι → List PoolCall
  | .malloc u answer => if u = t then [.malloc ⟨answer.addr, fun _ ↦ 0⟩] else []
  | .construct u answer _ _ throws =>
    if u = t then .malloc ⟨answer.addr, fun _ ↦ 0⟩ ::
      (if throws then [.free (d.malloc o t answer.addr).1] else [])
    else []
  | .free u chunk | .destroy u chunk _ _ => d.returned t u chunk
  | .overwrite _ _ _ => []

/-- What it sees of a sequence of calls. -/
def dealings (d : Depot ι) (t : ι) : List (ObjectPoolCall ι) → List PoolCall
  | [] => []
  | call :: rest => d.dealing o t call ++ dealings (d.perform o call).2 t rest

variable {o} {d : Depot ι} {t u : ι}

theorem warehouse_malloc_self (addr : ℕ) : (d.malloc o t addr).2.warehouse t =
    ((d.warehouse t).malloc o.platform addr).2 :=
  Function.update_self _ _ _

theorem warehouse_malloc_of_ne (hne : t ≠ u) (addr : ℕ) :
    (d.malloc o u addr).2.warehouse t = d.warehouse t :=
  Function.update_of_ne hne _ _

theorem warehouse_free (chunk : ℕ) : (d.free u chunk).warehouse t =
    (Machine.answers (Warehouse.perform o.platform) (d.warehouse t) (d.returned t u chunk)).2 := by
  unfold Depot.free returned giveBack
  cases howner : d.owner chunk with
  | none => rfl
  | some owner =>
    by_cases hown : owner = t
    · by_cases hself : u = t
      · simp [hown, hself, Warehouse.perform]
      · simp [hown, hself, Warehouse.perform]
    · rw [if_neg (by simpa using hown)]
      exact Function.update_of_ne (Ne.symm hown) _ _

/-- A call does to a warehouse what the warehouse sees of it. -/
theorem warehouse_perform (call : ObjectPoolCall ι) : (d.perform o call).2.warehouse t =
    (Machine.answers (Warehouse.perform o.platform) (d.warehouse t) (d.dealing o t call)).2 := by
  cases call with
  | malloc u answer =>
    by_cases hself : u = t
    · rw [dealing, if_pos hself, hself]
      exact warehouse_malloc_self _
    · rw [dealing, if_neg hself]
      exact warehouse_malloc_of_ne (Ne.symm hself) _
  | construct u answer offset data throws =>
    by_cases hself : u = t
    · rw [dealing, if_pos hself, hself]
      cases throws with
      | false => exact warehouse_malloc_self _
      | true =>
        have howner : (d.malloc o t answer.addr).2.owner (d.malloc o t answer.addr).1 = some t :=
          Function.update_self _ _ _
        change ((d.malloc o t answer.addr).2.free t (d.malloc o t answer.addr).1).warehouse t = _
        rw [warehouse_free (o := o), returned, if_pos howner, if_pos rfl, warehouse_malloc_self]
        rfl
    · rw [dealing, if_neg hself]
      cases throws with
      | false => exact warehouse_malloc_of_ne (Ne.symm hself) _
      | true =>
        have howner : (d.malloc o u answer.addr).2.owner (d.malloc o u answer.addr).1 = some u :=
          Function.update_self _ _ _
        change ((d.malloc o u answer.addr).2.free u (d.malloc o u answer.addr).1).warehouse t = _
        rw [warehouse_free (o := o), returned, howner, if_neg (by simpa using hself)]
        exact warehouse_malloc_of_ne (Ne.symm hself) _
  | free u chunk => exact warehouse_free chunk
  | destroy u chunk offset data => exact warehouse_free chunk
  | overwrite chunk offset data => rfl

/-- Each warehouse of a depot is a warehouse of its own, driven by what it sees. -/
theorem warehouse_answers (calls : List (ObjectPoolCall ι)) :
    (Machine.answers (perform o) d calls).2.warehouse t =
      (Machine.answers (Warehouse.perform o.platform) (d.warehouse t) (d.dealings o t calls)).2 := by
  induction calls generalizing d with
  | nil => rfl
  | cons call rest ih =>
    rw [dealings, Machine.answers_append, ← warehouse_perform call]
    exact ih

end Depot

namespace ObjectPool

variable {ι κ : Type} [DecidableEq ι] [DecidableEq κ] {o : Instantiation}

/-- **Isolation of threads.** Take any two programs, with any threads, on any heaps, and a thread of each
with the same dealings: the same growths answered at the same addresses, and the same chunks coming
back in the same order from the thread itself and from others. However all other calls lie in between,
the next `Malloc` gives the same chunk to both. -/
theorem malloc_eq_of_dealings_eq (hroom : o.requestedSize + 2 < 2 ^ 32) {heap heap' : Heap}
    {calls : List (ObjectPoolCall ι)} {calls' : List (ObjectPoolCall κ)} {t : ι} {u : κ}
    (hfed : Machine.FedWell (InContract o) (perform o) (initial ι heap) calls)
    (hfed' : Machine.FedWell (InContract o) (perform o) (initial κ heap') calls')
    (hsame : (Depot.initial ι o).dealings o t calls = (Depot.initial κ o).dealings o u calls') :
    ∃ results results' last last',
      Machine.feed (perform o) (initial ι heap) calls = .ok (results, last) ∧
      Machine.feed (perform o) (initial κ heap') calls' = .ok (results', last') ∧
      ∀ answer answer', answer.addr = answer'.addr → last.InContract o (.malloc t answer) →
        last'.InContract o (.malloc u answer') →
        ∃ chunk after after', last.malloc o t answer = .ok (chunk, after) ∧
          last'.malloc o u answer' = .ok (chunk, after') := by
  obtain ⟨last, hfeed, hlast⟩ := (describes hroom).feed_eq ⟨_, depicted_initial o heap⟩ hfed
  obtain ⟨last', hfeed', hlast'⟩ := (describes hroom).feed_eq ⟨_, depicted_initial o heap'⟩ hfed'
  refine ⟨_, _, last, last', hfeed, hfeed', ?_⟩
  intro answer answer' haddr hin hin'
  obtain ⟨after, hmalloc, -⟩ := describes hroom last _ _ hlast hin
  obtain ⟨after', hmalloc', -⟩ := describes hroom last' _ _ hlast' hin'
  refine ⟨_, after, after', hmalloc, ?_⟩
  rw [show last'.malloc o u answer' = _ from hmalloc']
  simp only [Depot.perform, Depot.malloc, Depot.warehouse_answers, hsame, haddr]
  rfl

/-- The isolation of the first thread on a heap of zeros and the second one on a heap of ones. -/
theorem malloc_eq_of_dealings_eq_first :
    ∃ results results' last last',
      Machine.feed (perform small) (initial (Fin 2) ⟨fun _ ↦ 0, []⟩)
        [.malloc 0 ⟨4096, fun _ ↦ 0⟩] = .ok (results, last) ∧
      Machine.feed (perform small) (initial (Fin 2) ⟨fun _ ↦ 255, []⟩)
        [.malloc 1 ⟨4096, fun _ ↦ 255⟩] = .ok (results', last') ∧
      ∀ answer answer', answer.addr = answer'.addr → last.InContract small (.malloc 0 answer) →
        last'.InContract small (.malloc 1 answer') →
        ∃ chunk after after', last.malloc small 0 answer = .ok (chunk, after) ∧
          last'.malloc small 1 answer' = .ok (chunk, after') :=
  malloc_eq_of_dealings_eq (by decide) ⟨inContract_first 0 0, fun _ _ _ ↦ trivial⟩
    ⟨inContract_first 1 255, fun _ _ _ ↦ trivial⟩ rfl

end ObjectPool

end ServerCore.MemoryPool
