import ServerCore.Foundation.Hands
import ServerCore.MemoryPool.RemoteFreeOwner

/-!
# No chunk is lost while the growth sees its sentinel

The steps of the remote threads keep the invariant in any case: the lock lets one of them at a time
read and write `tail_`, and the owner relies on `tail_` only up to being null or being the head. The
main theorem says that no chunk is lost in a run in which every growth that reads `tail_` finds there
the chunk that `head_` still points to. A remote free that completes between the test of `Empty` and
that read makes it false.
-/

namespace ServerCore.MemoryPool

open Foundation Lock

namespace SharedPool

variable {T : Type} {p : Platform} {s after : SharedPool T} {free : List ℕ}

/-- Every carved chunk is in the hands of a client or on the list from `head_` up to `tail_`. -/
def NothingLost (p : Platform) (s : SharedPool T) : Prop :=
  s.Quiescent → ∃ path, s.pool.FreeList p s.heap path ∧
    ∀ chunk ∈ s.pool.chunks p, chunk ∈ s.live ∨ chunk ∈ path

/-! ## The remote threads -/

/-- Writes outside the new block keep what was carved. -/
theorem Carving.congr {heap after : Heap} {pool : Pool} {ptr last n tail : ℕ}
    (hcarving : Carving p heap pool ptr last n) (hnew : NewBlock p heap pool ptr)
    (hroom : p.ptrSize ≤ pool.allocSize)
    (htail : pool.storage.head = 0 → tail = pool.storage.tail)
    (hbytes : ∀ x, ptr ≤ x → x < ptr + pool.requestSize p → after.bytes x = heap.bytes x) :
    Carving p after { pool with storage := { pool.storage with tail := tail } } ptr last n := by
  have hlow := hcarving.low
  have hcount := hcarving.count
  have hsize := hnew.size
  have hpos := hnew.pos
  have hptr := p.ptrSize_ge
  have hnext (chunk : ℕ) (hfrom : ptr ≤ chunk) (hto : chunk ≤ lastChunk p pool ptr) :
      after.next p chunk = heap.next p chunk := by
    unfold lastChunk firstChunk at hto
    apply Heap.next_congr
    intro x hx hx'
    exact hbytes x (by omega) (by omega)
  exact {
    low := hlow
    count := hcount
    linked := by
      apply hcarving.linked.congr
      intro chunk hchunk
      obtain ⟨i, hi, rfl⟩ := mem_chunksFrom.mp (List.dropLast_subset _ hchunk)
      change i < n + 1 at hi
      have hmul := Nat.mul_le_mul_right pool.allocSize (show i ≤ n by omega)
      exact hnext _ (by omega) (by omega)
    spliced := (hnext _ (by omega) le_rfl).trans hcarving.spliced
    tail := fun hzero ↦ (htail hzero).trans (hcarving.tail hzero) }

/-- What the others may do without the owner noticing: move `tail_` while there is a list, but not
onto a head that was not the sentinel; write outside the new block, but not the link of such a head. -/
theorem OwnerSound.congr {after : Heap} {tail : ℕ} {owner : OwnerPc}
    (howner : OwnerSound p s.heap s.pool owner) (hroom : p.ptrSize ≤ s.pool.allocSize)
    (hblocks : after.blocks = s.heap.blocks)
    (htail : s.pool.storage.head = 0 → tail = s.pool.storage.tail)
    (hne : s.pool.storage.head ≠ s.pool.storage.tail → s.pool.storage.head ≠ 0 →
      s.pool.storage.head ≠ tail ∧ after.next p s.pool.storage.head = s.heap.next p s.pool.storage.head)
    (hbytes : ∀ ptr, NewBlock p s.heap s.pool ptr → ∀ x, ptr ≤ x → x < ptr + s.pool.requestSize p →
      after.bytes x = s.heap.bytes x) :
    OwnerSound p after { s.pool with storage := { s.pool.storage with tail := tail } } owner := by
  have hnull (h : s.pool.storage.head = 0 → s.pool.storage.tail = 0)
      (hzero : s.pool.storage.head = 0) : tail = 0 :=
    (htail hzero).trans (h hzero)
  have hkept (ptr : ℕ) (hnew : NewBlock p s.heap s.pool ptr) := hnew.of_write hblocks tail
  cases owner with
  | outside | emptyHead | request => exact hnull howner
  | emptyTail head => exact ⟨hnull howner.1, howner.2⟩
  | testTail ptr => exact ⟨hnull howner.1, hkept ptr howner.2⟩
  | setTail ptr | loadTail ptr => exact ⟨howner.1, hkept ptr howner.2⟩
  | loadEnd ptr =>
    obtain ⟨hzero, hlast, hnew⟩ := howner
    exact ⟨hzero, (htail hzero).trans hlast, hkept ptr hnew⟩
  | linkEnd ptr loaded =>
    obtain ⟨hzero, hlast, hloaded, hnew⟩ := howner
    exact ⟨hzero, (htail hzero).trans hlast, hloaded, hkept ptr hnew⟩
  | linkLast ptr loaded => exact ⟨howner.1, howner.2.1, hkept ptr howner.2.2⟩
  | carve ptr it last =>
    obtain ⟨hit, ⟨n, hcarving⟩, hnew⟩ := howner
    exact ⟨hit, ⟨n, hcarving.congr hnew hroom htail (hbytes ptr hnew)⟩, hkept ptr hnew⟩
  | storeHead ptr =>
    obtain ⟨⟨n, hcarving⟩, hnew⟩ := howner
    exact ⟨⟨n, hcarving.congr hnew hroom htail (hbytes ptr hnew)⟩, hkept ptr hnew⟩
  | popHead => exact ⟨howner.1, (hne howner.2 howner.1).1⟩
  | popNext ret =>
    obtain ⟨hret, hhead, hdiff⟩ := howner
    exact ⟨hret, hhead, (hne hdiff hhead).1⟩
  | popStore ret next =>
    obtain ⟨hret, hnext, hhead, hdiff⟩ := howner
    exact ⟨hret, hnext.trans (hne hdiff hhead).2.symm, hhead, (hne hdiff hhead).1⟩

/-- One thread at a time is between `lock()` and `unlock()`. -/
theorem RemoteSound.alone (hs : s.RemoteSound p) {t u : T} (ht : s.lockTail.pc t = .writing)
    (hu : (s.remote u).Inside) : u = t :=
  hs.sole.unique u t (Or.inr (hs.inside u hu)) (Or.inr ht)

theorem inside_link (chunk tail : ℕ) : (RemotePc.link chunk tail).Inside := by
  simp [RemotePc.Inside]

theorem inside_storeTail (chunk : ℕ) : (RemotePc.storeTail chunk).Inside := by
  simp [RemotePc.Inside]

section Remote

variable [DecidableEq T] {t : T}

/-- When a thread with the lock moves on, it is the only one there. -/
theorem RemoteSound.eq_of_inside (hs : s.RemoteSound p) (ht : s.lockTail.pc t = .writing) {u : T}
    {pc new : RemotePc} (hpc : pc.Inside) (hu : Function.update s.remote t new u = pc) :
    pc = new := by
  by_cases hne : u = t
  · rw [hne, Function.update_self] at hu
    exact hu.symm
  · rw [Function.update_of_ne hne] at hu
    exact absurd (hs.alone ht (hu ▸ hpc)) hne

/-- One thread moves on. Of its chunk it is enough to know that nobody else has it. -/
theorem RemoteSound.goto (hs : s.RemoteSound p) {pc : RemotePc}
    (hlock : after.lockTail = s.lockTail) (hremote : after.remote = Function.update s.remote t pc)
    (hinside : pc.Inside → s.lockTail.pc t = .writing)
    (hreturning : ∀ c, c ∈ after.returning ↔
      pc.chunk = some c ∨ (c ∈ s.returning ∧ (s.remote t).chunk ≠ some c))
    (hown : ∀ c, pc.chunk = some c → (s.remote t).chunk = some c ∨ c ∉ s.returning)
    (hloaded : ∀ u c tail, after.remote u = .link c tail → tail = after.pool.storage.tail)
    (hlinked : ∀ u c, after.remote u = .storeTail c →
      after.heap.next p after.pool.storage.tail = c) : after.RemoteSound p := by
  have hself : after.remote t = pc := by rw [hremote, Function.update_self]
  have hother (u : T) (hne : u ≠ t) : after.remote u = s.remote u := by
    rw [hremote, Function.update_of_ne hne]
  have hmoves : Foundation.Moves (fun u ↦ (s.remote u).chunk) (fun u ↦ (after.remote u).chunk) t
      pc.chunk := by
    refine ⟨by rw [hself], fun u hne ↦ by rw [hother u hne], ?_⟩
    intro c hc
    exact (hown c hc).imp_right fun hnew h ↦ hnew ((hs.returning c).mpr h)
  refine ⟨by rw [hlock]; exact hs.sole, ?_, ?_, hmoves.alone hs.distinct, hloaded, hlinked⟩
  · intro u hu
    rw [hlock]
    by_cases hne : u = t
    · rw [hne, hself] at hu
      rw [hne]
      exact hinside hu
    · rw [hother u hne] at hu
      exact hs.inside u hu
  · intro c
    rw [hreturning c, hs.returning c]
    exact (hmoves.inHand_iff hs.distinct).symm

/-- A client gives a chunk up. -/
theorem sound_callFree {chunk : ℕ} (hs : s.Sound p free)
    (hstep : s.callFree t chunk = some after) : after.Sound p free := by
  obtain ⟨⟨hout, hlive⟩, hafter⟩ := Option.ite_none_right_eq_some.mp hstep
  rw [← Option.some.inj hafter]
  have hfresh : chunk ∉ s.returning :=
    List.disjoint_of_nodup_append (List.nodup_append'.mp hs.wellFormed.nodup_append).2.1 hlive
  have hidle (u : T) (pc : RemotePc) (hpc : ∀ c, pc ≠ .locking c)
      (hu : Function.update s.remote t (.locking chunk) u = pc) : s.remote u = pc := by
    by_cases hne : u = t
    · rw [hne, Function.update_self] at hu
      exact absurd hu.symm (hpc chunk)
    · rwa [Function.update_of_ne hne] at hu
  refine ⟨?_, hs.owner, hs.remote.goto rfl rfl ?_ ?_ ?_ ?_ ?_⟩
  · apply hs.wellFormed.perm_live
    calc
      List.Perm (s.live ++ s.returning) ((chunk :: s.live.erase chunk) ++ s.returning) :=
        (List.perm_cons_erase hlive).append_right s.returning
      List.Perm _ (s.live.erase chunk ++ chunk :: s.returning) := List.perm_middle.symm
  · intro hinside
    exact absurd rfl (hinside.2 chunk)
  · intro c
    simp [gotoRemote, RemotePc.chunk, hout, eq_comm]
  · intro c hc
    rw [RemotePc.chunk, Option.some.injEq] at hc
    exact Or.inr (hc ▸ hfresh)
  · intro u c tail hu
    exact hs.remote.loaded u c tail (hidle u _ (by simp) hu)
  · intro u c hu
    exact hs.remote.linked u c (hidle u _ (by simp) hu)

/-- The lock does its work, and a thread that has unlocked it returns. -/
theorem sound_lockStep {a : SpinlockStep T} (hs : s.Sound p free)
    (hstep : s.lockStep a = some after) : after.Sound p free := by
  obtain ⟨hlocks, hstep⟩ := Option.ite_none_right_eq_some.mp hstep
  obtain ⟨lock, hlock, hafter⟩ := Option.map_eq_some_iff.mp hstep
  obtain ⟨hpc, rfl⟩ := Spinlock.step_eq_some.mp hlock
  have hremote (u : T) : after.remote u = s.remote u ∨
      (s.remote u = .unlocking ∧ after.remote u = .outside) := by
    rw [← hafter]
    by_cases hunlocking : s.remote a.thread = .unlocking
    · by_cases hne : u = a.thread
      · simp [hunlocking, hne]
      · simp [hunlocking, hne]
    · simp [hunlocking]
  have hchunk (u : T) : (after.remote u).chunk = (s.remote u).chunk := by
    rcases hremote u with hsame | ⟨hbefore, hnow⟩
    · rw [hsame]
    · rw [hbefore, hnow]
      rfl
  have hkept (u : T) (pc : RemotePc) (hne : pc ≠ .outside) (hu : after.remote u = pc) :
      s.remote u = pc := by
    rcases hremote u with hsame | ⟨-, hnow⟩
    · rw [← hsame, hu]
    · exact absurd (hu.symm.trans hnow) hne
  rw [← hafter] at hkept hchunk ⊢
  refine ⟨hs.wellFormed, hs.owner, ?_⟩
  exact {
    sole := Spinlock.sole_step hpc hs.remote.sole
    inside := by
      intro u hu
      have hbefore := hkept u _ hu.1 rfl
      rw [← hbefore] at hu
      by_cases hne : u = a.thread
      · -- the thread is not inside before its step, or it has just left
        subst hne
        cases hat : s.remote a.thread with
        | outside => exact absurd hat hu.1
        | locking chunk => exact absurd hat (hu.2 chunk)
        | unlocking => simp [hat] at hbefore
        | link chunk tail | storeTail chunk =>
          rw [hat] at hlocks
          cases a <;> exact hlocks.elim
      · change (s.lockTail.effect a).pc u = _
        rw [Spinlock.effect_pc_of_ne _ _ hne]
        exact hs.remote.inside u hu
    returning := by
      intro c
      rw [hs.remote.returning c]
      exact exists_congr fun u ↦ by rw [hchunk u]
    distinct := by
      intro u v c hu hv
      rw [hchunk] at hu hv
      exact hs.remote.distinct u v c hu hv
    loaded := fun u c tail hu ↦ hs.remote.loaded u c tail (hkept u _ (by simp) hu)
    linked := fun u c hu ↦ hs.remote.linked u c (hkept u _ (by simp) hu) }

/-- The thread has the lock and reads `tail_`. -/
theorem sound_loadTail {chunk : ℕ} (hs : s.Sound p free) (hwriting : s.lockTail.pc t = .writing)
    (hat : s.remote t = .locking chunk) :
    Sound p (s.gotoRemote t (.link chunk s.pool.storage.tail)) free := by
  have hin : chunk ∈ s.returning := (hs.remote.returning chunk).mpr ⟨t, by rw [hat]; rfl⟩
  refine ⟨hs.wellFormed, hs.owner, hs.remote.goto rfl rfl (fun _ ↦ hwriting) ?_ ?_ ?_ ?_⟩
  · intro c
    simp only [gotoRemote, RemotePc.chunk, hat, Option.some.injEq, ne_eq]
    grind
  · intro c hc
    rw [hat]
    exact Or.inl hc
  · intro u c tail hu
    have heq := hs.remote.eq_of_inside hwriting (inside_link c tail) hu
    exact (RemotePc.link.inj heq).2
  · intro u c hu
    have heq := hs.remote.eq_of_inside hwriting (inside_storeTail c) hu
    cases heq

/-- The thread links the sentinel to its chunk. -/
theorem sound_link {chunk tail : ℕ} (hs : s.Sound p free) (hwriting : s.lockTail.pc t = .writing)
    (hat : s.remote t = .link chunk tail) :
    Sound p ({ s with heap := s.heap.setNext p tail chunk }.gotoRemote t (.storeTail chunk))
      free := by
  obtain rfl := hs.remote.loaded t chunk tail hat
  have hin : chunk ∈ s.returning := (hs.remote.returning chunk).mpr ⟨t, by rw [hat]; rfl⟩
  obtain ⟨hne, hhead, hw⟩ := hs.listed (List.mem_append_right s.live hin)
  have hroom := hw.alloc_ge
  have htail := hw.free_mem (hw.tail_mem hne)
  have hnext : (s.heap.setNext p s.pool.storage.tail chunk).next p s.pool.storage.tail = chunk :=
    Heap.next_setNext_self _ _ (hw.chunk_lt (hw.live_mem (List.mem_append_right _ hin))).2
  refine ⟨?_, ?_, hs.remote.goto rfl rfl (fun _ ↦ hwriting) ?_ ?_ ?_ ?_⟩
  · change (settled s.pool).WellFormed p _ free _
    rw [settled_eq_of_head hhead]
    exact hw.link_tail hne chunk
  · refine hs.owner.congr hroom (Heap.setNext_blocks s.heap p s.pool.storage.tail chunk)
      (fun _ ↦ rfl) ?_ ?_
    · intro hdiff _
      obtain ⟨rest, hrest⟩ := hw.exists_head hne
      have hmem := hw.free_mem (show s.pool.storage.head ∈ free by rw [hrest]; simp)
      have hapart := hw.chunks_apart hmem htail hdiff
      refine ⟨hdiff, Heap.next_setNext_of_apart ?_⟩
      unfold Foundation.Apart at hapart ⊢
      omega
    · intro ptr hnew x hlow hhigh
      have hout := hnew.outside_chunk hs.wellFormed htail
      apply Heap.setNext_bytes_of_outside
      omega
  · intro c
    simp only [gotoRemote, RemotePc.chunk, hat, Option.some.injEq, ne_eq]
    grind
  · intro c hc
    rw [hat]
    exact Or.inl hc
  · intro u c loaded hu
    have heq := hs.remote.eq_of_inside hwriting (inside_link c loaded) hu
    cases heq
  · intro u c hu
    have heq := hs.remote.eq_of_inside hwriting (inside_storeTail c) hu
    rw [RemotePc.storeTail.inj heq]
    exact hnext

/-- The thread makes its chunk the sentinel. -/
theorem sound_storeTail {chunk : ℕ} (hs : s.Sound p free) (hwriting : s.lockTail.pc t = .writing)
    (hat : s.remote t = .storeTail chunk) :
    Sound p ({ s.setTail chunk with
      returning := s.returning.erase chunk }.gotoRemote t .unlocking) (free ++ [chunk]) := by
  have hin : chunk ∈ s.returning := (hs.remote.returning chunk).mpr ⟨t, by rw [hat]; rfl⟩
  have hout := List.mem_append_right s.live hin
  obtain ⟨hne, hhead, hw⟩ := hs.listed hout
  have hnodup := (List.nodup_append'.mp hw.nodup_append).2.1
  have hlive : chunk ∉ s.live := fun hlive ↦ List.disjoint_of_nodup_append hnodup hlive hin
  have happended := hw.append_linked hout (hs.remote.linked t chunk hat)
  rw [List.erase_append_right _ hlive] at happended
  refine ⟨?_, ?_, hs.remote.goto rfl rfl (fun _ ↦ hwriting) ?_ ?_ ?_ ?_⟩
  · change (settled (s.setTail chunk).pool).WellFormed p _ _ _
    rw [settled_eq_of_head (show (s.setTail chunk).pool.storage.head ≠ 0 from hhead)]
    exact happended
  · refine hs.owner.congr hw.alloc_ge (Eq.refl s.heap.blocks) (fun hzero ↦ absurd hzero hhead) ?_ ?_
    · intro _ _
      obtain ⟨rest, hrest⟩ := hw.exists_head hne
      exact ⟨hw.ne_of_free_of_live (by rw [hrest]; simp) hout, rfl⟩
    · intro _ _ _ _ _
      rfl
  · intro c
    have hdistinct := (List.nodup_append'.mp hnodup).2.1
    simp only [gotoRemote, RemotePc.chunk, hat, Option.some.injEq, ne_eq, reduceCtorEq, false_or]
    rw [hdistinct.mem_erase_iff]
    grind
  · intro c hc
    cases hc
  · intro u c loaded hu
    have heq := hs.remote.eq_of_inside hwriting (inside_link c loaded) hu
    cases heq
  · intro u c hu
    have heq := hs.remote.eq_of_inside hwriting (inside_storeTail c) hu
    cases heq

theorem sound_remoteStep (hs : s.Sound p free) (hstep : s.remoteStep p t = some after) :
    after.Sound p (s.listAfter p free (.remote t)) := by
  obtain ⟨hwriting, hstep⟩ := Option.ite_none_right_eq_some.mp hstep
  unfold listAfter
  cases hat : s.remote t with
  | outside | unlocking =>
    rw [hat] at hstep
    cases hstep
  | locking chunk =>
    rw [hat] at hstep
    rw [← Option.some.inj hstep]
    simp only [hat]
    exact sound_loadTail hs hwriting hat
  | link chunk tail =>
    rw [hat] at hstep
    simp only [Heap.storeNext] at hstep
    split at hstep
    · rw [← Option.some.inj hstep]
      simp only [hat]
      exact sound_link hs hwriting hat
    · cases hstep
  | storeTail chunk =>
    rw [hat] at hstep
    rw [← Option.some.inj hstep]
    simp only [hat]
    exact sound_storeTail hs hwriting hat

omit [DecidableEq T] in
/-- A client does with its chunk what it wants. -/
theorem sound_overwrite {chunk offset : ℕ} {data : List UInt8} (hs : s.Sound p free)
    (hstep : s.overwrite chunk offset data = some after) : after.Sound p free := by
  obtain ⟨⟨hlive, hsize⟩, hafter⟩ := Option.ite_none_right_eq_some.mp hstep
  rw [← Option.some.inj hafter]
  have hout := List.mem_append_left s.returning hlive
  obtain ⟨hne, hhead, hw⟩ := hs.listed hout
  have hroom := hw.alloc_ge
  have hbytes (x : ℕ) (hx : x < chunk ∨ chunk + s.pool.allocSize ≤ x) :
      (s.heap.bytes.write (chunk + offset) data) x = s.heap.bytes x := by
    apply ByteMemory.write_of_outside
    omega
  -- a chunk on the list keeps its link
  have hnext (other : ℕ) (hother : other ∈ free) :
      { s.heap with bytes := s.heap.bytes.write (chunk + offset) data }.next p other =
        s.heap.next p other := by
    have hapart := hw.chunks_apart (hw.free_mem hother) (hw.live_mem hout)
      (hw.ne_of_free_of_live hother hout)
    unfold Foundation.Apart at hapart
    apply Heap.next_congr
    intro x hlow hhigh
    exact hbytes x (by omega)
  refine ⟨?_, ?_, hs.remote.congr rfl rfl rfl ?_⟩
  · exact hs.wellFormed.frame_live _ hout rfl hbytes
  · refine hs.owner.congr hroom rfl (fun _ ↦ rfl) ?_ ?_
    · intro hdiff _
      obtain ⟨rest, hrest⟩ := hw.exists_head hne
      exact ⟨hdiff, hnext _ (by rw [hrest]; simp)⟩
    · intro ptr hnew x hlow hhigh
      have houtside := hnew.outside_chunk hs.wellFormed (hw.live_mem hout)
      exact hbytes x (by omega)
  · intro _ _ _
    exact ⟨rfl, hnext _ (hw.tail_mem hne)⟩

/-! ## Runs -/

/-- Every step keeps the invariant, if the growth finds its sentinel. -/
theorem sound_listAfter {a : SharedPoolStep T} (hs : s.Sound p free) (hunmoved : s.Unmoved a)
    (hstep : s.step p a = some after) : after.Sound p (s.listAfter p free a) := by
  cases a with
  | callMalloc =>
    obtain ⟨hout, hafter⟩ := Option.ite_none_right_eq_some.mp hstep
    rw [← Option.some.inj hafter]
    have howner := hs.owner
    rw [hout] at howner
    exact hs.of_owner howner
  | owner answer => exact sound_ownerStep hs hunmoved hstep
  | callFree t chunk => exact sound_callFree hs hstep
  | lockTail a => exact sound_lockStep hs hstep
  | remote t => exact sound_remoteStep hs hstep
  | overwrite chunk offset data => exact sound_overwrite hs hstep

theorem sound_step {a : SharedPoolStep T} (hs : s.Sound p free) (hunmoved : s.Unmoved a)
    (hstep : s.step p a = some after) : ∃ list, after.Sound p list :=
  ⟨_, sound_listAfter hs hunmoved hstep⟩

omit [DecidableEq T] in
/-- Between operations no chunk is on its way, so all of them are live or listed. -/
theorem Sound.nothingLost (hs : s.Sound p free) : s.NothingLost p := by
  rintro ⟨howner, hremote⟩
  have hnull := hs.owner
  rw [howner] at hnull
  have hw := hs.wellFormed
  rw [settled_eq hnull] at hw
  have hnone : s.returning = [] := by
    apply List.eq_nil_iff_forall_not_mem.mpr
    intro c hc
    obtain ⟨t, ht⟩ := (hs.remote.returning c).mp hc
    rw [hremote t] at ht
    cases ht
  rw [hnone, List.append_nil] at hw
  refine ⟨free, hw.freeList, ?_⟩
  intro chunk hchunk
  by_cases hlive : chunk ∈ s.live
  · exact Or.inl hlive
  · exact Or.inr (hw.mem_free_iff.mpr ⟨hchunk, hlive⟩)

/-- **Remote frees and growth.** In a run in which every growth that reads `tail_` finds there what
`head_` points to, no chunk is ever lost. -/
theorem nothingLost_of_unmoved {history : List (SharedPool T × SharedPoolStep T)}
    (hrun : (system p T).Run history s) (hunmoved : System.Obeys Unmoved history) :
    ∀ seen ∈ System.visited history s, seen.NothingLost p := by
  intro seen hseen
  have hsound := hrun.invariant_visited (fun state ↦ ∃ list, state.Sound p list)
    (fun state hinit ↦ Initial.sound hinit) (fun state action next hinv hcondition hstep ↦ by
      obtain ⟨list, hlist⟩ := hinv
      exact sound_step hlist hcondition hstep) hunmoved seen hseen
  obtain ⟨list, hlist⟩ := hsound
  exact hlist.nothingLost

end Remote

/-! ## The lost sentinel -/

/-- A pool of one block of 64 chunks, of which 63 are handed out. -/
def drained : SharedPool Unit where
  heap := ⟨fun _ ↦ 0, [⟨64, 260⟩]⟩
  pool := ⟨128, 4, ⟨320, 320⟩, 64, [⟨64, 260⟩]⟩
  live := chunksFrom 68 4 63
  returning := []
  owner := .outside
  lockTail := Spinlock.initial Unit
  remote := fun _ ↦ .outside

theorem drained_initial : drained.Initial .win32 := by
  refine ⟨⟨[320], ?_⟩, rfl, ⟨rfl, fun _ ↦ rfl⟩, rfl⟩
  exact {
    alloc_ge := by decide
    grows := ⟨2, rfl, by decide⟩
    owned := by simp [drained]
    carved := by
      intro b hb
      rw [List.mem_singleton.mp hb]
      exact ⟨⟨62, rfl⟩, by decide, by decide⟩
    apart := List.pairwise_singleton _ _
    partition := List.perm_append_comm
    head_eq := rfl
    tail_eq := rfl
    nonempty := by simp
    linked := linked_singleton _ _
    first_eq := rfl
    headers := (linked_cons_cons _ _ _ _).mpr ⟨rfl, linked_singleton _ _⟩ }

/-- A remote thread frees the chunk at 68. -/
def remoteFree : List (SharedPoolStep Unit) :=
  [.callFree () 68, .lockTail (.callLock ()), .lockTail (.exchangeLock ()),
    .lockTail (.loadReader ()), .remote (), .remote (), .remote (), .lockTail (.exchangeUnlock ())]

/-- So many steps of the owner, which is given a block at 1024 if it asks for one. -/
def ownerSteps (n : ℕ) : List (SharedPoolStep Unit) :=
  List.replicate n (.owner ⟨1024, fun _ ↦ 0⟩)

set_option maxRecDepth 20000 in
/-- The remote free comes between the test of `Empty` and the growth. The list then runs through the
new chunks to the one freed, and the old sentinel at 320 is on it no more. -/
theorem replay_lost :
    (System.replay (step .win32) drained
        ([.callMalloc] ++ ownerSteps 2 ++ remoteFree ++ ownerSteps 135)).map (fun s ↦
      decide (s.owner = .outside ∧ s.remote () = .outside ∧ s.pool.storage = ⟨1032, 68⟩ ∧
        s.pool.allocSize = 4 ∧ s.pool.blocks = [⟨1024, 516⟩, ⟨64, 260⟩] ∧
        List.iterate (s.heap.next .win32) 1032 128 = chunksFrom 1032 4 127 ++ [68] ∧
        s.live = 1028 :: (chunksFrom 68 4 63).erase 68)) = some true := by
  decide +kernel

/-- One remote free that meets a growth loses a chunk. -/
theorem nothingLost_fails :
    ¬ ∀ history s, (system .win32 Unit).Run history s → s.NothingLost .win32 := by
  intro hclaim
  obtain ⟨history, s, hrun, htest⟩ := System.exists_run_of_replay (Initial .win32) drained_initial
    replay_lost
  simp only [decide_eq_true_eq] at htest
  obtain ⟨howner, hremote, hstorage, halloc, hblocks, hpath, hlive⟩ := htest
  obtain ⟨path, hlist, hall⟩ := hclaim history s hrun ⟨howner, fun _ ↦ hremote⟩
  have hlist' : s.pool.FreeList .win32 s.heap (chunksFrom 1032 4 127 ++ [68]) := by
    rw [← hpath]
    refine Or.inr ⟨by rw [hstorage]; decide, ?_, ?_, 127, by rw [hstorage]⟩
    · rw [hpath]
      exact List.nodup_append'.mpr
        ⟨nodup_chunksFrom (by decide), by simp, List.disjoint_singleton.mpr (by decide)⟩
    · rw [hpath, hstorage]
      exact List.getLast?_concat
  have hmem : 320 ∈ s.pool.chunks .win32 := by
    rw [Pool.chunks, hblocks, halloc]
    decide
  rw [hlist.unique hlist', hlive] at hall
  have hlost : ¬ (320 ∈ 1028 :: (chunksFrom 68 4 63).erase 68 ∨
      320 ∈ chunksFrom 1032 4 127 ++ [68]) := by decide
  exact hlost (hall 320 hmem)

set_option maxRecDepth 20000 in
/-- The rule applied to a remote free that comes right after the growth has read `tail_`. -/
theorem nothingLost_of_unmoved_applies :
    ∃ history s, (system .win32 Unit).Run history s ∧ s.Quiescent ∧ s.pool.blocks.length = 2 ∧
      ∀ seen ∈ System.visited history s, seen.NothingLost .win32 := by
  have hreplay : (System.replay (fun s a ↦ if s.Unmoved a then s.step .win32 a else none) drained
        ([.callMalloc] ++ ownerSteps 5 ++ remoteFree ++ ownerSteps 132)).map (fun s ↦
      decide (s.owner = .outside ∧ s.remote () = .outside ∧ s.pool.blocks.length = 2)) =
        some true := by
    decide +kernel
  obtain ⟨history, s, hrun, htest⟩ := System.exists_run_of_replay (Initial .win32) drained_initial
    hreplay
  simp only [decide_eq_true_eq] at htest
  obtain ⟨howner, hremote, hblocks⟩ := htest
  obtain ⟨hrun', hobeys⟩ := hrun.of_tested
  exact ⟨history, s, hrun', ⟨howner, fun _ ↦ hremote⟩, hblocks,
    nothingLost_of_unmoved hrun' hobeys⟩

end SharedPool

end ServerCore.MemoryPool
