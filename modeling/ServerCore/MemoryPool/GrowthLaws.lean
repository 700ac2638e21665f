import Mathlib.Data.Nat.Factorization.Basic
import ServerCore.MemoryPool.Purge

/-!
# How a pool grows

The size of a growth is a product, the request adds a header to it, and the factor doubles; all three
are computed in `std::size_t`. The first theorem says for which growths that is harmless.

The second one is about growths that do not wrap. A pool asks for memory when its list is down to the
sentinel, that is, when all its chunks but one are live, and then the number of its chunks doubles.
-/

namespace ServerCore.MemoryPool

open Foundation

namespace Pool

variable {p : Platform} {h : Heap} {pool : Pool} {free live : List ℕ}

/-- What is asked of a growth: a block that was obtained is as large as the numbers say, there are two
chunks at least, and carving stays inside the block; and where the numbers cannot be represented, `Malloc`
returns null and changes nothing. -/
structure GrowthSound (p : Platform) (h : Heap) (pool : Pool) (answer : Answer) : Prop where
  roomy : answer.addr ≠ 0 → p.ptrSize + pool.nextSize * pool.allocSize ≤ pool.requestSize p
  several : answer.addr ≠ 0 → 2 ≤ pool.nextSize
  inside : answer.addr ≠ 0 → ∃ carved storage,
    pool.storage.addBlock p (h.malloc (pool.requestSize p) answer) (answer.addr + p.ptrSize)
      (pool.totalSize p) pool.allocSize = .ok (carved, storage) ∧
    ∀ x, x < answer.addr ∨ answer.addr + pool.requestSize p ≤ x → carved.bytes x = h.bytes x
  refused : p.sizeModulus ≤ p.ptrSize + pool.nextSize * pool.allocSize →
    pool.malloc p h answer = .ok (0, h, pool)

theorem BlockChain.two_le_nextSize (hbc : BlockChain p h pool) : 2 ≤ pool.nextSize := by
  obtain ⟨m, hsize, -⟩ := hbc.grows
  have hpos := Nat.two_pow_pos m
  rw [hsize, pow_add]
  omega

/-- Wrapped sizes are never a whole number of chunks: a growth that is carved has not wrapped. -/
theorem BlockChain.fits_of_totalSize (hbc : BlockChain p h pool) {j : ℕ}
    (htotal : pool.totalSize p = (j + 2) * pool.allocSize) : pool.Fits p := by
  obtain ⟨m, hsize, hm⟩ := hbc.grows
  have hpos := hbc.alloc_pos
  have hmodulus : p.sizeModulus = pool.nextSize * 2 ^ (8 * p.ptrSize - (m + 5)) := by
    rw [p.sizeModulus_eq, hsize, ← pow_add]
    congr 1
    omega
  generalize hk : 8 * p.ptrSize - (m + 5) = k at hmodulus
  have hreduced : pool.totalSize p = pool.nextSize * (pool.allocSize % 2 ^ k) := by
    unfold totalSize
    rw [hmodulus, Nat.mul_mod_mul_left]
  have hrest : 0 < pool.allocSize % 2 ^ k := by
    apply Nat.pos_of_ne_zero
    intro hzero
    rw [hreduced, hzero, Nat.mul_zero] at htotal
    have hchunks := Nat.mul_pos (show 0 < j + 2 by omega) hpos
    omega
  have hsmall : pool.allocSize < 2 ^ k := by
    by_contra hlarge
    obtain ⟨v, odd, hodd, hsplit⟩ := Nat.exists_eq_two_pow_mul_odd (Nat.ne_of_gt hpos)
    -- the power of two in the chunk size and the odd rest both divide the remainder
    have hpow : 2 ^ v ∣ pool.allocSize % 2 ^ k := by
      rcases Nat.lt_or_ge v k with hlt | hge
      · apply (Nat.dvd_mod_iff (pow_dvd_pow 2 (Nat.le_of_lt hlt))).mpr
        exact ⟨odd, hsplit⟩
      · have hzero : pool.allocSize % 2 ^ k = 0 := by
          apply Nat.mod_eq_zero_of_dvd
          rw [hsplit]
          exact Dvd.dvd.mul_right (pow_dvd_pow 2 hge) odd
        omega
    have hcoprime (e : ℕ) : Nat.Coprime (2 ^ e) odd :=
      Nat.Coprime.pow_left e (Nat.coprime_two_left.mpr hodd)
    have hrestOdd : odd ∣ pool.allocSize % 2 ^ k := by
      apply (hcoprime (m + 5)).symm.dvd_of_dvd_mul_left
      rw [← hsize, ← hreduced, htotal, hsplit]
      exact Dvd.dvd.mul_left (Nat.dvd_mul_left odd _) _
    have hdvd := (hcoprime v).mul_dvd_of_dvd_of_dvd hpow hrestOdd
    rw [← hsplit] at hdvd
    have hle := Nat.le_of_dvd hrest hdvd
    have hlt := Nat.mod_lt pool.allocSize (Nat.two_pow_pos k)
    omega
  have hroom := hbc.requestSize_eq.2
  rw [hreduced, Nat.mod_eq_of_lt hsmall] at hroom
  exact hroom

/-- A pool that has grown had a growth to make that does not wrap. -/
theorem BlockChain.fits_of_grown (hbc : BlockChain p h pool) {after : Heap} {ptr j : ℕ}
    (hgrown : BlockChain p after (pool.grown p ptr j)) : pool.Fits p := by
  obtain ⟨⟨i, hi⟩, -⟩ := hgrown.carved _ List.mem_cons_self
  have hrequest := hbc.requestSize_eq.1
  change pool.requestSize p = p.ptrSize + (i + 2) * pool.allocSize at hi
  exact hbc.fits_of_totalSize (show pool.totalSize p = (i + 2) * pool.allocSize by omega)

/-- A growth is sound exactly if the numbers can be represented. -/
theorem BlockChain.growthSound_iff (hbc : BlockChain p h pool)
    (htail : pool.storage.tail < p.sizeModulus)
    (hempty : pool.storage.head = pool.storage.tail) {answer : Answer}
    (hfresh : answer.addr ≠ 0 → h.Fresh p answer.addr (pool.requestSize p)) :
    GrowthSound p h pool answer ↔ (answer.addr ≠ 0 → pool.Fits p) := by
  constructor
  · intro hsound haddr
    have hroomy := hsound.roomy haddr
    have hrequest := hbc.requestSize_eq
    unfold Fits
    omega
  · intro hfits
    by_cases haddr : answer.addr = 0
    · exact ⟨fun h ↦ absurd haddr h, fun h ↦ absurd haddr h, fun h ↦ absurd haddr h,
        fun _ ↦ malloc_of_null hempty haddr⟩
    · have hfits := hfits haddr
      have hrequest := hbc.requestSize_eq.1
      have hproduct : pool.totalSize p = pool.nextSize * pool.allocSize := by
        unfold Fits at hfits
        exact Nat.mod_eq_of_lt (by omega)
      obtain ⟨j, htotal, -⟩ := hbc.totalSize_eq hfits
      obtain ⟨carved, hcarve, -, hbytes, -⟩ := hbc.segregate_eq_ok htail (hfresh haddr) htotal
      refine ⟨fun _ ↦ by omega, fun _ ↦ hbc.two_le_nextSize, fun _ ↦ ?_, fun hwrap ↦ ?_⟩
      · refine ⟨carved, ⟨answer.addr + p.ptrSize, (pool.grownStorage p answer.addr j).tail⟩, ?_, ?_⟩
        · simp only [SegregatedStorage.addBlock, hcarve, bind, Except.bind]
          rfl
        · intro x hx
          rw [hbytes x (by omega)]
          exact Heap.malloc_bytes_of_outside (by omega)
      · unfold Fits at hfits
        omega

end Pool

namespace Client

variable {p : Platform} {s after : Client} {requestedSize : ℕ}

/-- **Growth arithmetic.** In every state that calls of `Malloc`, `Free`, `FreeAppend` and `PurgeMemory`
reach, the growth that the next `Malloc` needs is sound if and only if `::malloc` refuses it or
`next_size_ * alloc_size_ + sizeof(void*)` is below the modulus of `std::size_t`. -/
theorem growthSound_iff_fits (hreach : (system p (Fresh p requestedSize)).Reachable s)
    (hempty : s.pool.storage.head = s.pool.storage.tail) {answer : Answer}
    (hallowed : s.Allowed p (.malloc answer)) :
    s.pool.GrowthSound p s.heap answer ↔ (answer.addr ≠ 0 → s.pool.Fits p) := by
  rcases (settled_of_reachable hreach).pool with hw | hspent
  · obtain ⟨free, hw⟩ := hw
    exact hw.blockChain.growthSound_iff hw.tail_lt hempty (hallowed hempty)
  · rw [hspent.head] at hempty
    exact absurd hempty.symm hspent.tail

/-- On win32, 64 chunks of 64 MiB make a block of four bytes. -/
theorem growthSound_fails :
    ¬ ∀ p requestedSize s answer, (system p (Fresh p requestedSize)).Reachable s →
      s.pool.storage.head = s.pool.storage.tail → s.Allowed p (.malloc answer) →
        s.pool.GrowthSound p s.heap answer := by
  intro hclaim
  let s : Client := ⟨⟨fun _ ↦ 0, []⟩, Pool.construct .win32 (2 ^ 26), []⟩
  have hreach : (system .win32 (Fresh .win32 (2 ^ 26))).Reachable s :=
    ⟨[], .start ⟨rfl, rfl, fun b hb ↦ absurd hb List.not_mem_nil⟩⟩
  have hallowed : s.Allowed .win32 (.malloc page) := fun _ _ ↦ by decide
  have hroomy := (hclaim _ _ s page hreach rfl hallowed).roomy (by decide)
  exact absurd hroomy (by decide)

/-- The characterisation applied to the first growth of 8-byte chunks. -/
theorem growthSound_iff_fits_newcomer :
    newcomer.pool.GrowthSound .x64 newcomer.heap page ↔
      (page.addr ≠ 0 → newcomer.pool.Fits .x64) :=
  growthSound_iff_fits ⟨[], .start newcomer_fresh⟩ rfl newcomer_allowed

/-! ## When a pool grows -/

/-- No purge, and no growth whose sizes wrap. -/
def Ordinary (p : Platform) (s : Client) (call : PoolCall) : Prop :=
  call ≠ .purge ∧ s.GrowthFits p call

/-- All carved chunks are live, but for one that is held back. -/
def UsedUp (p : Platform) (s : Client) : Prop :=
  ∃ sentinel ∈ s.pool.chunks p, sentinel ∉ s.live ∧
    ∀ chunk ∈ s.pool.chunks p, chunk ≠ sentinel → chunk ∈ s.live

/-- The next growth adds as many chunks as there are, and 64. -/
def Doubling (p : Platform) (s : Client) : Prop :=
  s.WellFormed p ∧ s.pool.nextSize = (s.pool.chunks p).length + 64

/-- A list without a chunk to take is the sentinel, or the pool has no chunks. -/
theorem WellFormed.usedUp_of_empty (hw : s.WellFormed p)
    (hempty : s.pool.storage.head = s.pool.storage.tail) :
    (s.pool.chunks p = [] ∧ s.live = []) ∨
      (s.UsedUp p ∧ (s.pool.chunks p).length = s.live.length + 1) := by
  obtain ⟨free, hw⟩ := hw
  rcases hw.free_of_empty hempty with hfree | hfree
  · left
    have hchunks : s.pool.chunks p = [] := by
      rw [Pool.chunks, hw.nonempty hfree, List.flatMap_nil]
    have hpartition := hw.partition
    rw [hfree, hchunks, List.nil_append, List.perm_nil] at hpartition
    exact ⟨hchunks, hpartition⟩
  · right
    have hpartition := hw.partition
    rw [hfree, List.singleton_append] at hpartition
    have hnodup := hw.nodup_append
    rw [hfree, List.singleton_append, List.nodup_cons] at hnodup
    refine ⟨⟨s.pool.storage.tail, hpartition.subset List.mem_cons_self, hnodup.1, ?_⟩, ?_⟩
    · intro chunk hmem hne
      exact (List.mem_cons.mp (hpartition.symm.subset hmem)).resolve_left hne
    · rw [← hpartition.length_eq, List.length_cons]

/-- A growth that does not wrap adds `next_size_` chunks. -/
theorem length_chunks_grown {pool : Pool} {ptr j : ℕ} (hpos : 0 < pool.allocSize)
    (hfits : pool.Fits p) (hrequest : pool.requestSize p = pool.totalSize p + p.ptrSize) :
    ((pool.grown p ptr j).chunks p).length = pool.nextSize + (pool.chunks p).length := by
  have hproduct : pool.totalSize p = pool.nextSize * pool.allocSize := by
    unfold Pool.Fits at hfits
    exact Nat.mod_eq_of_lt (by omega)
  have hcount : (pool.requestSize p - p.ptrSize) / pool.allocSize = pool.nextSize := by
    rw [hrequest, hproduct, Nat.add_sub_cancel, Nat.mul_div_cancel _ hpos]
  calc
    ((pool.grown p ptr j).chunks p).length =
        (Block.chunks p pool.allocSize ⟨ptr, pool.requestSize p⟩).length +
          (pool.chunks p).length := List.length_append
    _ = pool.nextSize + (pool.chunks p).length := by
      rw [Block.chunks, chunksFrom, List.length_map, List.length_range, hcount]

/-- What a call does to the sizes of the pool. -/
inductive Resized (p : Platform) (s after : Client) : Prop
  | kept (hblocks : after.pool.chunks p = s.pool.chunks p)
      (hsize : after.pool.nextSize = s.pool.nextSize)
  | grown {ptr j : ℕ} (hempty : s.pool.storage.head = s.pool.storage.tail) (hfits : s.pool.Fits p)
      (hpool : after.pool = s.pool.grown p ptr j) (hlive : after.live.length = s.live.length + 1)

theorem resized_of_perform (hw : s.WellFormed p) {call : PoolCall} {result : ℕ}
    (hcall : s.Ordinary p call) (hallowed : s.Allowed p call)
    (hperform : s.perform p call = .ok (result, after)) : s.Resized p after := by
  obtain ⟨hnopurge, hfits⟩ := hcall
  cases effect_of_perform hw hnopurge hallowed hperform with
  | listed hpool hnone =>
    refine .kept ?_ (by rw [hpool])
    rw [hpool]
    rfl
  | grown hmalloc hempty haddr hpool hlive =>
    rw [hmalloc] at hfits
    exact .grown hempty (hfits hempty haddr) hpool (by rw [hlive, List.length_cons])

/-- A call leaves the number of chunks as it is, or brings it from at most the number of chunks live
afterwards to twice as many and 64. -/
theorem doubling_of_perform (hs : s.Doubling p) {call : PoolCall} {result : ℕ}
    (hcall : s.Ordinary p call) (hallowed : s.Allowed p call)
    (hperform : s.perform p call = .ok (result, after)) :
    after.Doubling p ∧ (after.pool.chunks p = s.pool.chunks p ∨
      (after.pool.chunks p).length ≤ 2 * after.live.length + 64) := by
  obtain ⟨hw, hsize⟩ := hs
  have hafter := (kept_of_perform hw hcall.1 hallowed hperform).wellFormed
  have hbc : Pool.BlockChain p s.heap s.pool := by
    obtain ⟨free, hw⟩ := hw
    exact hw.blockChain
  cases resized_of_perform hw hcall hallowed hperform with
  | kept hblocks hnext =>
    refine ⟨⟨hafter, ?_⟩, Or.inl hblocks⟩
    rw [hblocks, hnext, hsize]
  | @grown ptr j hempty hfits hpool hlive =>
    have hcount : (after.pool.chunks p).length = s.pool.nextSize + (s.pool.chunks p).length := by
      rw [hpool]
      exact length_chunks_grown hbc.alloc_pos hfits hbc.requestSize_eq.1
    have hnext : after.pool.nextSize = s.pool.nextSize * 2 := by
      have hroom := Nat.mul_le_mul_left s.pool.nextSize hbc.alloc_ge
      have hptr := Nat.mul_le_mul_left s.pool.nextSize p.ptrSize_ge
      unfold Pool.Fits at hfits
      rw [hpool]
      exact Nat.mod_eq_of_lt (by omega)
    refine ⟨⟨hafter, by omega⟩, Or.inr ?_⟩
    rcases hw.usedUp_of_empty hempty with ⟨hnone, -⟩ | ⟨-, hlength⟩
    · rw [hnone, List.length_nil] at hcount hsize
      omega
    · omega

/-- **Growth on demand.** On a fresh pool, with calls of `Malloc`, `Free` and `FreeAppend` whose growths do
not wrap, a growth is attempted only when no chunk has been carved or all but one are live; and the
number of chunks is at most 64 more than twice the largest number of chunks that were live at a time. -/
theorem grows_on_demand {history : List (Client × PoolCall)}
    (hrun : (system p (Fresh p requestedSize)).Run history s)
    (hordinary : System.Obeys (Ordinary p) history) :
    (s.pool.storage.empty = true → s.pool.chunks p = [] ∨ s.UsedUp p) ∧
      ∀ peak, (∀ seen ∈ System.visited history s, seen.live.length ≤ peak) →
        (s.pool.chunks p).length ≤ 2 * peak + 64 := by
  suffices hboth : s.Doubling p ∧
      ∀ peak, (∀ seen ∈ System.visited history s, seen.live.length ≤ peak) →
        (s.pool.chunks p).length ≤ 2 * peak + 64 by
    refine ⟨fun hempty ↦ ?_, hboth.2⟩
    exact (hboth.1.1.usedUp_of_empty (eq_of_beq hempty)).imp And.left And.left
  induction hrun with
  | start hfresh =>
    refine ⟨⟨hfresh.wellFormed, ?_⟩, fun peak _ ↦ ?_⟩
    · rw [hfresh.1]
      rfl
    · rw [hfresh.1]
      exact Nat.zero_le _
  | next hbefore hstep ih =>
    obtain ⟨hcall, hordinary⟩ := (System.obeys_cons _ _ _ _).mp hordinary
    obtain ⟨hdoubling, hbound⟩ := ih hordinary
    obtain ⟨hallowed, result, hperform⟩ := hstep
    obtain ⟨hafter, hcount⟩ := doubling_of_perform hdoubling hcall hallowed hperform
    refine ⟨hafter, fun peak hpeak ↦ ?_⟩
    obtain ⟨hlast, hearlier⟩ := (System.forall_visited_cons _ _ _ _ _).mp hpeak
    rcases hcount with hsame | hgrown
    · rw [hsame]
      exact hbound peak hearlier
    · omega

/-- The theorem applied to a run that grows the pool. -/
theorem grows_on_demand_newcomer :
    ∃ after, (system .x64 (Fresh .x64 8)).Run [(newcomer, .malloc page)] after ∧
      (after.pool.storage.empty = true → after.pool.chunks .x64 = [] ∨ after.UsedUp .x64) ∧
      ∀ peak, (∀ seen ∈ System.visited [(newcomer, PoolCall.malloc page)] after,
        seen.live.length ≤ peak) → (after.pool.chunks .x64).length ≤ 2 * peak + 64 := by
  have hordinary : newcomer.Ordinary .x64 (.malloc page) := ⟨by simp, newcomer_growthFits⟩
  obtain ⟨after, hrun⟩ := exists_newcomer_run
  exact ⟨after, hrun, grows_on_demand hrun (by simpa using hordinary)⟩

end Client

end ServerCore.MemoryPool
