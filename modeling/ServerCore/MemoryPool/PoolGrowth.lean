import ServerCore.MemoryPool.Pool

/-!
# Growing a pool

`resize_and_malloc` obtains a block, carves it, splices the sentinel behind it and hands out its
first chunk. The growth factor is a power of two, at least `32`, so the header word always fits on
top of the carved size; whether the carved size itself has wrapped is decided by `segregate`, which
stays inside the block only for a whole number of chunks.
-/

namespace ServerCore.MemoryPool

open Foundation

theorem Platform.sizeModulus_eq (p : Platform) : p.sizeModulus = 2 ^ (8 * p.ptrSize) := by
  unfold Platform.sizeModulus
  rw [pow_mul]
  norm_num

theorem Platform.ptrSize_le (p : Platform) : p.ptrSize ≤ 8 := by
  cases p <;> decide

namespace Pool

section Growth

variable {p : Platform} {h : Heap} {pool : Pool} {free live : List ℕ}

theorem BlockChain.first_lt (hbc : BlockChain p h pool) : pool.first < p.sizeModulus := by
  rw [hbc.first_eq]
  cases hlist : pool.blocks with
  | nil =>
    simp only [List.map_nil, List.nil_append, List.headD_cons]
    exact Nat.pos_of_ne_zero (by cases p <;> decide)
  | cons b rest =>
    have hb := (hbc.carved b (by simp [hlist])).2
    obtain ⟨⟨i, hi⟩, -⟩ := hbc.carved b (by simp [hlist])
    have hptr := p.ptrSize_ge
    simp only [List.map_cons, List.cons_append, List.headD_cons]
    omega

/-- The request is the carved size and the header word, without wrap-around. -/
theorem BlockChain.requestSize_eq (hbc : BlockChain p h pool) :
    pool.requestSize p = pool.totalSize p + p.ptrSize ∧
      pool.totalSize p + p.ptrSize < p.sizeModulus := by
  obtain ⟨m, hsize, hm⟩ := hbc.grows
  have hptr := p.ptrSize_le
  have hmodulus : 32 ∣ p.sizeModulus := by
    rw [p.sizeModulus_eq]
    exact pow_dvd_pow 2 (show 5 ≤ 8 * p.ptrSize by omega)
  have htotal : 32 ∣ pool.totalSize p := by
    apply (Nat.dvd_mod_iff hmodulus).mpr
    rw [hsize, pow_add]
    exact Dvd.dvd.mul_right (Dvd.intro_left _ rfl) _
  have hlt : pool.totalSize p < p.sizeModulus := by
    apply Nat.mod_lt
    rw [p.sizeModulus_eq]
    positivity
  have hroom : pool.totalSize p + p.ptrSize < p.sizeModulus := by
    omega
  exact ⟨Nat.mod_eq_of_lt hroom, hroom⟩

/-- A size of at least two whole chunks has not wrapped to where doubling the factor would. -/
theorem BlockChain.grows_again (hbc : BlockChain p h pool) {j : ℕ}
    (htotal : pool.totalSize p = (j + 2) * pool.allocSize) :
    ∃ m, pool.nextSize * 2 % p.sizeModulus = 2 ^ (m + 5) ∧ m + 5 < 8 * p.ptrSize := by
  obtain ⟨m, hsize, hm⟩ := hbc.grows
  have hroom := hbc.alloc_ge
  have hptr := p.ptrSize_ge
  have hlarge : 8 ≤ pool.totalSize p := by
    rw [htotal]
    have hmul := Nat.le_mul_of_pos_left pool.allocSize (show 0 < j + 1 by omega)
    rw [show (j + 2) * pool.allocSize = (j + 1) * pool.allocSize + pool.allocSize by ring]
    omega
  have hdouble : pool.nextSize * 2 = 2 ^ (m + 1 + 5) := by
    rw [hsize]
    ring
  by_cases hnext : m + 1 + 5 < 8 * p.ptrSize
  · refine ⟨m + 1, ?_, hnext⟩
    rw [hdouble]
    apply Nat.mod_eq_of_lt
    rw [p.sizeModulus_eq]
    exact Nat.pow_lt_pow_right (by omega) hnext
  · -- the factor is half the modulus, so the product is zero or half the modulus
    have htop : p.sizeModulus = pool.nextSize * 2 := by
      rw [hdouble, p.sizeModulus_eq, show m + 1 + 5 = 8 * p.ptrSize by omega]
    have hparity : pool.totalSize p = pool.nextSize * (pool.allocSize % 2) := by
      unfold totalSize
      rw [htop, Nat.mul_mod_mul_left]
    rcases Nat.mod_two_eq_zero_or_one pool.allocSize with heven | hodd
    · rw [heven] at hparity
      omega
    · have hdvd : pool.allocSize ∣ 2 ^ (m + 5) := by
        rw [hodd, Nat.mul_one, hsize] at hparity
        exact ⟨j + 2, by rw [← hparity, htotal, Nat.mul_comm]⟩
      obtain ⟨k, -, hk⟩ := (Nat.dvd_prime_pow Nat.prime_two).mp hdvd
      cases k with
      | zero => omega
      | succ k =>
        rw [hk, pow_succ] at hodd
        omega

/-- Where the product does not wrap, the growth carves `nextSize` chunks. -/
theorem BlockChain.totalSize_eq (hbc : BlockChain p h pool)
    (hfits : pool.nextSize * pool.allocSize + p.ptrSize < p.sizeModulus) :
    ∃ j, pool.totalSize p = (j + 2) * pool.allocSize ∧ pool.nextSize = j + 2 := by
  obtain ⟨m, hsize, -⟩ := hbc.grows
  have hlarge : 32 ≤ pool.nextSize := by
    rw [hsize, pow_add]
    have hpos := Nat.two_pow_pos m
    omega
  refine ⟨pool.nextSize - 2, ?_, by omega⟩
  unfold totalSize
  rw [Nat.mod_eq_of_lt (by omega), Nat.sub_add_cancel (by omega)]

/-! ## The growth step -/

/-- The storage after a block of `j + 2` chunks was added and its first chunk taken. -/
def grownStorage (p : Platform) (pool : Pool) (ptr j : ℕ) : SegregatedStorage where
  head := ptr + p.ptrSize + pool.allocSize
  tail := if pool.storage.tail = 0 then ptr + p.ptrSize + (j + 1) * pool.allocSize
    else pool.storage.tail

/-- The pool after a successful growth. -/
def grown (p : Platform) (pool : Pool) (ptr j : ℕ) : Pool where
  nextSize := pool.nextSize * 2 % p.sizeModulus
  allocSize := pool.allocSize
  storage := pool.grownStorage p ptr j
  first := ptr
  blocks := ⟨ptr, pool.requestSize p⟩ :: pool.blocks

/-- The chunks a growth leaves on the list: all new ones but the first. -/
def newChunks (p : Platform) (pool : Pool) (ptr j : ℕ) : List ℕ :=
  chunksFrom (ptr + p.ptrSize + pool.allocSize) pool.allocSize (j + 1)

/-- What a growth writes: the block it obtained, and nothing else. -/
structure GrownHeap (p : Platform) (h : Heap) (pool : Pool) (ptr j : ℕ) (after : Heap) : Prop where
  blocks : after.blocks = ⟨ptr, pool.requestSize p⟩ :: h.blocks
  bytes : ∀ x, x < ptr ∨ ptr + pool.requestSize p ≤ x → after.bytes x = h.bytes x
  linked : Linked (after.next p)
    ((ptr + p.ptrSize) :: pool.newChunks p ptr j)
  spliced : after.next p (ptr + p.ptrSize + (j + 1) * pool.allocSize) = pool.storage.tail
  header : after.next p ptr = pool.first

/-- Carving stays inside the block that was obtained. -/
theorem BlockChain.segregate_eq_ok (hbc : BlockChain p h pool)
    (htail : pool.storage.tail < p.sizeModulus) {answer : Answer} {j : ℕ}
    (hfresh : h.Fresh p answer.addr (pool.requestSize p))
    (htotal : pool.totalSize p = (j + 2) * pool.allocSize) :
    ∃ carved, pool.storage.segregate p (h.malloc (pool.requestSize p) answer)
        (answer.addr + p.ptrSize) (pool.totalSize p) pool.allocSize =
          .ok (carved, { pool.storage with tail := (pool.grownStorage p answer.addr j).tail },
            answer.addr + p.ptrSize) ∧
      carved.blocks = ⟨answer.addr, pool.requestSize p⟩ :: h.blocks ∧
      (∀ x, x < answer.addr + p.ptrSize ∨ answer.addr + pool.requestSize p ≤ x →
        carved.bytes x = (h.malloc (pool.requestSize p) answer).bytes x) ∧
      Linked (carved.next p) (chunksFrom (answer.addr + p.ptrSize) pool.allocSize (j + 2)) ∧
      carved.next p (answer.addr + p.ptrSize + (j + 1) * pool.allocSize) = pool.storage.tail := by
  obtain ⟨-, hspace, -⟩ := hfresh
  obtain ⟨hrequest, -⟩ := hbc.requestSize_eq
  rw [htotal] at hrequest
  obtain ⟨carved, hcarve, hblocks, hbytes, hlinked, hlast⟩ :=
    @SegregatedStorage.segregate_spec p (h.malloc (pool.requestSize p) answer) pool.storage
      ⟨answer.addr, pool.requestSize p⟩ (answer.addr + p.ptrSize) pool.allocSize j hbc.alloc_ge
      (by simp) (by simp) (by simp only; omega) (by omega) htail
  refine ⟨carved, ?_, by rw [hblocks, Heap.malloc_blocks], ?_, hlinked, hlast⟩
  · rw [htotal]
    exact hcarve
  · intro x hx
    exact hbytes x (offLinks_of_outside hbc.alloc_ge (by omega))

/-- The whole of `resize_and_malloc` on an answer that is a block. -/
theorem BlockChain.resizeAndMalloc_eq_ok (hbc : BlockChain p h pool)
    (htail : pool.storage.tail < p.sizeModulus) {answer : Answer} {j : ℕ}
    (hfresh : h.Fresh p answer.addr (pool.requestSize p))
    (htotal : pool.totalSize p = (j + 2) * pool.allocSize) :
    ∃ after, pool.resizeAndMalloc p h answer =
        .ok (answer.addr + p.ptrSize, after, pool.grown p answer.addr j) ∧
      GrownHeap p h pool answer.addr j after := by
  obtain ⟨carved, hcarve, hblocks', hbytes, hlinked, hlast⟩ :=
    hbc.segregate_eq_ok htail hfresh htotal
  have hpos := hfresh.1
  have hptr := p.ptrSize_ge
  have hroom := hbc.alloc_ge
  obtain ⟨hrequest, -⟩ := hbc.requestSize_eq
  rw [htotal] at hrequest
  have hsplit : (j + 2) * pool.allocSize = (j + 1) * pool.allocSize + pool.allocSize := by ring
  have hsecond : pool.allocSize ≤ (j + 1) * pool.allocSize := Nat.le_mul_of_pos_left _ (by omega)
  generalize hptrEq : answer.addr = ptr at hpos hcarve hblocks' hbytes hlinked hlast ⊢
  rw [chunksFrom_cons] at hlinked
  have hheader : carved.Live ptr p.ptrSize :=
    ⟨⟨ptr, pool.requestSize p⟩, by simp [hblocks'], le_rfl, by simp only; omega⟩
  -- the header word is written after the carving, below all chunks
  have hkeep : ∀ chunk, ptr + p.ptrSize ≤ chunk →
      (carved.setNext p ptr pool.first).next p chunk = carved.next p chunk := by
    intro chunk hchunk
    exact Heap.next_setNext_of_apart (Or.inr hchunk)
  have hchunkLive : (carved.setNext p ptr pool.first).Live (ptr + p.ptrSize) p.ptrSize :=
    ⟨⟨ptr, pool.requestSize p⟩, by simp [hblocks'], by simp, by simp only; omega⟩
  have hhead : (carved.setNext p ptr pool.first).next p (ptr + p.ptrSize) =
      ptr + p.ptrSize + pool.allocSize := by
    rw [hkeep _ le_rfl]
    rw [chunksFrom_cons, linked_cons_cons] at hlinked
    exact hlinked.1
  refine ⟨carved.setNext p ptr pool.first, ?_, hblocks', ?_, ?_, ?_, ?_⟩
  · unfold resizeAndMalloc
    simp only [hptrEq, if_neg (show ptr ≠ 0 by omega), SegregatedStorage.addBlock, hcarve, bind,
      Except.bind, pure, Except.pure, Heap.storeNext_eq_ok _ hheader]
    rw [SegregatedStorage.malloc_eq_ok (by exact hchunkLive)]
    simp only [hhead]
    rfl
  · intro x hx
    rw [Heap.setNext_bytes_of_outside (by omega), hbytes x (by omega)]
    exact Heap.malloc_bytes_of_outside (by omega)
  · apply hlinked.congr
    intro chunk hchunk
    apply hkeep
    have hmem := List.dropLast_subset _ hchunk
    rw [← chunksFrom_cons] at hmem
    obtain ⟨i, -, rfl⟩ := mem_chunksFrom.mp hmem
    omega
  · rw [hkeep _ (by omega), hlast]
  · exact Heap.next_setNext_self _ _ hbc.first_lt

theorem WellFormed.tail_lt (hw : WellFormed p h pool free live) :
    pool.storage.tail < p.sizeModulus := by
  by_cases hne : free = []
  · rw [hw.tail_eq, hne, List.getLastD_nil, p.sizeModulus_eq]
    positivity
  · obtain ⟨front, hfront⟩ := hw.exists_sentinel hne
    exact (hw.chunk_lt (hw.free_mem (by rw [hfront]; simp))).2

/-- An empty list is the empty chain of a fresh pool, or the sentinel alone. -/
theorem WellFormed.free_of_empty (hw : WellFormed p h pool free live)
    (hempty : pool.storage.head = pool.storage.tail) :
    free = [] ∨ free = [pool.storage.tail] := by
  cases free with
  | nil => exact Or.inl rfl
  | cons head rest =>
    right
    have hhead : pool.storage.head = head := hw.head_eq
    obtain ⟨front, hfront⟩ := hw.exists_sentinel (by simp)
    cases front with
    | nil => exact hfront
    | cons first front =>
      -- the head would be listed a second time as the sentinel
      have hnodup := (List.nodup_append.mp hw.nodup_append).1
      rw [List.cons_append, List.cons.injEq] at hfront
      rw [hfront.2, List.nodup_cons] at hnodup
      exact absurd (by simp [← hempty, hhead]) hnodup.1

theorem WellFormed.head_ne_tail (hw : WellFormed p h pool free live) (htwo : 1 < free.length) :
    pool.storage.head ≠ pool.storage.tail := by
  intro hempty
  rcases hw.free_of_empty hempty with hnil | hsingle
  · simp [hnil] at htwo
  · simp [hsingle] at htwo

/-- The pool with a block of `j + 2` chunks in front of its list. -/
def spliced (p : Platform) (pool : Pool) (ptr j : ℕ) : Pool where
  nextSize := pool.nextSize * 2 % p.sizeModulus
  allocSize := pool.allocSize
  storage := { pool.grownStorage p ptr j with head := ptr + p.ptrSize }
  first := ptr
  blocks := ⟨ptr, pool.requestSize p⟩ :: pool.blocks

/-- A block whose header leads to the other blocks may be put in front of them. -/
theorem BlockChain.grown (hbc : BlockChain p h pool) {ptr j : ℕ}
    (hblock : ⟨ptr, pool.requestSize p⟩ ∈ h.blocks) (hpos : 0 < ptr)
    (hspace : ptr + pool.requestSize p ≤ p.sizeModulus)
    (hapart : ∀ b ∈ pool.blocks, Block.Apart ⟨ptr, pool.requestSize p⟩ b)
    (htotal : pool.totalSize p = (j + 2) * pool.allocSize) (hheader : h.next p ptr = pool.first) :
    BlockChain p h (pool.grown p ptr j) := by
  obtain ⟨hrequest, -⟩ := hbc.requestSize_eq
  rw [htotal] at hrequest
  have hnew : (pool.grown p ptr j).Carved p ⟨ptr, pool.requestSize p⟩ :=
    ⟨⟨j, by rw [hrequest]; exact Nat.add_comm _ _⟩, hpos, hspace⟩
  exact {
    alloc_ge := hbc.alloc_ge
    grows := hbc.grows_again htotal
    owned := by
      intro b hb
      rcases List.mem_cons.mp hb with rfl | hold
      · exact hblock
      · exact hbc.owned b hold
    carved := by
      intro b hb
      rcases List.mem_cons.mp hb with rfl | hold
      · exact hnew
      · exact hbc.carved b hold
    apart := List.pairwise_cons.mpr ⟨hapart, hbc.apart⟩
    first_eq := rfl
    headers := by
      apply hbc.headers.cons
      intro first hfirst
      change h.next p ptr = first
      rw [hheader, hbc.first_eq, List.headD_eq_head?_getD, Option.mem_def.mp hfirst,
        Option.getD_some] }

/-- The chunks of the new block come before the others. -/
theorem BlockChain.chunks_grown (hbc : BlockChain p h pool) {ptr j : ℕ}
    (htotal : pool.totalSize p = (j + 2) * pool.allocSize) :
    (pool.grown p ptr j).chunks p =
      chunksFrom (ptr + p.ptrSize) pool.allocSize (j + 2) ++ pool.chunks p := by
  have hcount : (pool.requestSize p - p.ptrSize) / pool.allocSize = j + 2 := by
    rw [hbc.requestSize_eq.1, htotal, Nat.add_sub_cancel, Nat.mul_div_cancel _ hbc.alloc_pos]
  change chunksFrom (ptr + p.ptrSize) pool.allocSize
    ((pool.requestSize p - p.ptrSize) / pool.allocSize) ++ pool.chunks p = _
  rw [hcount]

/-- If its last chunk leads to the list, its chunks may be put in front of the list. -/
theorem WellFormed.wellFormed_spliced (hw : WellFormed p h pool free live) {ptr j : ℕ}
    (hblock : ⟨ptr, pool.requestSize p⟩ ∈ h.blocks) (hpos : 0 < ptr)
    (hspace : ptr + pool.requestSize p ≤ p.sizeModulus)
    (hapart : ∀ b ∈ pool.blocks, Block.Apart ⟨ptr, pool.requestSize p⟩ b)
    (htotal : pool.totalSize p = (j + 2) * pool.allocSize)
    (hlinked : Linked (h.next p) (chunksFrom (ptr + p.ptrSize) pool.allocSize (j + 2)))
    (hspliced : h.next p (ptr + p.ptrSize + (j + 1) * pool.allocSize) = pool.storage.head)
    (hheader : h.next p ptr = pool.first) :
    WellFormed p h (pool.spliced p ptr j)
      (chunksFrom (ptr + p.ptrSize) pool.allocSize (j + 2) ++ free) live := by
  have hgrown := hw.blockChain.grown hblock hpos hspace hapart htotal hheader
  exact {
    alloc_ge := hgrown.alloc_ge
    grows := hgrown.grows
    owned := hgrown.owned
    carved := hgrown.carved
    apart := hgrown.apart
    partition := by
      have hall : (pool.spliced p ptr j).chunks p =
          chunksFrom (ptr + p.ptrSize) pool.allocSize (j + 2) ++ pool.chunks p :=
        hw.blockChain.chunks_grown htotal
      rw [hall, List.append_assoc]
      exact hw.partition.append_left _
    head_eq := by
      rw [chunksFrom_cons]
      rfl
    tail_eq := by
      change (if pool.storage.tail = 0 then _ else pool.storage.tail) = _
      by_cases hne : free = []
      · rw [if_pos (by rw [hw.tail_eq, hne, List.getLastD_nil]), hne, List.append_nil,
          chunksFrom_succ, List.getLastD_concat]
      · obtain ⟨front, hfront⟩ := hw.exists_sentinel hne
        have htail := (hw.chunk_lt (hw.free_mem (hw.tail_mem hne))).1
        rw [if_neg (by omega), hfront, ← List.append_assoc, List.getLastD_concat]
    nonempty := by simp [chunksFrom_cons]
    linked := by
      apply linked_append.mpr ⟨hlinked, hw.linked, ?_⟩
      intro last hlast first hfirst
      rw [chunksFrom_succ, List.getLast?_concat, Option.mem_some_iff] at hlast
      rw [← hlast, hspliced, hw.head_eq, List.headD_eq_head?_getD, Option.mem_def.mp hfirst,
        Option.getD_some]
    first_eq := rfl
    headers := hgrown.headers }

/-- Growing an empty list keeps the invariant; the first new chunk is handed out. -/
theorem WellFormed.wellFormed_grown (hw : WellFormed p h pool free live)
    (hempty : pool.storage.head = pool.storage.tail) {ptr j : ℕ} {after : Heap}
    (hfresh : h.Fresh p ptr (pool.requestSize p))
    (htotal : pool.totalSize p = (j + 2) * pool.allocSize)
    (hafter : GrownHeap p h pool ptr j after) :
    WellFormed p after (pool.grown p ptr j) (pool.newChunks p ptr j ++ free)
      ((ptr + p.ptrSize) :: live) := by
  obtain ⟨hpos, hspace, hapart⟩ := hfresh
  have hroom := hw.alloc_ge
  have hkept : WellFormed p after pool free live := by
    apply hw.frame_blocks after
    · intro b hb
      rw [hafter.blocks]
      exact List.mem_cons_of_mem _ (hw.owned b hb)
    · intro b hb x hlow hhigh
      have hb' := hapart b (hw.owned b hb)
      unfold Block.Apart Foundation.Apart at hb'
      apply hafter.bytes
      simp only at hb'
      omega
  have hlinked := hafter.linked
  rw [newChunks, ← chunksFrom_cons] at hlinked
  have hspliced := hkept.wellFormed_spliced (by rw [hafter.blocks]; exact List.mem_cons_self) hpos
    hspace (fun b hb ↦ hapart b (hw.owned b hb)) htotal hlinked (by rw [hafter.spliced, hempty])
    hafter.header
  have hsecond : after.next p (ptr + p.ptrSize) = ptr + p.ptrSize + pool.allocSize := by
    rw [chunksFrom_cons, chunksFrom_cons, linked_cons_cons] at hlinked
    exact hlinked.1
  have hne := hspliced.head_ne_tail (by rw [chunksFrom_cons, chunksFrom_cons]; simp)
  obtain ⟨rest, hrest, hpopped⟩ := hspliced.wellFormed_pop hne
  rw [chunksFrom_cons, List.cons_append, List.cons.injEq] at hrest
  rw [← hrest.2] at hpopped
  have hpool : { pool.spliced p ptr j with storage := { (pool.spliced p ptr j).storage with
      head := after.next p (pool.spliced p ptr j).storage.head } } = pool.grown p ptr j := by
    change Pool.mk _ _ ⟨after.next p (ptr + p.ptrSize), _⟩ _ _ = _
    rw [hsecond]
    rfl
  rw [hpool] at hpopped
  exact hpopped

/-! ## All outcomes of `Malloc` -/

/-- The next growth is computed without wrap-around. -/
def Fits (p : Platform) (pool : Pool) : Prop :=
  pool.nextSize * pool.allocSize + p.ptrSize < p.sizeModulus

/-- The pool after its first free chunk was taken. -/
def popped (p : Platform) (h : Heap) (pool : Pool) : Pool :=
  { pool with storage := { pool.storage with head := h.next p pool.storage.head } }

/-- What `Malloc` can do on a well-formed pool. -/
inductive MallocOutcome (p : Platform) (h : Heap) (pool : Pool) (free live : List ℕ)
    (answer : Answer) : Except Fault (ℕ × Heap × Pool) → Prop
  | pop {rest : List ℕ} (hne : pool.storage.head ≠ pool.storage.tail)
      (hfree : free = pool.storage.head :: rest)
      (hwf : WellFormed p h (pool.popped p h) rest (pool.storage.head :: live)) :
      MallocOutcome p h pool free live answer (.ok (pool.storage.head, h, pool.popped p h))
  | outOfMemory (hempty : pool.storage.head = pool.storage.tail) (hnull : answer.addr = 0) :
      MallocOutcome p h pool free live answer (.ok (0, h, pool))
  | grow {j : ℕ} {after : Heap} (hempty : pool.storage.head = pool.storage.tail)
      (haddr : answer.addr ≠ 0) (hafter : GrownHeap p h pool answer.addr j after)
      (hwf : WellFormed p after (pool.grown p answer.addr j)
        (pool.newChunks p answer.addr j ++ free) ((answer.addr + p.ptrSize) :: live)) :
      MallocOutcome p h pool free live answer
        (.ok (answer.addr + p.ptrSize, after, pool.grown p answer.addr j))
  | overflow {addr : ℕ} (hempty : pool.storage.head = pool.storage.tail)
      (haddr : answer.addr ≠ 0) (hwrap : ¬ pool.Fits p) :
      MallocOutcome p h pool free live answer (.error (.leavesBlock addr))

/-- `::malloc` refuses, and nothing has happened. -/
theorem malloc_of_null (hempty : pool.storage.head = pool.storage.tail) {answer : Answer}
    (hnull : answer.addr = 0) : pool.malloc p h answer = .ok (0, h, pool) := by
  unfold Pool.malloc resizeAndMalloc
  simp only [SegregatedStorage.empty, hempty, beq_self_eq_true, Bool.not_true, if_pos hnull]
  rfl

/-- A growth is handed either two chunks at least or more than the block it asked for. -/
theorem WellFormed.resizeAndMalloc_outcome (hw : WellFormed p h pool free live) {answer : Answer}
    (hempty : pool.storage.head = pool.storage.tail) (haddr : answer.addr ≠ 0)
    (hfresh : h.Fresh p answer.addr (pool.requestSize p)) :
    MallocOutcome p h pool free live answer (pool.resizeAndMalloc p h answer) := by
  by_cases htotal : ∃ j, pool.totalSize p = (j + 2) * pool.allocSize
  · obtain ⟨j, hj⟩ := htotal
    obtain ⟨after, hresult, hafter⟩ :=
      hw.blockChain.resizeAndMalloc_eq_ok hw.tail_lt hfresh hj
    rw [hresult]
    exact .grow hempty haddr hafter (hw.wellFormed_grown hempty hfresh hj hafter)
  · have hwrap : ¬ pool.Fits p := by
      intro hfits
      obtain ⟨j, hj, -⟩ := hw.blockChain.totalSize_eq hfits
      exact htotal ⟨j, hj⟩
    unfold resizeAndMalloc
    simp only [if_neg haddr]
    cases hadd : pool.storage.addBlock p (h.malloc (pool.requestSize p) answer)
        (answer.addr + p.ptrSize) (pool.totalSize p) pool.allocSize with
    | ok carved =>
      exact absurd (SegregatedStorage.multiple_of_addBlock (by omega) hadd) htotal
    | error fault =>
      obtain ⟨addr, rfl⟩ := SegregatedStorage.addBlock_error hadd
      exact .overflow hempty haddr hwrap

/-- Every call of `Malloc` has one of the outcomes. -/
theorem WellFormed.malloc_outcome (hw : WellFormed p h pool free live) (answer : Answer)
    (hfresh : pool.storage.head = pool.storage.tail → answer.addr ≠ 0 →
      h.Fresh p answer.addr (pool.requestSize p)) :
    MallocOutcome p h pool free live answer (pool.malloc p h answer) := by
  by_cases hempty : pool.storage.head = pool.storage.tail
  · have hmalloc : pool.malloc p h answer = pool.resizeAndMalloc p h answer := by
      unfold Pool.malloc
      simp [SegregatedStorage.empty, hempty]
    rw [hmalloc]
    by_cases haddr : answer.addr = 0
    · unfold resizeAndMalloc
      rw [if_pos haddr]
      exact .outOfMemory hempty haddr
    · exact hw.resizeAndMalloc_outcome hempty haddr (hfresh hempty haddr)
  · obtain ⟨rest, hrest, hresult, hwf⟩ := hw.malloc_spec answer hempty
    rw [hresult]
    exact .pop hempty hrest hwf

/-- The lowest answer of `::malloc` that is not null. -/
def lowest : Answer := ⟨1, fun _ ↦ 0⟩

/-- The first two chunks that a pool hands out in an empty heap lie next to each other. -/
theorem malloc_construct_twice {requestedSize : ℕ} (hfits : (construct p requestedSize).Fits p) :
    ∃ heap grown last popped,
      Heap.Fresh ⟨fun _ ↦ 0, []⟩ p lowest.addr ((construct p requestedSize).requestSize p) ∧
      (construct p requestedSize).malloc p ⟨fun _ ↦ 0, []⟩ lowest =
        .ok (1 + p.ptrSize, heap, grown) ∧
      grown.storage.head ≠ grown.storage.tail ∧
      grown.malloc p heap lowest =
        .ok (1 + p.ptrSize + (construct p requestedSize).allocSize, last, popped) := by
  have hw := wellFormed_construct p ⟨fun _ ↦ 0, []⟩ requestedSize
  have hrequest := hw.blockChain.requestSize_eq
  have hfresh : Heap.Fresh ⟨fun _ ↦ 0, []⟩ p lowest.addr
      ((construct p requestedSize).requestSize p) :=
    ⟨Nat.one_pos, by change 1 + _ ≤ _; omega, fun b hb ↦ absurd hb List.not_mem_nil⟩
  have htotal : (construct p requestedSize).totalSize p =
      (62 + 2) * (construct p requestedSize).allocSize := by
    unfold Fits at hfits
    exact Nat.mod_eq_of_lt (by omega)
  obtain ⟨heap, hgrow, hgrown⟩ :=
    hw.blockChain.resizeAndMalloc_eq_ok hw.tail_lt hfresh htotal
  have hwf := hw.wellFormed_grown rfl hfresh htotal hgrown
  have hne := hwf.head_ne_tail (by simp [newChunks, chunksFrom])
  obtain ⟨-, -, hsecond, -⟩ := hwf.malloc_spec lowest hne
  exact ⟨heap, _, _, _, hfresh, hgrow, hne, hsecond⟩

end Growth

end Pool

end ServerCore.MemoryPool
