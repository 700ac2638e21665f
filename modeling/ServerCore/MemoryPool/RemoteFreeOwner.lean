import Mathlib.Tactic.Common
import ServerCore.MemoryPool.RemoteFree

/-!
# The invariant of a pool with remote frees

The invariant has a part for the owner, point by point, and a part for the remote threads, of which
the lock lets one at a time touch the end of the list. Both meet in the well-formed pool. They
disturb each other in one place only: the growth links the new block to whatever `tail_` is when it is
read, and the old sentinel is reachable through `tail_` only as long as it is the sentinel. Here are
the steps of the owner, each of which keeps the invariant if the growth finds the sentinel there that
`head_` still points to.
-/

namespace ServerCore.MemoryPool

open Foundation Lock

/-- The thread is past `lock()` and has not finished `unlock()`. -/
def RemotePc.Inside (pc : RemotePc) : Prop :=
  pc ≠ .outside ∧ ∀ chunk, pc ≠ .locking chunk

namespace SharedPool

variable {T : Type} {p : Platform} {s after : SharedPool T} {free : List ℕ}

/-- When `segregate` reads `tail_` to link it behind the new block, `tail_` still equals `head_`. -/
def Unmoved (s : SharedPool T) : SharedPoolStep T → Prop
  | .owner _ =>
    match s.owner with
    | .loadTail _ => s.pool.storage.tail = s.pool.storage.head
    | _ => True
  | _ => True

instance (s : SharedPool T) (a : SharedPoolStep T) : Decidable (s.Unmoved a) := by
  unfold Unmoved
  split
  · split <;> infer_instance
  · infer_instance

/-! ## The invariant -/

/-- The pool as it was before a first growth stored `tail_`. -/
def settled (pool : Pool) : Pool :=
  { pool with storage :=
    { pool.storage with tail := if pool.storage.head = 0 then 0 else pool.storage.tail } }

/-- The block that the growth in progress has obtained. -/
structure NewBlock (p : Platform) (heap : Heap) (pool : Pool) (ptr : ℕ) : Prop where
  mem : ⟨ptr, pool.requestSize p⟩ ∈ heap.blocks
  pos : 0 < ptr
  space : ptr + pool.requestSize p ≤ p.sizeModulus
  size : pool.requestSize p = pool.totalSize p + p.ptrSize
  apart : ∀ b ∈ heap.blocks, b = ⟨ptr, pool.requestSize p⟩ ∨
    Block.Apart ⟨ptr, pool.requestSize p⟩ b
  foreign : ∀ b ∈ pool.blocks, Block.Apart ⟨ptr, pool.requestSize p⟩ b

/-- The chunks from `last` on are linked, and the last one leads to the list. -/
structure Carving (p : Platform) (heap : Heap) (pool : Pool) (ptr last n : ℕ) : Prop where
  low : ptr ≤ last
  count : last + n * pool.allocSize = lastChunk p pool ptr
  linked : Linked (heap.next p) (chunksFrom last pool.allocSize (n + 1))
  spliced : heap.next p (lastChunk p pool ptr) = pool.storage.head
  tail : pool.storage.head = 0 → pool.storage.tail = lastChunk p pool ptr

/-- What the owner relies on at each point. -/
def OwnerSound (p : Platform) (heap : Heap) (pool : Pool) : OwnerPc → Prop
  | .outside | .emptyHead | .request => pool.storage.head = 0 → pool.storage.tail = 0
  | .emptyTail head =>
    (pool.storage.head = 0 → pool.storage.tail = 0) ∧ head = pool.storage.head
  | .testTail ptr => (pool.storage.head = 0 → pool.storage.tail = 0) ∧ NewBlock p heap pool ptr
  | .setTail ptr => pool.storage.head = 0 ∧ NewBlock p heap pool ptr
  | .loadEnd ptr =>
    pool.storage.head = 0 ∧ pool.storage.tail = lastChunk p pool ptr ∧ NewBlock p heap pool ptr
  | .linkEnd ptr tail =>
    pool.storage.head = 0 ∧ pool.storage.tail = lastChunk p pool ptr ∧
      tail = lastChunk p pool ptr ∧ NewBlock p heap pool ptr
  | .loadTail ptr => pool.storage.head ≠ 0 ∧ NewBlock p heap pool ptr
  | .linkLast ptr tail =>
    pool.storage.head ≠ 0 ∧ tail = pool.storage.head ∧ NewBlock p heap pool ptr
  | .carve ptr it last =>
    it = last - pool.allocSize ∧ (∃ n, Carving p heap pool ptr last n) ∧ NewBlock p heap pool ptr
  | .storeHead ptr =>
    (∃ n, Carving p heap pool ptr (firstChunk p ptr) (n + 1)) ∧ NewBlock p heap pool ptr
  | .popHead => pool.storage.head ≠ 0 ∧ pool.storage.head ≠ pool.storage.tail
  | .popNext ret =>
    ret = pool.storage.head ∧ pool.storage.head ≠ 0 ∧ pool.storage.head ≠ pool.storage.tail
  | .popStore ret next =>
    ret = pool.storage.head ∧ next = heap.next p pool.storage.head ∧
      pool.storage.head ≠ 0 ∧ pool.storage.head ≠ pool.storage.tail

/-- What the remote threads rely on. -/
structure RemoteSound (p : Platform) (s : SharedPool T) : Prop where
  sole : s.lockTail.Sole
  inside : ∀ t, (s.remote t).Inside → s.lockTail.pc t = .writing
  returning : ∀ c, c ∈ s.returning ↔ ∃ t, (s.remote t).chunk = some c
  distinct : ∀ t u c, (s.remote t).chunk = some c → (s.remote u).chunk = some c → t = u
  loaded : ∀ t c tail, s.remote t = .link c tail → tail = s.pool.storage.tail
  linked : ∀ t c, s.remote t = .storeTail c → s.heap.next p s.pool.storage.tail = c

structure Sound (p : Platform) (s : SharedPool T) (free : List ℕ) : Prop where
  wellFormed : (settled s.pool).WellFormed p s.heap free (s.live ++ s.returning)
  owner : OwnerSound p s.heap s.pool s.owner
  remote : s.RemoteSound p

/-- The free list after a step. Three steps change it. -/
def listAfter (p : Platform) (s : SharedPool T) (free : List ℕ) : SharedPoolStep T → List ℕ
  | .owner _ =>
    match s.owner with
    | .storeHead ptr =>
      chunksFrom (firstChunk p ptr) s.pool.allocSize (s.pool.totalSize p / s.pool.allocSize) ++ free
    | .popStore _ _ => free.tail
    | _ => free
  | .remote t =>
    match s.remote t with
    | .storeTail chunk => free ++ [chunk]
    | _ => free
  | _ => free

theorem settled_eq {pool : Pool} (h : pool.storage.head = 0 → pool.storage.tail = 0) :
    settled pool = pool := by
  obtain ⟨nextSize, allocSize, ⟨head, tail⟩, first, blocks⟩ := pool
  simp only [settled, Pool.mk.injEq, SegregatedStorage.mk.injEq, true_and, and_true]
  split
  · exact (h ‹_›).symm
  · rfl

theorem settled_eq_of_head {pool : Pool} (h : pool.storage.head ≠ 0) : settled pool = pool :=
  settled_eq fun hzero ↦ absurd hzero h

/-- The ends of a list are null together. -/
theorem null_iff_of_wellFormed {pool : Pool} {h : Heap} {live : List ℕ}
    (hw : pool.WellFormed p h free live) : pool.storage.head = 0 ↔ pool.storage.tail = 0 := by
  by_cases hne : free = []
  · rw [hw.head_eq, hw.tail_eq, hne, List.headD_nil, List.getLastD_nil]
  · obtain ⟨rest, hrest⟩ := hw.exists_head hne
    have hhead := (hw.chunk_lt (hw.free_mem (hrest ▸ List.mem_cons_self))).1
    have htail := (hw.chunk_lt (hw.free_mem (hw.tail_mem hne))).1
    omega

theorem Initial.sound [DecidableEq T] (hs : s.Initial p) : ∃ free, s.Sound p free := by
  obtain ⟨⟨free, hw⟩, hreturning, ⟨howner, hremote⟩, hlock⟩ := hs
  have hnull := (null_iff_of_wellFormed hw).mp
  refine ⟨free, ?_, ?_, ?_⟩
  · rw [settled_eq hnull, hreturning, List.append_nil]
    exact hw
  · rw [howner]
    exact hnull
  · exact {
      sole := by rw [hlock]; exact Spinlock.sole_initial
      inside := fun t ht ↦ absurd (hremote t) ht.1
      returning := by simp [hreturning, hremote, RemotePc.chunk]
      distinct := by simp [hremote, RemotePc.chunk]
      loaded := by simp [hremote]
      linked := by simp [hremote] }

/-! ## The new block -/

section New

variable {ptr : ℕ}

/-- A pointer that passes for one into the new block, up to its last chunk, is one. -/
theorem NewBlock.inside (hnew : NewBlock p s.heap s.pool ptr) (halloc : 0 < s.pool.allocSize)
    {x : ℕ} (hsame : s.heap.SameBlock (firstChunk p ptr) x p.ptrSize) (hx : x ≤ lastChunk p s.pool ptr) :
    ptr ≤ x ∧ x + p.ptrSize ≤ ptr + s.pool.requestSize p := by
  obtain ⟨b, hb, hfirst, hin⟩ := hsame
  have hptr := p.ptrSize_ge
  have hsize := hnew.size
  unfold firstChunk Block.Contains at hfirst
  unfold Block.Contains at hin
  rcases hnew.apart b hb with rfl | hapart
  · exact hin
  · unfold Block.Apart Foundation.Apart at hapart
    unfold lastChunk firstChunk at hx
    simp only at hapart
    omega

/-- Nothing of the pool lies in the new block. -/
theorem NewBlock.outside_chunk (hnew : NewBlock p s.heap s.pool ptr) {live : List ℕ}
    (hw : (settled s.pool).WellFormed p s.heap free live) {chunk : ℕ}
    (hchunk : chunk ∈ s.pool.chunks p) :
    chunk + s.pool.allocSize ≤ ptr ∨ ptr + s.pool.requestSize p ≤ chunk := by
  obtain ⟨b, hb, hlow, hhigh⟩ := hw.chunk_bounds hchunk
  have hapart := hnew.foreign b hb
  unfold Block.Apart Foundation.Apart at hapart
  change chunk + s.pool.allocSize ≤ _ at hhigh
  simp only at hapart
  omega

/-- A write into the new block leaves the pool alone. -/
theorem Sound.wellFormed_new (hs : s.Sound p free) (hnew : NewBlock p s.heap s.pool ptr)
    {heap : Heap} (hblocks : heap.blocks = s.heap.blocks)
    (hbytes : ∀ x, x < ptr ∨ ptr + s.pool.requestSize p ≤ x → heap.bytes x = s.heap.bytes x) :
    (settled s.pool).WellFormed p heap free (s.live ++ s.returning) := by
  apply hs.wellFormed.frame_blocks heap
  · intro b hb
    rw [hblocks]
    exact hs.wellFormed.owned b hb
  · intro b hb x hlow hhigh
    have hapart := hnew.foreign b hb
    unfold Block.Apart Foundation.Apart at hapart
    simp only at hapart
    apply hbytes
    omega

/-- The block is still there after a write, and wherever the list ends by then. -/
theorem NewBlock.of_write (hnew : NewBlock p s.heap s.pool ptr) {heap : Heap}
    (hblocks : heap.blocks = s.heap.blocks) (tail : ℕ) :
    NewBlock p heap { s.pool with storage := { s.pool.storage with tail := tail } } ptr where
  mem := by
    rw [hblocks]
    exact hnew.mem
  pos := hnew.pos
  space := hnew.space
  size := hnew.size
  apart := by
    rw [hblocks]
    exact hnew.apart
  foreign := hnew.foreign

end New

/-! ## The owner -/

/-- While a chunk is out, the pool has a list. -/
theorem Sound.listed (hs : s.Sound p free) {c : ℕ} (hc : c ∈ s.live ++ s.returning) :
    free ≠ [] ∧ s.pool.storage.head ≠ 0 ∧
      s.pool.WellFormed p s.heap free (s.live ++ s.returning) := by
  have hne := hs.wellFormed.free_ne_nil hc
  obtain ⟨rest, hrest⟩ := hs.wellFormed.exists_head hne
  change free = s.pool.storage.head :: rest at hrest
  have hpos := (hs.wellFormed.chunk_lt (hs.wellFormed.free_mem (hrest ▸ List.mem_cons_self))).1
  have hhead : s.pool.storage.head ≠ 0 := by omega
  have hw := hs.wellFormed
  rw [settled_eq_of_head hhead] at hw
  exact ⟨hne, hhead, hw⟩

/-- While a chunk is on its way back, the list has a sentinel. -/
theorem Sound.busy (hs : s.Sound p free) {t : T} {c : ℕ} (hc : (s.remote t).chunk = some c) :
    free ≠ [] ∧ s.pool.storage.head ≠ 0 ∧
      s.pool.WellFormed p s.heap free (s.live ++ s.returning) :=
  hs.listed (List.mem_append_right _ ((hs.remote.returning c).mpr ⟨t, hc⟩))

/-- The remote threads notice the link and the place of the sentinel only. -/
theorem RemoteSound.congr (hs : s.RemoteSound p) (hlock : after.lockTail = s.lockTail)
    (hremote : after.remote = s.remote) (hreturning : after.returning = s.returning)
    (hbusy : ∀ t c, (s.remote t).chunk = some c →
      after.pool.storage.tail = s.pool.storage.tail ∧
        after.heap.next p s.pool.storage.tail = s.heap.next p s.pool.storage.tail) :
    after.RemoteSound p where
  sole := by
    rw [hlock]
    exact hs.sole
  inside := by
    rw [hlock, hremote]
    exact hs.inside
  returning := by
    rw [hreturning, hremote]
    exact hs.returning
  distinct := by
    rw [hremote]
    exact hs.distinct
  loaded := by
    rw [hremote]
    intro t c tail ht
    rw [(hbusy t c (by rw [ht]; rfl)).1]
    exact hs.loaded t c tail ht
  linked := by
    rw [hremote]
    intro t c ht
    obtain ⟨htail, hnext⟩ := hbusy t c (by rw [ht]; rfl)
    rw [htail, hnext]
    exact hs.linked t c ht

/-- The owner goes on without an access that writes. -/
theorem Sound.of_owner {owner : OwnerPc} (hs : s.Sound p free)
    (howner : OwnerSound p s.heap s.pool owner) : Sound p { s with owner := owner } free :=
  ⟨hs.wellFormed, howner, { hs.remote with }⟩

/-- The owner writes into its new block. -/
theorem Sound.of_new {ptr : ℕ} {heap : Heap} {owner : OwnerPc} (hs : s.Sound p free)
    (hnew : NewBlock p s.heap s.pool ptr) (hblocks : heap.blocks = s.heap.blocks)
    (hbytes : ∀ x, x < ptr ∨ ptr + s.pool.requestSize p ≤ x → heap.bytes x = s.heap.bytes x)
    (howner : OwnerSound p heap s.pool owner) :
    Sound p { s with heap := heap, owner := owner } free := by
  refine ⟨hs.wellFormed_new hnew hblocks hbytes, howner, hs.remote.congr rfl rfl rfl ?_⟩
  intro t c hc
  obtain ⟨hne, -, hw⟩ := hs.busy hc
  have hout := hnew.outside_chunk hs.wellFormed (hw.free_mem (hw.tail_mem hne))
  have hroom := hw.alloc_ge
  refine ⟨rfl, Heap.next_congr ?_⟩
  intro x hlow hhigh
  apply hbytes
  omega

theorem linkNew_eq_some {ptr chunk value : ℕ} {owner : OwnerPc} :
    s.linkNew p ptr chunk value owner = some after ↔
      s.heap.SameBlock (firstChunk p ptr) chunk p.ptrSize ∧
        { s with heap := s.heap.setNext p chunk value, owner := owner } = after := by
  unfold linkNew Heap.storeNextFrom
  split <;> simp_all [Except.toOption]

/-- The owner links a chunk of its new block. -/
theorem Sound.of_linkNew {ptr chunk value : ℕ} {owner : OwnerPc} (hs : s.Sound p free)
    (hnew : NewBlock p s.heap s.pool ptr)
    (hstep : s.linkNew p ptr chunk value owner = some after) (hchunk : chunk ≤ lastChunk p s.pool ptr)
    (howner : ptr ≤ chunk → NewBlock p (s.heap.setNext p chunk value) s.pool ptr →
      OwnerSound p (s.heap.setNext p chunk value) s.pool owner) : after.Sound p free := by
  obtain ⟨hsame, rfl⟩ := linkNew_eq_some.mp hstep
  obtain ⟨hlow, hhigh⟩ := hnew.inside hs.wellFormed.alloc_pos hsame hchunk
  apply hs.of_new hnew (Heap.setNext_blocks _ _ _ _)
  · intro x hx
    exact Heap.setNext_bytes_of_outside (by omega)
  · exact howner hlow (hnew.of_write (Heap.setNext_blocks _ _ _ _) s.pool.storage.tail)

/-- The last chunk is linked to the list. -/
theorem carving_last {ptr : ℕ} {heap : Heap}
    (hlow : ptr ≤ lastChunk p s.pool ptr)
    (hspliced : heap.next p (lastChunk p s.pool ptr) = s.pool.storage.head)
    (htail : s.pool.storage.head = 0 → s.pool.storage.tail = lastChunk p s.pool ptr) :
    Carving p heap s.pool ptr (lastChunk p s.pool ptr) 0 where
  low := hlow
  count := by simp
  linked := by simp [chunksFrom]
  spliced := hspliced
  tail := htail

/-- One more chunk is linked in front of the others. -/
theorem Carving.next {ptr it last n : ℕ} (hcarving : Carving p s.heap s.pool ptr last n)
    (hsize : p.ptrSize ≤ s.pool.allocSize) (hlast : last < p.sizeModulus)
    (hlow : ptr ≤ it) (hit : it + s.pool.allocSize = last) :
    Carving p (s.heap.setNext p it last) s.pool ptr it (n + 1) where
  low := hlow
  count := by
    calc
      it + (n + 1) * s.pool.allocSize = (it + s.pool.allocSize) + n * s.pool.allocSize := by ring
      _ = last + n * s.pool.allocSize := by rw [hit]
      _ = lastChunk p s.pool ptr := hcarving.count
  linked := by
    rw [chunksFrom_cons, hit]
    have hkept : Linked ((s.heap.setNext p it last).next p)
        (chunksFrom last s.pool.allocSize (n + 1)) := by
      apply hcarving.linked.congr
      intro chunk hchunk
      obtain ⟨i, -, rfl⟩ := mem_chunksFrom.mp (List.dropLast_subset _ hchunk)
      apply Heap.next_setNext_of_apart
      unfold Foundation.Apart
      omega
    apply hkept.cons
    intro first hfirst
    rw [chunksFrom_cons, List.head?_cons, Option.mem_some_iff] at hfirst
    rw [← hfirst]
    exact Heap.next_setNext_self _ _ hlast
  spliced := by
    have hcount := hcarving.count
    change (s.heap.setNext p it last).next p (lastChunk p s.pool ptr) = _
    rw [Heap.next_setNext_of_apart]
    · exact hcarving.spliced
    · unfold Foundation.Apart
      omega
  tail := hcarving.tail

/-- `::malloc` has answered with a block. -/
theorem sound_request {answer : Answer} (hs : s.Sound p free)
    (hnull : s.pool.storage.head = 0 → s.pool.storage.tail = 0)
    (hstep : s.request p answer = some after) : after.Sound p free := by
  unfold request at hstep
  split at hstep
  · rw [← Option.some.inj hstep]
    exact hs.of_owner hnull
  · rw [Option.ite_none_right_eq_some] at hstep
    obtain ⟨hfresh, hstep⟩ := hstep
    rw [← Option.some.inj hstep]
    have hkept (b : Block) (hb : b ∈ s.heap.blocks) (x : ℕ) (hlow : b.base ≤ x)
        (hhigh : x < b.base + b.size) :
        (s.heap.malloc (s.pool.requestSize p) answer).bytes x = s.heap.bytes x := by
      have hapart := hfresh.2.2 b hb
      unfold Block.Apart Foundation.Apart at hapart
      simp only at hapart
      apply Heap.malloc_bytes_of_outside
      omega
    refine ⟨?_, ⟨hnull, ?_⟩, hs.remote.congr rfl rfl rfl ?_⟩
    · apply hs.wellFormed.frame_blocks (s.heap.malloc (s.pool.requestSize p) answer)
      · intro b hb
        exact List.mem_cons_of_mem _ (hs.wellFormed.owned b hb)
      · intro b hb
        exact hkept b (hs.wellFormed.owned b hb)
    · exact {
        mem := List.mem_cons_self
        pos := hfresh.1
        space := hfresh.2.1
        size := hs.wellFormed.blockChain.requestSize_eq.1
        apart := by
          intro b hb
          rcases List.mem_cons.mp hb with heq | hold
          · exact Or.inl heq
          · exact Or.inr (hfresh.2.2 b hold)
        foreign := fun b hb ↦ hfresh.2.2 b (hs.wellFormed.owned b hb) }
    · intro t c hc
      obtain ⟨hne, -, hw⟩ := hs.busy hc
      obtain ⟨b, hb, hlow, hhigh⟩ := hw.chunk_bounds (hw.free_mem (hw.tail_mem hne))
      have hroom := hw.alloc_ge
      refine ⟨rfl, Heap.next_congr ?_⟩
      intro x hx hx'
      exact hkept b (hw.owned b hb) x (by omega) (by omega)

/-- The owner links one more chunk, and goes on below it unless it was the first. -/
theorem sound_carve {ptr last n : ℕ} (hs : s.Sound p free)
    (hcarving : Carving p s.heap s.pool ptr last n) (hnew : NewBlock p s.heap s.pool ptr)
    (hstep : s.linkNew p ptr (last - s.pool.allocSize) last
      (if last - s.pool.allocSize = firstChunk p ptr then .storeHead ptr
        else .carve ptr (last - s.pool.allocSize - s.pool.allocSize) (last - s.pool.allocSize)) =
          some after) : after.Sound p free := by
  have hroom : p.ptrSize ≤ s.pool.allocSize := hs.wellFormed.alloc_ge
  have hptr := p.ptrSize_ge
  have hcount := hcarving.count
  have hbound : lastChunk p s.pool ptr < p.sizeModulus := by
    have hspace := hnew.space
    have hsize := hnew.size
    have hpos := hnew.pos
    unfold lastChunk firstChunk
    omega
  apply hs.of_linkNew hnew hstep (by omega)
  intro hlow hnew'
  have hpos := hnew.pos
  have hnext : Carving p (s.heap.setNext p (last - s.pool.allocSize) last) s.pool ptr
      (last - s.pool.allocSize) (n + 1) :=
    hcarving.next hroom (by omega) hlow (by omega)
  by_cases hfirst : last - s.pool.allocSize = firstChunk p ptr
  · rw [if_pos hfirst]
    rw [hfirst] at hnext hnew' ⊢
    exact ⟨⟨n, hnext⟩, hnew'⟩
  · rw [if_neg hfirst]
    exact ⟨rfl, ⟨n + 1, hnext⟩, hnew'⟩

/-- The tail is that of the list, or the last chunk of the block if the list was empty. -/
theorem tail_of_carving {ptr last n : ℕ} (hs : s.Sound p free)
    (hcarving : Carving p s.heap s.pool ptr last n) : s.pool.storage.tail =
      if (settled s.pool).storage.tail = 0 then lastChunk p s.pool ptr
      else (settled s.pool).storage.tail := by
  by_cases hzero : s.pool.storage.head = 0
  · rw [show (settled s.pool).storage.tail = 0 from if_pos hzero, if_pos rfl, hcarving.tail hzero]
  · have hw := hs.wellFormed
    rw [settled_eq_of_head hzero] at hw ⊢
    have hne : free ≠ [] := by
      intro hnil
      apply hzero
      rw [hw.head_eq, hnil, List.headD_nil]
    have hpos := (hw.chunk_lt (hw.free_mem (hw.tail_mem hne))).1
    rw [if_neg (by omega)]

/-- The block is spliced in front of the list. -/
theorem sound_storeHead {ptr n : ℕ} (hs : s.Sound p free)
    (hcarving : Carving p s.heap s.pool ptr (firstChunk p ptr) (n + 1))
    (hnew : NewBlock p s.heap s.pool ptr)
    (hstep : s.storeHead p ptr = some after) :
    after.Sound p (chunksFrom (firstChunk p ptr) s.pool.allocSize
      (s.pool.totalSize p / s.pool.allocSize) ++ free) := by
  have hroom := hs.wellFormed.alloc_ge
  have hptr := p.ptrSize_ge
  have hsize := hnew.size
  change p.ptrSize ≤ s.pool.allocSize at hroom
  have hcount := hcarving.count
  have hfirst : firstChunk p ptr = ptr + p.ptrSize := rfl
  have htotal : s.pool.totalSize p = (n + 2) * s.pool.allocSize :=
    calc
      s.pool.totalSize p = (n + 1) * s.pool.allocSize + s.pool.allocSize := by
        unfold lastChunk at hcount
        omega
      _ = (n + 2) * s.pool.allocSize := by ring
  rw [htotal, Nat.mul_div_cancel _ (show 0 < s.pool.allocSize from hs.wellFormed.alloc_pos)]
  have hlive : s.heap.Live ptr p.ptrSize :=
    ⟨_, hnew.mem, le_rfl, by simp only; omega⟩
  rw [storeHead, Heap.storeNext_eq_ok _ hlive] at hstep
  have hafter := Option.some.inj hstep
  have hchunks : ∀ chunk, firstChunk p ptr ≤ chunk →
      (s.heap.setNext p ptr s.pool.first).next p chunk = s.heap.next p chunk := by
    intro chunk hchunk
    apply Heap.next_setNext_of_apart
    unfold Foundation.Apart
    omega
  have hkept := hs.wellFormed_new hnew (Heap.setNext_blocks s.heap p ptr s.pool.first) (by
    intro x hx
    exact Heap.setNext_bytes_of_outside (by omega))
  have hspliced := hkept.wellFormed_spliced hnew.mem hnew.pos hnew.space hnew.foreign htotal
    (by
      apply hcarving.linked.congr
      intro chunk hchunk
      obtain ⟨i, -, rfl⟩ := mem_chunksFrom.mp (List.dropLast_subset _ hchunk)
      exact hchunks _ (by omega))
    (by
      change (s.heap.setNext p ptr s.pool.first).next p
        (firstChunk p ptr + (n + 1) * s.pool.allocSize) = s.pool.storage.head
      rw [hchunks _ (by omega), hcount, hcarving.spliced])
    (Heap.next_setNext_self _ _ hs.wellFormed.blockChain.first_lt)
  have htail := tail_of_carving hs hcarving
  rw [← hcount] at htail
  have hhead : after.pool.storage.head ≠ 0 := by
    rw [← hafter]
    change firstChunk p ptr ≠ 0
    omega
  have hpool : settled after.pool = (settled s.pool).spliced p ptr n := by
    rw [settled_eq_of_head hhead, ← hafter]
    exact congrArg (fun tail ↦ Pool.mk (s.pool.nextSize * 2 % p.sizeModulus) s.pool.allocSize
      ⟨firstChunk p ptr, tail⟩ ptr (⟨ptr, s.pool.requestSize p⟩ :: s.pool.blocks)) htail
  have hw : (settled after.pool).WellFormed p after.heap
      (chunksFrom (ptr + p.ptrSize) s.pool.allocSize (n + 2) ++ free)
      (after.live ++ after.returning) := by
    rw [hpool, ← hafter]
    exact hspliced
  refine ⟨hw, ?_, ?_⟩
  · rw [settled_eq_of_head hhead] at hw
    have hne := hw.head_ne_tail (by rw [chunksFrom_cons, chunksFrom_cons]; simp)
    rw [← hafter] at hhead hne ⊢
    exact ⟨hhead, hne⟩
  · rw [← hafter]
    refine hs.remote.congr rfl rfl rfl ?_
    intro t c hc
    obtain ⟨hne, -, hold⟩ := hs.busy hc
    have hout := hnew.outside_chunk hs.wellFormed (hold.free_mem (hold.tail_mem hne))
    refine ⟨rfl, ?_⟩
    apply Heap.next_setNext_of_apart
    unfold Foundation.Apart
    omega

/-- The owner takes the first chunk. -/
theorem sound_popStore {ret next : ℕ} (hs : s.Sound p free) (howner : s.owner = .popStore ret next) :
    Sound p { s.setHead next with live := ret :: s.live, owner := .outside } free.tail := by
  have hsound := hs.owner
  rw [howner] at hsound
  obtain ⟨rfl, rfl, hhead, hne⟩ := hsound
  have hw := hs.wellFormed
  rw [settled_eq_of_head hhead] at hw
  obtain ⟨rest, rfl, hpopped⟩ := hw.wellFormed_pop hne
  have hnull := (null_iff_of_wellFormed hpopped).mp
  refine ⟨?_, hnull, { hs.remote with }⟩
  change (settled { s.pool with storage := { s.pool.storage with
    head := s.heap.next p s.pool.storage.head } }).WellFormed p s.heap rest _
  rw [settled_eq hnull]
  exact hpopped

/-- One access of the owner keeps the invariant, if the growth finds its sentinel. -/
theorem sound_ownerStep {answer : Answer} (hs : s.Sound p free)
    (hunmoved : s.Unmoved (.owner answer)) (hstep : s.ownerStep p answer = some after) :
    after.Sound p (s.listAfter p free (.owner answer)) := by
  have hsound := hs.owner
  have hpositive := hs.wellFormed.alloc_pos
  unfold ownerStep at hstep
  cases howner : s.owner with
  | outside => simp [howner] at hstep
  | emptyHead =>
    simp only [howner] at hsound hstep
    simp only [listAfter, howner]
    rw [← Option.some.inj hstep]
    exact hs.of_owner ⟨hsound, rfl⟩
  | emptyTail head =>
    simp only [howner] at hsound hstep
    simp only [listAfter, howner]
    obtain ⟨hnull, rfl⟩ := hsound
    rw [← Option.some.inj hstep]
    by_cases hempty : s.pool.storage.head = s.pool.storage.tail
    · rw [if_pos hempty]
      exact hs.of_owner hnull
    · rw [if_neg hempty]
      refine hs.of_owner ⟨?_, hempty⟩
      intro hzero
      exact hempty (hzero.trans (hnull hzero).symm)
  | request =>
    simp only [howner] at hsound hstep
    simp only [listAfter, howner]
    exact sound_request hs hsound hstep
  | testTail ptr =>
    simp only [howner] at hsound hstep
    simp only [listAfter, howner]
    obtain ⟨hnull, hnew⟩ := hsound
    rw [← Option.some.inj hstep]
    by_cases htail : s.pool.storage.tail = 0
    · rw [if_pos htail]
      have hw := hs.wellFormed
      rw [settled_eq hnull] at hw
      exact hs.of_owner ⟨(null_iff_of_wellFormed hw).mpr htail, hnew⟩
    · rw [if_neg htail]
      exact hs.of_owner ⟨fun hzero ↦ htail (hnull hzero), hnew⟩
  | setTail ptr =>
    simp only [howner] at hsound hstep
    simp only [listAfter, howner]
    obtain ⟨hzero, hnew⟩ := hsound
    rw [← Option.some.inj hstep]
    refine ⟨?_, ⟨hzero, rfl, ?_⟩, ?_⟩
    · have hsame : settled (s.setTail (lastChunk p s.pool ptr)).pool = settled s.pool := by
        simp [settled, SharedPool.setTail, hzero]
      change (settled (s.setTail (lastChunk p s.pool ptr)).pool).WellFormed _ _ _ _
      rw [hsame]
      exact hs.wellFormed
    · exact { hnew with }
    · refine hs.remote.congr rfl rfl rfl ?_
      intro t c hc
      exact absurd hzero (hs.busy hc).2.1
  | loadEnd ptr =>
    simp only [howner] at hsound hstep
    simp only [listAfter, howner]
    obtain ⟨hzero, htail, hnew⟩ := hsound
    rw [← Option.some.inj hstep]
    exact hs.of_owner ⟨hzero, htail, htail, hnew⟩
  | linkEnd ptr tail =>
    simp only [howner] at hsound hstep
    simp only [listAfter, howner]
    obtain ⟨hzero, htail, rfl, hnew⟩ := hsound
    refine hs.of_linkNew hnew hstep le_rfl ?_
    intro hlow hnew'
    obtain ⟨-, rfl⟩ := linkNew_eq_some.mp hstep
    refine ⟨rfl, ⟨0, carving_last hlow ?_ (fun _ ↦ htail)⟩, hnew'⟩
    rw [hzero]
    exact Heap.next_setNext_self _ _ (Nat.pos_of_ne_zero (by cases p <;> decide))
  | loadTail ptr =>
    simp only [howner] at hsound hstep
    simp only [listAfter, howner]
    obtain ⟨hhead, hnew⟩ := hsound
    simp only [Unmoved, howner] at hunmoved
    rw [← Option.some.inj hstep]
    exact hs.of_owner ⟨hhead, hunmoved, hnew⟩
  | linkLast ptr tail =>
    simp only [howner] at hsound hstep
    simp only [listAfter, howner]
    obtain ⟨hhead, rfl, hnew⟩ := hsound
    refine hs.of_linkNew hnew hstep le_rfl ?_
    intro hlow hnew'
    obtain ⟨-, rfl⟩ := linkNew_eq_some.mp hstep
    refine ⟨rfl, ⟨0, carving_last hlow ?_ (fun hzero ↦ absurd hzero hhead)⟩, hnew'⟩
    exact Heap.next_setNext_self _ _ hs.wellFormed.head_lt
  | carve ptr it last =>
    simp only [howner] at hsound hstep
    simp only [listAfter, howner]
    obtain ⟨rfl, ⟨n, hcarving⟩, hnew⟩ := hsound
    exact sound_carve hs hcarving hnew hstep
  | storeHead ptr =>
    simp only [howner] at hsound hstep
    simp only [listAfter, howner]
    obtain ⟨⟨n, hcarving⟩, hnew⟩ := hsound
    exact sound_storeHead hs hcarving hnew hstep
  | popHead =>
    simp only [howner] at hsound hstep
    simp only [listAfter, howner]
    rw [← Option.some.inj hstep]
    exact hs.of_owner ⟨rfl, hsound⟩
  | popNext ret =>
    simp only [howner] at hsound hstep
    simp only [listAfter, howner]
    obtain ⟨rfl, hhead, hne⟩ := hsound
    unfold Heap.loadNext at hstep
    split at hstep
    · rw [← Option.some.inj hstep]
      exact hs.of_owner ⟨rfl, rfl, hhead, hne⟩
    · cases hstep
  | popStore ret next =>
    simp only [howner] at hstep
    simp only [listAfter, howner]
    rw [← Option.some.inj hstep]
    exact sound_popStore hs howner

end SharedPool

end ServerCore.MemoryPool
