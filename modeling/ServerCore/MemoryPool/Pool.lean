import Mathlib.Algebra.Order.Ring.Nat
import Mathlib.Data.Nat.Prime.Pow
import Mathlib.Data.List.Perm.Basic
import ServerCore.MemoryPool.SegregatedStorage

/-!
# Pools

A `Pool` takes blocks of growing size from `::malloc`. The first word of a block is its header, the
link of the chain of blocks that starts at `first_`; the rest is carved into chunks for the free
list. `PurgeMemory` walks the chain and gives every block back.

`WellFormed` is the invariant of a pool that has not been purged after a growth. It names the free
chunks in list order and the chunks in the hands of the client, and says that together they are the
carved chunks, each once. Every operation of the pool has one lemma here that carries the invariant
through it; callers use these and never unfold an operation.
-/

namespace ServerCore.MemoryPool

open Foundation

/-- A `Pool`. `blocks` is ghost state: the blocks obtained and not given back, latest first, which
the object itself knows only through the chain of headers from `first_`. -/
structure Pool where
  nextSize : ℕ
  allocSize : ℕ
  storage : SegregatedStorage
  first : ℕ
  blocks : List Block
  deriving DecidableEq, Repr

/-- The chunks a block of a pool is carved into, after its header word. -/
def Block.chunks (p : Platform) (allocSize : ℕ) (b : Block) : List ℕ :=
  chunksFrom (b.base + p.ptrSize) allocSize ((b.size - p.ptrSize) / allocSize)

namespace Pool

/-- The constructor. -/
def construct (p : Platform) (requestedSize : ℕ) : Pool where
  nextSize := 64
  allocSize := max requestedSize p.ptrSize
  storage := ⟨0, 0⟩
  first := 0
  blocks := []

/-- The bytes that the next growth carves. -/
def totalSize (p : Platform) (pool : Pool) : ℕ :=
  pool.nextSize * pool.allocSize % p.sizeModulus

/-- The bytes that the next growth asks `::malloc` for. -/
def requestSize (p : Platform) (pool : Pool) : ℕ :=
  (pool.totalSize p + p.ptrSize) % p.sizeModulus

def resizeAndMalloc (p : Platform) (h : Heap) (pool : Pool) (answer : Answer) :
    Except Fault (ℕ × Heap × Pool) :=
  let totalSize := pool.totalSize p
  let ptr := answer.addr
  if ptr = 0 then return (0, h, pool)
  else do
    let block : Block := ⟨ptr, pool.requestSize p⟩
    let h := h.malloc (pool.requestSize p) answer
    let (h, storage) ← pool.storage.addBlock p h (ptr + p.ptrSize) totalSize pool.allocSize
    let h ← h.storeNext p ptr pool.first
    let (chunk, storage) ← storage.malloc p h
    return (chunk, h,
      { pool with
        nextSize := pool.nextSize * 2 % p.sizeModulus
        storage := storage
        first := ptr
        blocks := block :: pool.blocks })

def malloc (p : Platform) (h : Heap) (pool : Pool) (answer : Answer) :
    Except Fault (ℕ × Heap × Pool) :=
  if !pool.storage.empty then do
    let (chunk, storage) ← pool.storage.malloc p h
    return (chunk, h, { pool with storage := storage })
  else pool.resizeAndMalloc p h answer

def free (p : Platform) (h : Heap) (pool : Pool) (chunk : ℕ) : Except Fault (Heap × Pool) := do
  let (h, storage) ← pool.storage.free p h chunk
  return (h, { pool with storage := storage })

def freeAppend (p : Platform) (h : Heap) (pool : Pool) (chunk : ℕ) :
    Except Fault (Heap × Pool) := do
  let (h, storage) ← pool.storage.freeAppend p h chunk
  return (h, { pool with storage := storage })

/-- The `while` loop of `PurgeMemory` from `first` on. Each round gives a block back, so `fuel` above
the number of blocks handed out is never used up. -/
def purgeLoop (p : Platform) : ℕ → Heap → ℕ → Except Fault Heap
  | 0, _, first => .error (.badFree first)
  | fuel + 1, h, first =>
    if first = 0 then return h
    else do
      let next ← h.loadNext p first
      let h ← h.free first
      purgeLoop p fuel h next

def purgeMemory (p : Platform) (h : Heap) (pool : Pool) : Except Fault (Heap × Pool) := do
  let h ← purgeLoop p (h.blocks.length + 1) h pool.first
  return (h,
    { pool with
      nextSize := 32
      storage := { pool.storage with head := 0 }
      first := 0
      blocks := [] })

/-- The chunks carved from all blocks of the pool. -/
def chunks (p : Platform) (pool : Pool) : List ℕ :=
  pool.blocks.flatMap (Block.chunks p pool.allocSize)

/-- The block is a header word followed by at least two chunks, and lies in the address space. -/
def Carved (p : Platform) (pool : Pool) (b : Block) : Prop :=
  (∃ j, b.size = p.ptrSize + (j + 2) * pool.allocSize) ∧ 0 < b.base ∧
    b.base + b.size ≤ p.sizeModulus

/-- The invariant of a pool with `free` on its free list, in order, and `live` handed out. -/
structure WellFormed (p : Platform) (h : Heap) (pool : Pool) (free live : List ℕ) : Prop where
  /-- A chunk has room for a link. -/
  alloc_ge : p.ptrSize ≤ pool.allocSize
  /-- The growth factor is a power of two, and `<<=` has not shifted it out. -/
  grows : ∃ m, pool.nextSize = 2 ^ (m + 5) ∧ m + 5 < 8 * p.ptrSize
  owned : ∀ b ∈ pool.blocks, b ∈ h.blocks
  carved : ∀ b ∈ pool.blocks, pool.Carved p b
  apart : pool.blocks.Pairwise Block.Apart
  partition : (free ++ live).Perm (pool.chunks p)
  head_eq : pool.storage.head = free.headD 0
  tail_eq : pool.storage.tail = free.getLastD 0
  nonempty : free = [] → pool.blocks = []
  linked : Linked (h.next p) free
  first_eq : pool.first = (pool.blocks.map Block.base ++ [0]).headD 0
  headers : Linked (h.next p) (pool.blocks.map Block.base ++ [0])

/-- What a pool knows of its blocks: they are handed out and carved, do not overlap, and are chained by
their headers from `first_` on. -/
structure BlockChain (p : Platform) (h : Heap) (pool : Pool) : Prop where
  alloc_ge : p.ptrSize ≤ pool.allocSize
  grows : ∃ m, pool.nextSize = 2 ^ (m + 5) ∧ m + 5 < 8 * p.ptrSize
  owned : ∀ b ∈ pool.blocks, b ∈ h.blocks
  carved : ∀ b ∈ pool.blocks, pool.Carved p b
  apart : pool.blocks.Pairwise Block.Apart
  first_eq : pool.first = (pool.blocks.map Block.base ++ [0]).headD 0
  headers : Linked (h.next p) (pool.blocks.map Block.base ++ [0])

theorem WellFormed.blockChain {p : Platform} {h : Heap} {pool : Pool} {free live : List ℕ}
    (hw : WellFormed p h pool free live) : BlockChain p h pool :=
  ⟨hw.alloc_ge, hw.grows, hw.owned, hw.carved, hw.apart, hw.first_eq, hw.headers⟩

/-- `path` is what following the links from `head_` passes until it reaches `tail_`, without a chunk
seen twice. Before the first growth both ends are null and there is no path. -/
def FreeList (p : Platform) (h : Heap) (pool : Pool) (path : List ℕ) : Prop :=
  (pool.storage = ⟨0, 0⟩ ∧ path = []) ∨
    (pool.storage.head ≠ 0 ∧ path.Nodup ∧ path.getLast? = some pool.storage.tail ∧
      ∃ n, path = List.iterate (h.next p) pool.storage.head (n + 1))

theorem wellFormed_construct (p : Platform) (h : Heap) (requestedSize : ℕ) :
    WellFormed p h (construct p requestedSize) [] [] where
  alloc_ge := le_max_right _ _
  grows := ⟨1, rfl, by cases p <;> decide⟩
  owned := by simp [construct]
  carved := by simp [construct]
  apart := List.Pairwise.nil
  partition := List.Perm.refl _
  head_eq := rfl
  tail_eq := rfl
  nonempty := fun _ ↦ rfl
  linked := linked_nil _
  first_eq := rfl
  headers := linked_singleton _ _

/-- There is at most one such path. -/
theorem FreeList.unique {p : Platform} {h : Heap} {pool : Pool} {path other : List ℕ}
    (hpath : pool.FreeList p h path) (hother : pool.FreeList p h other) : path = other := by
  rcases hpath with ⟨hnull, hempty⟩ | ⟨hhead, hnodup, hlast, n, hn⟩
  · rcases hother with ⟨-, hempty'⟩ | ⟨hhead', -⟩
    · rw [hempty, hempty']
    · exact absurd (by rw [hnull]) hhead'
  · rcases hother with ⟨hnull', -⟩ | ⟨-, hnodup', hlast', m, hm⟩
    · exact absurd (by rw [hnull']) hhead
    · rw [hn] at hnodup hlast ⊢
      rw [hm] at hnodup' hlast' ⊢
      rw [iterate_eq_iterate (hlast.trans hlast'.symm) hnodup hnodup']

/-! ## Where chunks lie -/

section Geometry

variable {p : Platform} {h : Heap} {pool : Pool} {free live : List ℕ} {b : Block} {chunk : ℕ}

theorem mem_chunks : chunk ∈ pool.chunks p ↔ ∃ b ∈ pool.blocks, chunk ∈ b.chunks p pool.allocSize := by
  simp [chunks]

theorem Carved.chunks_eq (hcarved : pool.Carved p b) (hsize : p.ptrSize ≤ pool.allocSize) :
    ∃ j, b.size = p.ptrSize + (j + 2) * pool.allocSize ∧
      b.chunks p pool.allocSize = chunksFrom (b.base + p.ptrSize) pool.allocSize (j + 2) := by
  obtain ⟨⟨j, hj⟩, -, -⟩ := hcarved
  have hptr := p.ptrSize_ge
  refine ⟨j, hj, ?_⟩
  unfold Block.chunks
  rw [hj, Nat.add_sub_cancel_left, Nat.mul_div_cancel _ (by omega)]

/-- A chunk lies inside its block, behind the header. -/
theorem Carved.bounds (hcarved : pool.Carved p b) (hsize : p.ptrSize ≤ pool.allocSize)
    (hchunk : chunk ∈ b.chunks p pool.allocSize) :
    b.base + p.ptrSize ≤ chunk ∧ chunk + pool.allocSize ≤ b.base + b.size := by
  obtain ⟨j, hj, hchunks⟩ := hcarved.chunks_eq hsize
  rw [hchunks] at hchunk
  obtain ⟨i, hi, rfl⟩ := mem_chunksFrom.mp hchunk
  have hmul := Nat.mul_le_mul_right pool.allocSize (show i + 1 ≤ j + 2 from hi)
  rw [Nat.add_mul, Nat.one_mul] at hmul
  omega

namespace BlockChain

theorem alloc_pos (hbc : BlockChain p h pool) : 0 < pool.allocSize := by
  have hptr := p.ptrSize_ge
  have hsize := hbc.alloc_ge
  omega

/-- Every carved chunk lies in one block handed out, behind that block's header. -/
theorem chunk_bounds (hbc : BlockChain p h pool) (hchunk : chunk ∈ pool.chunks p) :
    ∃ b ∈ pool.blocks, b.base + p.ptrSize ≤ chunk ∧ chunk + pool.allocSize ≤ b.base + b.size := by
  obtain ⟨b, hb, hmem⟩ := mem_chunks.mp hchunk
  exact ⟨b, hb, (hbc.carved b hb).bounds hbc.alloc_ge hmem⟩

theorem blocks_apart (hbc : BlockChain p h pool) {first second : Block}
    (hfirst : first ∈ pool.blocks) (hsecond : second ∈ pool.blocks) (hne : first ≠ second) :
    first.Apart second :=
  hbc.apart.forall hfirst hsecond hne

theorem chunk_lt (hbc : BlockChain p h pool) (hchunk : chunk ∈ pool.chunks p) :
    0 < chunk ∧ chunk < p.sizeModulus := by
  obtain ⟨b, hb, hlow, hhigh⟩ := hbc.chunk_bounds hchunk
  have hspace := (hbc.carved b hb).2
  have hpos := hbc.alloc_pos
  omega

/-- The link word of a carved chunk is accessible. -/
theorem chunk_live (hbc : BlockChain p h pool) (hchunk : chunk ∈ pool.chunks p) {len : ℕ}
    (hlen : len ≤ pool.allocSize) : h.Live chunk len := by
  obtain ⟨b, hb, hlow, hhigh⟩ := hbc.chunk_bounds hchunk
  exact ⟨b, hbc.owned b hb, by omega, by omega⟩

/-- Different carved chunks do not overlap. -/
theorem chunks_apart (hbc : BlockChain p h pool) {first second : ℕ}
    (hfirst : first ∈ pool.chunks p) (hsecond : second ∈ pool.chunks p) (hne : first ≠ second) :
    Apart first pool.allocSize second pool.allocSize := by
  obtain ⟨b, hb, hmem⟩ := mem_chunks.mp hfirst
  obtain ⟨c, hc, hmem'⟩ := mem_chunks.mp hsecond
  by_cases hblock : b = c
  · subst hblock
    exact apart_of_mem_chunksFrom hmem hmem' hne
  · have hapart := hbc.blocks_apart hb hc hblock
    have hbounds := (hbc.carved b hb).bounds hbc.alloc_ge hmem
    have hbounds' := (hbc.carved c hc).bounds hbc.alloc_ge hmem'
    unfold Block.Apart Foundation.Apart at hapart
    unfold Foundation.Apart
    omega

/-- No chunk overlaps the header of a block. -/
theorem chunk_apart_header (hbc : BlockChain p h pool) (hchunk : chunk ∈ pool.chunks p)
    (hb : b ∈ pool.blocks) : Apart b.base p.ptrSize chunk pool.allocSize := by
  obtain ⟨c, hc, hlow, hhigh⟩ := hbc.chunk_bounds hchunk
  by_cases hblock : b = c
  · subst hblock
    exact Or.inl hlow
  · have hapart := hbc.blocks_apart hb hc hblock
    obtain ⟨⟨j, hj⟩, -⟩ := hbc.carved b hb
    unfold Block.Apart Foundation.Apart at hapart
    unfold Foundation.Apart
    omega

theorem nodup_chunks (hbc : BlockChain p h pool) : (pool.chunks p).Nodup := by
  apply List.nodup_flatMap.mpr
  constructor
  · intro b _
    exact nodup_chunksFrom hbc.alloc_pos
  · refine hbc.apart.imp_of_mem fun {b c} hb hc hapart ↦ ?_
    intro chunk hmem hmem'
    have hbounds := (hbc.carved b hb).bounds hbc.alloc_ge hmem
    have hbounds' := (hbc.carved c hc).bounds hbc.alloc_ge hmem'
    have hpos := hbc.alloc_pos
    unfold Block.Apart Foundation.Apart at hapart
    omega

/-- The chunks fit into the address space. -/
theorem length_chunks_mul_lt (hbc : BlockChain p h pool) :
    (pool.chunks p).length * pool.allocSize < p.sizeModulus := by
  have hpos := hbc.alloc_pos
  have hapart : (pool.chunks p).Pairwise fun x y ↦ Apart x pool.allocSize y pool.allocSize := by
    apply hbc.nodup_chunks.imp_of_mem
    intro first second hfirst hsecond hne
    exact hbc.chunks_apart hfirst hsecond hne
  have hinside : ∀ x ∈ pool.chunks p, 1 ≤ x ∧ x + pool.allocSize ≤ p.sizeModulus := by
    intro x hx
    obtain ⟨b, hb, hlow, hhigh⟩ := hbc.chunk_bounds hx
    have hspace := (hbc.carved b hb).2
    omega
  have htotal := length_mul_le_of_apart hpos hapart hinside
  have hmodulus : 0 < p.sizeModulus := by cases p <;> decide
  omega

/-- The chain of blocks reads the headers, nothing else. -/
theorem frame (hbc : BlockChain p h pool) (after : Heap)
    (howned : ∀ b ∈ pool.blocks, b ∈ after.blocks)
    (hheaders : ∀ b ∈ pool.blocks, after.next p b.base = h.next p b.base) :
    BlockChain p after pool :=
  { hbc with
    owned := howned
    headers := by
      apply hbc.headers.congr
      intro addr haddr
      rw [List.dropLast_concat] at haddr
      obtain ⟨b, hb, rfl⟩ := List.mem_map.mp haddr
      exact hheaders b hb }

end BlockChain

namespace WellFormed

theorem alloc_pos (hw : WellFormed p h pool free live) : 0 < pool.allocSize :=
  hw.blockChain.alloc_pos

theorem chunk_bounds (hw : WellFormed p h pool free live) (hchunk : chunk ∈ pool.chunks p) :
    ∃ b ∈ pool.blocks, b.base + p.ptrSize ≤ chunk ∧ chunk + pool.allocSize ≤ b.base + b.size :=
  hw.blockChain.chunk_bounds hchunk

theorem chunk_lt (hw : WellFormed p h pool free live) (hchunk : chunk ∈ pool.chunks p) :
    0 < chunk ∧ chunk < p.sizeModulus :=
  hw.blockChain.chunk_lt hchunk

theorem chunk_live (hw : WellFormed p h pool free live) (hchunk : chunk ∈ pool.chunks p) {len : ℕ}
    (hlen : len ≤ pool.allocSize) : h.Live chunk len :=
  hw.blockChain.chunk_live hchunk hlen

theorem chunks_apart (hw : WellFormed p h pool free live) {first second : ℕ}
    (hfirst : first ∈ pool.chunks p) (hsecond : second ∈ pool.chunks p) (hne : first ≠ second) :
    Apart first pool.allocSize second pool.allocSize :=
  hw.blockChain.chunks_apart hfirst hsecond hne

theorem chunk_apart_header (hw : WellFormed p h pool free live) (hchunk : chunk ∈ pool.chunks p)
    (hb : b ∈ pool.blocks) : Apart b.base p.ptrSize chunk pool.allocSize :=
  hw.blockChain.chunk_apart_header hchunk hb

theorem nodup_chunks (hw : WellFormed p h pool free live) : (pool.chunks p).Nodup :=
  hw.blockChain.nodup_chunks

theorem nodup_append (hw : WellFormed p h pool free live) : (free ++ live).Nodup :=
  hw.partition.nodup_iff.mpr hw.nodup_chunks

theorem free_mem (hw : WellFormed p h pool free live) (hchunk : chunk ∈ free) :
    chunk ∈ pool.chunks p :=
  hw.partition.subset (List.mem_append_left _ hchunk)

theorem live_mem (hw : WellFormed p h pool free live) (hchunk : chunk ∈ live) :
    chunk ∈ pool.chunks p :=
  hw.partition.subset (List.mem_append_right _ hchunk)

theorem ne_of_free_of_live (hw : WellFormed p h pool free live) {other : ℕ} (hfree : chunk ∈ free)
    (hlive : other ∈ live) : chunk ≠ other := by
  have hdisjoint := List.disjoint_of_nodup_append hw.nodup_append
  intro heq
  exact hdisjoint hfree (heq ▸ hlive)

/-- The invariant reads the links of the free chunks and the headers, nothing else. -/
theorem frame (hw : WellFormed p h pool free live) (after : Heap)
    (howned : ∀ b ∈ pool.blocks, b ∈ after.blocks)
    (hlinks : ∀ chunk ∈ free.dropLast, after.next p chunk = h.next p chunk)
    (hheaders : ∀ b ∈ pool.blocks, after.next p b.base = h.next p b.base) :
    WellFormed p after pool free live :=
  { hw with
    owned := howned
    linked := hw.linked.congr hlinks
    headers := (hw.blockChain.frame after howned hheaders).headers }

/-- Whatever happens outside the blocks of the pool is no concern of it. -/
theorem frame_blocks (hw : WellFormed p h pool free live) (after : Heap)
    (howned : ∀ b ∈ pool.blocks, b ∈ after.blocks)
    (hbytes : ∀ b ∈ pool.blocks, ∀ x, b.base ≤ x → x < b.base + b.size →
      after.bytes x = h.bytes x) : WellFormed p after pool free live := by
  have hroom := hw.alloc_ge
  apply hw.frame after howned
  · intro chunk hchunk
    obtain ⟨b, hb, hlow, hhigh⟩ := hw.chunk_bounds (hw.free_mem (List.dropLast_subset _ hchunk))
    apply Heap.next_congr
    intro x hx hx'
    exact hbytes b hb x (by omega) (by omega)
  · intro b hb
    obtain ⟨⟨j, hj⟩, -⟩ := hw.carved b hb
    apply Heap.next_congr
    intro x hx hx'
    exact hbytes b hb x hx (by omega)

/-- The order of the chunks handed out does not matter. -/
theorem perm_live (hw : WellFormed p h pool free live) {other : List ℕ} (hperm : live.Perm other) :
    WellFormed p h pool free other :=
  { hw with partition := (hperm.symm.append_left free).trans hw.partition }

theorem exists_head (hw : WellFormed p h pool free live) (hne : free ≠ []) :
    ∃ rest, free = pool.storage.head :: rest := by
  cases free with
  | nil => exact absurd rfl hne
  | cons head rest => exact ⟨rest, by rw [hw.head_eq, List.headD_cons]⟩

theorem exists_sentinel (hw : WellFormed p h pool free live) (hne : free ≠ []) :
    ∃ front, free = front ++ [pool.storage.tail] := by
  have htail : pool.storage.tail = free.getLast hne :=
    calc
      pool.storage.tail = free.getLastD 0 := hw.tail_eq
      _ = (free.getLast?).getD 0 := List.getLastD_eq_getLast? ..
      _ = free.getLast hne := by rw [List.getLast?_eq_some_getLast hne, Option.getD_some]
  exact ⟨free.dropLast, by rw [htail, List.dropLast_append_getLast hne]⟩

theorem free_ne_nil (hw : WellFormed p h pool free live) (hlive : chunk ∈ live) : free ≠ [] := by
  intro hnil
  have hmem := hw.live_mem hlive
  simp [chunks, hw.nonempty hnil] at hmem

theorem head_lt (hw : WellFormed p h pool free live) : pool.storage.head < p.sizeModulus := by
  by_cases hne : free = []
  · rw [hw.head_eq, hne, List.headD_nil]
    exact Nat.pos_of_ne_zero (by cases p <;> decide)
  · obtain ⟨rest, hrest⟩ := hw.exists_head hne
    exact (hw.chunk_lt (hw.free_mem (by rw [hrest]; simp))).2

/-- The free chunks of a well-formed pool are what its links lead through. -/
theorem freeList (hw : WellFormed p h pool free live) : pool.FreeList p h free := by
  have hhead := hw.head_eq
  have htail := hw.tail_eq
  have hlinked := hw.linked
  cases free with
  | nil =>
    left
    rw [List.headD_nil] at hhead
    rw [List.getLastD_nil] at htail
    constructor
    · calc
        pool.storage = ⟨pool.storage.head, pool.storage.tail⟩ := rfl
        _ = ⟨0, 0⟩ := by rw [hhead, htail]
    · rfl
  | cons head rest =>
    right
    rw [List.headD_cons] at hhead
    have hpos := (hw.chunk_lt (hw.free_mem List.mem_cons_self)).1
    obtain ⟨front, hfront⟩ := hw.exists_sentinel (by simp)
    refine ⟨by omega, (List.nodup_append.mp hw.nodup_append).1, ?_, rest.length, ?_⟩
    · rw [hfront, List.getLast?_concat]
    · rw [hhead]
      exact hlinked.eq_iterate

/-- Together with the live chunks, they are the carved ones. -/
theorem mem_free_iff (hw : WellFormed p h pool free live) :
    chunk ∈ free ↔ chunk ∈ pool.chunks p ∧ chunk ∉ live := by
  constructor
  · intro hfree
    exact ⟨hw.free_mem hfree, fun hlive ↦ hw.ne_of_free_of_live hfree hlive rfl⟩
  · intro hchunk
    have hall := hw.partition.symm.subset hchunk.1
    exact (List.mem_append.mp hall).resolve_right hchunk.2

/-- Whatever happens to the bytes of a live chunk is no concern of the pool. -/
theorem frame_live (hw : WellFormed p h pool free live) (after : Heap) (hlive : chunk ∈ live)
    (hblocks : after.blocks = h.blocks)
    (hbytes : ∀ x, x < chunk ∨ chunk + pool.allocSize ≤ x → after.bytes x = h.bytes x) :
    WellFormed p after pool free live := by
  have hmem := hw.live_mem hlive
  have hroom := hw.alloc_ge
  apply hw.frame after
  · intro b hb
    rw [hblocks]
    exact hw.owned b hb
  · intro other hother
    have hfree := List.dropLast_subset free hother
    have hapart := hw.chunks_apart (hw.free_mem hfree) hmem (hw.ne_of_free_of_live hfree hlive)
    unfold Foundation.Apart at hapart
    apply Heap.next_congr
    intro x hlow hhigh
    exact hbytes x (by omega)
  · intro b hb
    have hapart := hw.chunk_apart_header hmem hb
    unfold Foundation.Apart at hapart
    apply Heap.next_congr
    intro x hlow hhigh
    exact hbytes x (by omega)

end WellFormed

end Geometry

/-! ## The operations on a well-formed pool -/

section Operations

variable {p : Platform} {h : Heap} {pool : Pool} {free live : List ℕ} {chunk : ℕ}

/-- `Free` puts a live chunk in front of the list. -/
theorem WellFormed.free_spec (hw : WellFormed p h pool free live) (hlive : chunk ∈ live) :
    pool.free p h chunk = .ok (h.setNext p chunk pool.storage.head,
        { pool with storage := { pool.storage with head := chunk } }) ∧
      WellFormed p (h.setNext p chunk pool.storage.head)
        { pool with storage := { pool.storage with head := chunk } }
        (chunk :: free) (live.erase chunk) := by
  have hmem := hw.live_mem hlive
  have hroom := hw.alloc_ge
  obtain ⟨rest, hrest⟩ := hw.exists_head (hw.free_ne_nil hlive)
  have hkeep : WellFormed p (h.setNext p chunk pool.storage.head) pool free live := by
    apply hw.frame_live (h.setNext p chunk pool.storage.head) hlive rfl
    intro x hx
    exact Heap.setNext_bytes_of_outside (by omega)
  constructor
  · unfold Pool.free
    rw [SegregatedStorage.free_eq_ok (hw.chunk_live hmem hroom)]
    rfl
  · exact {
      alloc_ge := hkeep.alloc_ge
      grows := hkeep.grows
      owned := hkeep.owned
      carved := hkeep.carved
      apart := hkeep.apart
      partition := by
        calc
          List.Perm (chunk :: free ++ live.erase chunk) (free ++ chunk :: live.erase chunk) :=
            List.perm_middle.symm
          List.Perm _ (free ++ live) := (List.perm_cons_erase hlive).symm.append_left free
          List.Perm _ _ := hkeep.partition
      head_eq := rfl
      tail_eq := by
        change pool.storage.tail = _
        rw [hw.tail_eq, hrest]
        rfl
      nonempty := by simp
      linked := by
        apply hkeep.linked.cons
        intro first hfirst
        rw [hrest, List.head?_cons, Option.mem_some_iff] at hfirst
        rw [← hfirst]
        exact Heap.next_setNext_self h chunk hw.head_lt
      first_eq := hkeep.first_eq
      headers := hkeep.headers }

/-- The sentinel is a carved chunk. -/
theorem WellFormed.tail_mem (hw : WellFormed p h pool free live) (hne : free ≠ []) :
    pool.storage.tail ∈ free := by
  obtain ⟨front, hfront⟩ := hw.exists_sentinel hne
  rw [hfront]
  simp

/-- The link of the sentinel is nobody's concern. -/
theorem WellFormed.link_tail (hw : WellFormed p h pool free live) (hne : free ≠ []) (value : ℕ) :
    WellFormed p (h.setNext p pool.storage.tail value) pool free live := by
  have hroom := hw.alloc_ge
  have hmem := hw.free_mem (hw.tail_mem hne)
  obtain ⟨front, hfront⟩ := hw.exists_sentinel hne
  apply hw.frame (h.setNext p pool.storage.tail value) hw.owned
  · intro other hother
    rw [hfront, List.dropLast_concat] at hother
    have hother' : other ∈ free := by
      rw [hfront]
      exact List.mem_append_left _ hother
    have hdiff : other ≠ pool.storage.tail := by
      have hnodup := (List.nodup_append.mp hw.nodup_append).1
      rw [hfront] at hnodup
      exact (List.nodup_append.mp hnodup).2.2 other hother _ (by simp)
    have hapart := hw.chunks_apart (hw.free_mem hother') hmem hdiff
    apply Heap.next_setNext_of_apart
    unfold Foundation.Apart at hapart ⊢
    omega
  · intro b hb
    have hapart := hw.chunk_apart_header hmem hb
    apply Heap.next_setNext_of_apart
    unfold Foundation.Apart at hapart ⊢
    omega

/-- A live chunk that the sentinel links to becomes the sentinel. -/
theorem WellFormed.append_linked (hw : WellFormed p h pool free live) (hlive : chunk ∈ live)
    (hlink : h.next p pool.storage.tail = chunk) :
    WellFormed p h { pool with storage := { pool.storage with tail := chunk } }
      (free ++ [chunk]) (live.erase chunk) := by
  have hne := hw.free_ne_nil hlive
  obtain ⟨front, hfront⟩ := hw.exists_sentinel hne
  exact {
    alloc_ge := hw.alloc_ge
    grows := hw.grows
    owned := hw.owned
    carved := hw.carved
    apart := hw.apart
    partition := by
      rw [List.append_assoc]
      calc
        List.Perm (free ++ chunk :: live.erase chunk) (free ++ live) :=
          (List.perm_cons_erase hlive).symm.append_left free
        List.Perm _ _ := hw.partition
    head_eq := by
      change pool.storage.head = _
      rw [hw.head_eq]
      cases free with
      | nil => exact absurd rfl hne
      | cons head rest => rfl
    tail_eq := by simp
    nonempty := by simp
    linked := by
      apply linked_append.mpr ⟨hw.linked, linked_singleton _ _, ?_⟩
      intro last hlast first hfirst
      rw [hfront, List.getLast?_concat, Option.mem_some_iff] at hlast
      rw [List.head?_cons, Option.mem_some_iff] at hfirst
      rw [← hlast, ← hfirst]
      exact hlink
    first_eq := hw.first_eq
    headers := hw.headers }

/-- `FreeAppend` puts a live chunk behind the sentinel and makes it the sentinel. -/
theorem WellFormed.freeAppend_spec (hw : WellFormed p h pool free live) (hlive : chunk ∈ live) :
    pool.freeAppend p h chunk = .ok (h.setNext p pool.storage.tail chunk,
        { pool with storage := { pool.storage with tail := chunk } }) ∧
      WellFormed p (h.setNext p pool.storage.tail chunk)
        { pool with storage := { pool.storage with tail := chunk } }
        (free ++ [chunk]) (live.erase chunk) := by
  have hne := hw.free_ne_nil hlive
  have hmem := hw.free_mem (hw.tail_mem hne)
  constructor
  · unfold Pool.freeAppend
    rw [SegregatedStorage.freeAppend_eq_ok (hw.chunk_live hmem hw.alloc_ge)]
    rfl
  · apply (hw.link_tail hne chunk).append_linked hlive
    exact Heap.next_setNext_self h _ (hw.chunk_lt (hw.live_mem hlive)).2

/-- Taking the first of at least two chunks off the list. -/
theorem WellFormed.wellFormed_pop (hw : WellFormed p h pool free live)
    (hne : pool.storage.head ≠ pool.storage.tail) :
    ∃ rest, free = pool.storage.head :: rest ∧
      WellFormed p h { pool with
        storage := { pool.storage with head := h.next p pool.storage.head } }
        rest (pool.storage.head :: live) := by
  have hfree : free ≠ [] := by
    intro hnil
    apply hne
    rw [hw.head_eq, hw.tail_eq, hnil]
    rfl
  obtain ⟨rest, hrest⟩ := hw.exists_head hfree
  have hlinked := hw.linked
  have htail := hw.tail_eq
  rw [hrest] at hlinked htail
  refine ⟨rest, hrest, ?_⟩
  cases rest with
  | nil => exact absurd htail.symm hne
  | cons second rest =>
    rw [linked_cons_cons] at hlinked
    exact {
      alloc_ge := hw.alloc_ge
      grows := hw.grows
      owned := hw.owned
      carved := hw.carved
      apart := hw.apart
      partition := by
        have hpartition := hw.partition
        rw [hrest] at hpartition
        exact List.perm_middle.trans hpartition
      head_eq := hlinked.1
      tail_eq := htail
      nonempty := by simp
      linked := hlinked.2
      first_eq := hw.first_eq
      headers := hw.headers }

/-- `Malloc` on a list of at least two chunks takes the first one. -/
theorem WellFormed.malloc_spec (hw : WellFormed p h pool free live) (answer : Answer)
    (hne : pool.storage.head ≠ pool.storage.tail) :
    ∃ rest, free = pool.storage.head :: rest ∧
      pool.malloc p h answer = .ok (pool.storage.head, h, { pool with
        storage := { pool.storage with head := h.next p pool.storage.head } }) ∧
      WellFormed p h { pool with
        storage := { pool.storage with head := h.next p pool.storage.head } }
        rest (pool.storage.head :: live) := by
  obtain ⟨rest, hrest, hpopped⟩ := hw.wellFormed_pop hne
  have hmem := hw.free_mem (show pool.storage.head ∈ free by rw [hrest]; simp)
  refine ⟨rest, hrest, ?_, hpopped⟩
  unfold Pool.malloc
  have hempty : pool.storage.empty = false := by simpa [SegregatedStorage.empty] using hne
  rw [hempty, SegregatedStorage.malloc_eq_ok (hw.chunk_live hmem hw.alloc_ge)]
  rfl

end Operations

end Pool

end ServerCore.MemoryPool
