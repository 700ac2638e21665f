import Mathlib.Data.List.Nodup
import Mathlib.Data.List.Range
import ServerCore.Foundation.LinkedChain
import ServerCore.MemoryPool.Heap

/-!
# The free list of a pool

`segregated_storage` keeps the first and the last chunk of an intrusive list. The last chunk is a
sentinel: `head_ == tail_` counts as empty, so it is handed out only after something was appended
behind it, and its link word is never read before that. `segregate` carves a block from its last
chunk down to its first and splices the sentinel behind it.
-/

namespace ServerCore.MemoryPool

open Foundation

/-- `head_` and `tail_`, null being `0`. -/
structure SegregatedStorage where
  head : ℕ
  tail : ℕ
  deriving DecidableEq, Repr

namespace SegregatedStorage

def malloc (p : Platform) (h : Heap) (s : SegregatedStorage) :
    Except Fault (ℕ × SegregatedStorage) := do
  let next ← h.loadNext p s.head
  return (s.head, { s with head := next })

def free (p : Platform) (h : Heap) (s : SegregatedStorage) (chunk : ℕ) :
    Except Fault (Heap × SegregatedStorage) := do
  let h ← h.storeNext p chunk s.head
  return (h, { s with head := chunk })

/-- The assertion on `tail_` only repeats what the access through a null `tail_` would do. -/
def freeAppend (p : Platform) (h : Heap) (s : SegregatedStorage) (chunk : ℕ) :
    Except Fault (Heap × SegregatedStorage) := do
  let h ← h.storeNext p s.tail chunk
  return (h, { s with tail := chunk })

def empty (s : SegregatedStorage) : Bool := s.head == s.tail

/-- The `for` loop of `segregate`, from `it` down to `block`. A pointer below the address space is
outside every block, so `it` never wraps and `fuel` above the address of `it` is never used up. -/
def segregateLoop (p : Platform) (block partitionSz : ℕ) :
    ℕ → Heap → ℕ → ℕ → Except Fault Heap
  | 0, _, it, _ => .error (.leavesBlock it)
  | fuel + 1, h, it, last => do
    let h ← h.storeNextFrom p block it last
    if it = block then return h
    else segregateLoop p block partitionSz fuel h (it - partitionSz) it

def segregate (p : Platform) (h : Heap) (s : SegregatedStorage) (block sz partitionSz : ℕ) :
    Except Fault (Heap × SegregatedStorage × ℕ) := do
  let last := block + sz - partitionSz
  let link := if s.tail = 0 then 0 else s.tail
  let tail := if s.tail = 0 then last else s.tail
  let h ← h.storeNextFrom p block last link
  let h ← segregateLoop p block partitionSz (last + 1) h (last - partitionSz) last
  return (h, { s with tail := tail }, block)

def addBlock (p : Platform) (h : Heap) (s : SegregatedStorage) (block sz partitionSz : ℕ) :
    Except Fault (Heap × SegregatedStorage) := do
  let (h, s, head) ← segregate p h s block sz partitionSz
  return (h, { s with head := head })

end SegregatedStorage

/-- The chunk starts of `count` chunks laid out from `block` on. -/
def chunksFrom (block partitionSz count : ℕ) : List ℕ :=
  (List.range count).map fun i ↦ block + i * partitionSz

section Chunks

variable {block partitionSz count : ℕ}

theorem mem_chunksFrom {chunk : ℕ} :
    chunk ∈ chunksFrom block partitionSz count ↔
      ∃ i < count, block + i * partitionSz = chunk := by
  simp [chunksFrom]

theorem chunksFrom_succ (block partitionSz count : ℕ) :
    chunksFrom block partitionSz (count + 1) =
      chunksFrom block partitionSz count ++ [block + count * partitionSz] := by
  simp [chunksFrom, List.range_succ]

theorem chunksFrom_cons (block partitionSz count : ℕ) :
    chunksFrom block partitionSz (count + 1) =
      block :: chunksFrom (block + partitionSz) partitionSz count := by
  have hshift (i : ℕ) : block + (i + 1) * partitionSz = block + partitionSz + i * partitionSz := by
    ring
  simp [chunksFrom, List.range_succ_eq_map, hshift]

theorem nodup_chunksFrom (hpos : 0 < partitionSz) :
    (chunksFrom block partitionSz count).Nodup := by
  apply List.Nodup.map _ List.nodup_range
  intro first second heq
  exact Nat.eq_of_mul_eq_mul_right hpos (Nat.add_left_cancel heq)

theorem linked_chunksFrom {next : ℕ → ℕ}
    (h : ∀ i, i + 1 < count → next (block + i * partitionSz) = block + (i + 1) * partitionSz) :
    Linked next (chunksFrom block partitionSz count) := by
  unfold Linked chunksFrom
  rw [List.isChain_map, List.isChain_range]
  intro i hi
  exact h i (by omega)

/-- Following links that lead from each chunk to the one above it visits the chunks in address order,
and then what the last one is linked to. -/
theorem iterate_chunksFrom {next : ℕ → ℕ} {after : ℕ}
    (hlinked : Linked next (chunksFrom block partitionSz (count + 1)))
    (hlast : next (block + count * partitionSz) = after) :
    List.iterate next block (count + 2) = chunksFrom block partitionSz (count + 1) ++ [after] := by
  have hall : Linked next (chunksFrom block partitionSz (count + 1) ++ [after]) := by
    rw [linked_append]
    refine ⟨hlinked, linked_singleton _ _, ?_⟩
    simp [chunksFrom_succ, hlast]
  have hlength : (chunksFrom (block + partitionSz) partitionSz count ++ [after]).length =
      count + 1 := by
    simp [chunksFrom]
  rw [chunksFrom_cons, List.cons_append] at hall ⊢
  rw [hall.eq_iterate, hlength]

/-- Different chunks of one block do not overlap. -/
theorem apart_of_mem_chunksFrom {first second : ℕ}
    (hfirst : first ∈ chunksFrom block partitionSz count)
    (hsecond : second ∈ chunksFrom block partitionSz count) (hne : first ≠ second) :
    Apart first partitionSz second partitionSz := by
  obtain ⟨i, -, rfl⟩ := mem_chunksFrom.mp hfirst
  obtain ⟨j, -, rfl⟩ := mem_chunksFrom.mp hsecond
  unfold Apart
  rcases Nat.lt_trichotomy i j with hlt | heq | hgt
  · have hmul := Nat.mul_le_mul_right partitionSz (show i + 1 ≤ j from hlt)
    rw [Nat.add_mul, Nat.one_mul] at hmul
    omega
  · exact absurd (by rw [heq]) hne
  · have hmul := Nat.mul_le_mul_right partitionSz (show j + 1 ≤ i from hgt)
    rw [Nat.add_mul, Nat.one_mul] at hmul
    omega

end Chunks

/-- The byte at `x` belongs to no link word of these chunks. -/
def OffLinks (p : Platform) (chunks : List ℕ) (x : ℕ) : Prop :=
  ∀ chunk ∈ chunks, x < chunk ∨ chunk + p.ptrSize ≤ x

theorem offLinks_of_outside {p : Platform} {block partitionSz count x : ℕ}
    (hsize : p.ptrSize ≤ partitionSz) (hx : x < block ∨ block + count * partitionSz ≤ x) :
    OffLinks p (chunksFrom block partitionSz count) x := by
  intro chunk hchunk
  obtain ⟨i, hi, rfl⟩ := mem_chunksFrom.mp hchunk
  have hmul := Nat.mul_le_mul_right partitionSz (show i + 1 ≤ count from hi)
  rw [Nat.add_mul, Nat.one_mul] at hmul
  omega

namespace SegregatedStorage

variable {p : Platform} {h : Heap} {s : SegregatedStorage}

theorem malloc_eq_ok (hlive : h.Live s.head p.ptrSize) :
    malloc p h s = .ok (s.head, { s with head := h.next p s.head }) := by
  unfold malloc
  rw [Heap.loadNext_eq_ok hlive]
  rfl

theorem free_eq_ok {chunk : ℕ} (hlive : h.Live chunk p.ptrSize) :
    free p h s chunk = .ok (h.setNext p chunk s.head, { s with head := chunk }) := by
  unfold free
  rw [Heap.storeNext_eq_ok _ hlive]
  rfl

theorem freeAppend_eq_ok {chunk : ℕ} (hlive : h.Live s.tail p.ptrSize) :
    freeAppend p h s chunk = .ok (h.setNext p s.tail chunk, { s with tail := chunk }) := by
  unfold freeAppend
  rw [Heap.storeNext_eq_ok _ hlive]
  rfl

/-! ## Carving a block -/

/-- The loop stops only at `block`, which it reaches only from a multiple of the chunk size above. -/
theorem multiple_of_segregateLoop {block partitionSz fuel it last : ℕ} {after : Heap}
    (hblock : 0 < block) (hloop : segregateLoop p block partitionSz fuel h it last = .ok after) :
    ∃ j, it = block + j * partitionSz := by
  induction fuel generalizing h it last with
  | zero => simp [segregateLoop] at hloop
  | succ fuel ih =>
    by_cases hstop : it = block
    · exact ⟨0, by simp [hstop]⟩
    · unfold segregateLoop at hloop
      by_cases hsame : h.SameBlock block it p.ptrSize
      · rw [Heap.storeNextFrom_eq_ok _ hsame] at hloop
        simp only [bind, Except.bind, if_neg hstop] at hloop
        obtain ⟨j, hj⟩ := ih hloop
        exact ⟨j + 1, by rw [Nat.add_mul, Nat.one_mul]; omega⟩
      · simp [Heap.storeNextFrom, hsame, bind, Except.bind] at hloop

/-- A block is carved only into whole chunks, two at least. -/
theorem multiple_of_segregate {block sz partitionSz : ℕ} {result : Heap × SegregatedStorage × ℕ}
    (hblock : 0 < block) (hcarve : segregate p h s block sz partitionSz = .ok result) :
    ∃ j, sz = (j + 2) * partitionSz := by
  unfold segregate at hcarve
  by_cases hsame : h.SameBlock block (block + sz - partitionSz) p.ptrSize
  · simp only [Heap.storeNextFrom_eq_ok _ hsame, bind, Except.bind] at hcarve
    split at hcarve
    · simp at hcarve
    · rename_i hloop
      obtain ⟨j, hj⟩ := multiple_of_segregateLoop hblock hloop
      refine ⟨j, ?_⟩
      rw [Nat.add_mul]
      omega
  · simp [Heap.storeNextFrom, hsame, bind, Except.bind] at hcarve

/-- The loop goes wrong at the first address outside the block, or where its fuel ends. -/
theorem segregateLoop_error {block partitionSz fuel it last : ℕ} {fault : Fault}
    (hloop : segregateLoop p block partitionSz fuel h it last = .error fault) :
    ∃ addr, fault = .leavesBlock addr ∧
      (¬ h.SameBlock block addr p.ptrSize ∨ addr = it - fuel * partitionSz) := by
  induction fuel generalizing h it last with
  | zero => exact ⟨it, (Except.error.inj hloop).symm, Or.inr (by simp)⟩
  | succ fuel ih =>
    unfold segregateLoop at hloop
    by_cases hsame : h.SameBlock block it p.ptrSize
    · rw [Heap.storeNextFrom_eq_ok _ hsame] at hloop
      by_cases hstop : it = block
      · simp [bind, Except.bind, hstop, pure, Except.pure] at hloop
      · simp only [bind, Except.bind, if_neg hstop] at hloop
        obtain ⟨addr, hfault, haddr⟩ := ih hloop
        refine ⟨addr, hfault, haddr.imp_right ?_⟩
        intro hend
        rw [hend, Nat.sub_sub, Nat.add_mul, Nat.one_mul, Nat.add_comm]
    · simp only [Heap.storeNextFrom, if_neg hsame, bind, Except.bind] at hloop
      exact ⟨it, (Except.error.inj hloop).symm, Or.inl hsame⟩

/-- Carving goes wrong in one way only: by leaving the block. -/
theorem segregate_error {block sz partitionSz : ℕ} {fault : Fault}
    (hcarve : segregate p h s block sz partitionSz = .error fault) :
    ∃ addr, fault = .leavesBlock addr ∧
      (0 < partitionSz → ¬ h.SameBlock block addr p.ptrSize ∨ addr = 0) := by
  unfold segregate at hcarve
  by_cases hsame : h.SameBlock block (block + sz - partitionSz) p.ptrSize
  · simp only [Heap.storeNextFrom_eq_ok _ hsame, bind, Except.bind] at hcarve
    split at hcarve
    · rename_i hloop
      obtain ⟨addr, hfault, haddr⟩ := segregateLoop_error hloop
      refine ⟨addr, by rw [← Except.error.inj hcarve, hfault], ?_⟩
      intro hpos
      refine haddr.imp_right ?_
      intro hend
      -- the fuel is above the address that the loop starts from
      have hfuel := Nat.le_mul_of_pos_right (block + sz - partitionSz + 1) hpos
      omega
    · simp [pure, Except.pure] at hcarve
  · simp only [Heap.storeNextFrom, if_neg hsame, bind, Except.bind] at hcarve
    exact ⟨_, (Except.error.inj hcarve).symm, fun _ ↦ Or.inl hsame⟩

theorem addBlock_error {block sz partitionSz : ℕ} {fault : Fault}
    (hadd : addBlock p h s block sz partitionSz = .error fault) :
    ∃ addr, fault = .leavesBlock addr := by
  unfold addBlock at hadd
  cases hcarve : segregate p h s block sz partitionSz with
  | error other =>
    rw [hcarve] at hadd
    obtain ⟨addr, haddr, -⟩ := segregate_error hcarve
    exact ⟨addr, by rw [← Except.error.inj hadd, haddr]⟩
  | ok carved => simp [hcarve, bind, Except.bind, pure, Except.pure] at hadd

theorem multiple_of_addBlock {block sz partitionSz : ℕ} {result : Heap × SegregatedStorage}
    (hblock : 0 < block) (hadd : addBlock p h s block sz partitionSz = .ok result) :
    ∃ j, sz = (j + 2) * partitionSz := by
  unfold addBlock at hadd
  cases hcarve : segregate p h s block sz partitionSz with
  | error fault => simp [hcarve, bind, Except.bind] at hadd
  | ok carved => exact multiple_of_segregate hblock hcarve

/-- Going down from chunk `j`, the loop links each chunk to the one above it. -/
theorem segregateLoop_spec {b : Block} {block partitionSz fuel last : ℕ} (j : ℕ)
    (hfuel : j < fuel) (hsize : p.ptrSize ≤ partitionSz) (hmem : b ∈ h.blocks)
    (hlow : b.base ≤ block) (hhigh : block + j * partitionSz + p.ptrSize ≤ b.base + b.size)
    (hspace : block + j * partitionSz + p.ptrSize ≤ p.sizeModulus) (hlast : last < p.sizeModulus) :
    ∃ after, segregateLoop p block partitionSz fuel h (block + j * partitionSz) last = .ok after ∧
      after.blocks = h.blocks ∧
      (∀ x, OffLinks p (chunksFrom block partitionSz (j + 1)) x → after.bytes x = h.bytes x) ∧
      (∀ i < j, after.next p (block + i * partitionSz) = block + (i + 1) * partitionSz) ∧
      after.next p (block + j * partitionSz) = last := by
  induction j generalizing fuel h last with
  | zero =>
    obtain ⟨fuel, rfl⟩ := Nat.exists_eq_succ_of_ne_zero (by omega : fuel ≠ 0)
    rw [Nat.zero_mul, Nat.add_zero] at hhigh ⊢
    have hsame : h.SameBlock block block p.ptrSize :=
      ⟨b, hmem, ⟨hlow, by omega⟩, ⟨hlow, hhigh⟩⟩
    refine ⟨h.setNext p block last, ?_, rfl, ?_, by simp, Heap.next_setNext_self h block hlast⟩
    · unfold segregateLoop
      rw [Heap.storeNextFrom_eq_ok _ hsame]
      simp [bind, Except.bind, pure, Except.pure]
    · intro x hx
      exact Heap.setNext_bytes_of_outside (hx block (by simp [chunksFrom]))
  | succ j ih =>
    obtain ⟨fuel, rfl⟩ := Nat.exists_eq_succ_of_ne_zero (by omega : fuel ≠ 0)
    have hptr := p.ptrSize_ge
    have hstep : block + (j + 1) * partitionSz = block + j * partitionSz + partitionSz := by
      ring
    have hchunks := chunksFrom_succ block partitionSz (j + 1)
    have hbelow (x : ℕ) := @offLinks_of_outside p block partitionSz (j + 1) x hsize
    rw [hstep] at hhigh hspace hchunks ⊢
    rw [hchunks]
    simp only [hstep] at hbelow
    generalize hit : block + j * partitionSz = it at hhigh hspace hbelow ih ⊢
    have hsame : h.SameBlock block (it + partitionSz) p.ptrSize := by
      refine ⟨b, hmem, ⟨hlow, by omega⟩, ?_⟩
      constructor
      · omega
      · omega
    obtain ⟨after, hloop, hblocks, hbytes, hlinks, hend⟩ :=
      @ih (h.setNext p (it + partitionSz) last) fuel (it + partitionSz) (by omega) hmem (by omega)
        (by omega) (by omega)
    refine ⟨after, ?_, hblocks, ?_, ?_, ?_⟩
    · unfold segregateLoop
      rw [Heap.storeNextFrom_eq_ok _ hsame]
      simp only [bind, Except.bind, if_neg (show it + partitionSz ≠ block by omega),
        Nat.add_sub_cancel]
      exact hloop
    · intro x hx
      rw [hbytes x fun chunk hchunk ↦ hx chunk (List.mem_append_left _ hchunk)]
      exact Heap.setNext_bytes_of_outside (hx _ (by simp))
    · intro i hi
      rcases Nat.lt_succ_iff_lt_or_eq.mp hi with hlt | heq
      · exact hlinks i hlt
      · rw [heq]
        calc
          after.next p (block + j * partitionSz) = after.next p it := by rw [hit]
          _ = it + partitionSz := hend
          _ = block + (j + 1) * partitionSz := by rw [hstep, hit]
    · -- the chunks linked later lie below this one, so its own link stays
      rw [Heap.next_congr fun x hx _ ↦ hbytes x (hbelow x (Or.inr hx))]
      exact Heap.next_setNext_self h _ hlast

/-- Carving `(j + 2) * partitionSz` bytes: the chunks are linked in address order, the last one is
followed by the old sentinel, and is the new one if there was none. -/
theorem segregate_spec {b : Block} {block partitionSz : ℕ} (j : ℕ)
    (hsize : p.ptrSize ≤ partitionSz) (hmem : b ∈ h.blocks) (hlow : b.base ≤ block)
    (hhigh : block + (j + 2) * partitionSz ≤ b.base + b.size)
    (hspace : block + (j + 2) * partitionSz ≤ p.sizeModulus) (htail : s.tail < p.sizeModulus) :
    ∃ after, segregate p h s block ((j + 2) * partitionSz) partitionSz = .ok (after,
        { s with tail := if s.tail = 0 then block + (j + 1) * partitionSz else s.tail }, block) ∧
      after.blocks = h.blocks ∧
      (∀ x, OffLinks p (chunksFrom block partitionSz (j + 2)) x → after.bytes x = h.bytes x) ∧
      Linked (after.next p) (chunksFrom block partitionSz (j + 2)) ∧
      after.next p (block + (j + 1) * partitionSz) = s.tail := by
  have hptr := p.ptrSize_ge
  have hnext : block + (j + 1) * partitionSz = block + j * partitionSz + partitionSz := by ring
  have htotal :
      block + (j + 2) * partitionSz = block + j * partitionSz + partitionSz + partitionSz := by ring
  have hlast : block + (j + 2) * partitionSz - partitionSz = block + (j + 1) * partitionSz := by
    omega
  have hbefore : block + (j + 1) * partitionSz - partitionSz = block + j * partitionSz := by omega
  have hsame : h.SameBlock block (block + (j + 1) * partitionSz) p.ptrSize :=
    ⟨b, hmem, ⟨hlow, by omega⟩, ⟨by omega, by omega⟩⟩
  have hlink : (if s.tail = 0 then 0 else s.tail) = s.tail := by
    split <;> simp_all
  have hfuel : j < block + (j + 1) * partitionSz + 1 := by
    have hj := Nat.le_mul_of_pos_right j (show 0 < partitionSz by omega)
    omega
  obtain ⟨after, hloop, hblocks, hbytes, hlinks, hend⟩ :=
    @segregateLoop_spec p (h.setNext p (block + (j + 1) * partitionSz) s.tail) b block partitionSz
      _ (block + (j + 1) * partitionSz) j hfuel hsize hmem hlow (by omega) (by omega) (by omega)
  refine ⟨after, ?_, hblocks, ?_, ?_, ?_⟩
  · unfold segregate
    simp only [hlast, hlink, hbefore, Heap.storeNextFrom_eq_ok _ hsame, bind, Except.bind, hloop]
    rfl
  · intro x hx
    rw [chunksFrom_succ] at hx
    rw [hbytes x fun chunk hchunk ↦ hx chunk (List.mem_append_left _ hchunk)]
    exact Heap.setNext_bytes_of_outside (hx _ (by simp))
  · apply linked_chunksFrom
    intro i hi
    rcases Nat.lt_succ_iff_lt_or_eq.mp (by omega : i < j + 1) with hlt | heq
    · exact hlinks i hlt
    · rw [heq, hend]
  · rw [Heap.next_congr fun x hx _ ↦ hbytes x (offLinks_of_outside hsize (Or.inr hx))]
    exact Heap.next_setNext_self h _ htail

/-- What carving a block into `n` chunks leaves: only the link words of the chunks are written, and
the list from the block visits the chunks in address order and goes on with the old sentinel, or ends
where there was none. -/
structure CarvedInto (p : Platform) (h : Heap) (s : SegregatedStorage) (block partitionSz n : ℕ)
    (after : Heap) (carved : SegregatedStorage) : Prop where
  blocks : after.blocks = h.blocks
  bytes : ∀ x, OffLinks p (chunksFrom block partitionSz n) x → after.bytes x = h.bytes x
  list : List.iterate (after.next p) block (n + 1) = chunksFrom block partitionSz n ++ [s.tail]
  head : carved.head = s.head
  tail : carved.tail = if s.tail = 0 then block + (n - 1) * partitionSz else s.tail

/-- **Carving.** In a block with room for `sz` bytes, carving ends and makes exactly the chunks of the
block if `sz` is a multiple of the chunk size, twice that or more; for every other `sz` the loop
leaves the block. -/
theorem segregate_carves {b : Block} {block sz partitionSz : ℕ} (hsize : p.ptrSize ≤ partitionSz)
    (hblock : 0 < block) (hmem : b ∈ h.blocks) (hlow : b.base ≤ block)
    (hhigh : block + sz ≤ b.base + b.size) (hspace : block + sz ≤ p.sizeModulus)
    (htail : s.tail < p.sizeModulus) :
    (∀ n, 2 ≤ n → sz = n * partitionSz →
      ∃ after carved, segregate p h s block sz partitionSz = .ok (after, carved, block) ∧
        CarvedInto p h s block partitionSz n after carved) ∧
      ((∀ n, 2 ≤ n → sz ≠ n * partitionSz) →
        ∃ addr, segregate p h s block sz partitionSz = .error (.leavesBlock addr) ∧
          (addr < block ∨ block + sz < addr + p.ptrSize)) := by
  constructor
  · intro n hn hmul
    obtain ⟨j, rfl⟩ := Nat.exists_eq_add_of_le' hn
    subst hmul
    obtain ⟨after, hcarve, hblocks, hbytes, hlinked, hlast⟩ :=
      @segregate_spec p h s b block partitionSz j hsize hmem hlow hhigh hspace htail
    exact ⟨after, _, hcarve, hblocks, hbytes, iterate_chunksFrom hlinked hlast, rfl, rfl⟩
  · intro hnone
    cases hcarve : segregate p h s block sz partitionSz with
    | ok result =>
      obtain ⟨j, hj⟩ := multiple_of_segregate hblock hcarve
      exact absurd hj (hnone (j + 2) (by omega))
    | error fault =>
      obtain ⟨addr, rfl, haddr⟩ := segregate_error hcarve
      have hptr := p.ptrSize_ge
      refine ⟨addr, rfl, ?_⟩
      rcases haddr (by omega) with houtside | hnull
      · -- a link word inside the carved bytes would lie in the block around them
        by_contra hinside
        apply houtside
        exact ⟨b, hmem, ⟨hlow, by omega⟩, ⟨by omega, by omega⟩⟩
      · exact Or.inl (by omega)

/-- Three chunks of 16 bytes carved from address 4104 on, and 40 bytes that leave the block. -/
theorem segregate_carves_applies :
    (∃ after carved, segregate .x64 ⟨fun _ ↦ 0, [⟨4096, 56⟩]⟩ ⟨0, 0⟩ 4104 48 16 =
        .ok (after, carved, 4104) ∧
      CarvedInto .x64 ⟨fun _ ↦ 0, [⟨4096, 56⟩]⟩ ⟨0, 0⟩ 4104 16 3 after carved) ∧
      ∃ addr, segregate .x64 ⟨fun _ ↦ 0, [⟨4096, 56⟩]⟩ ⟨0, 0⟩ 4104 40 16 =
        .error (.leavesBlock addr) ∧ (addr < 4104 ∨ 4104 + 40 < addr + 8) := by
  constructor
  · exact (@segregate_carves .x64 ⟨fun _ ↦ 0, [⟨4096, 56⟩]⟩ ⟨0, 0⟩ ⟨4096, 56⟩ 4104 48 16
      (by decide) (by decide) (by simp) (by decide) (by decide) (by decide) (by decide)).1 3
      (by decide) (by decide)
  · apply (@segregate_carves .x64 ⟨fun _ ↦ 0, [⟨4096, 56⟩]⟩ ⟨0, 0⟩ ⟨4096, 56⟩ 4104 40 16
      (by decide) (by decide) (by simp) (by decide) (by decide) (by decide) (by decide)).2
    intro n hn hmul
    omega

end SegregatedStorage

end ServerCore.MemoryPool
