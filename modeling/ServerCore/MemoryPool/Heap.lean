import ServerCore.Foundation.ByteMemory

/-!
# The system heap under the pools

The pools take their blocks from `::malloc` and thread their lists through the blocks themselves, so
the heap is byte-addressed memory together with the blocks `::malloc` has handed out and `::free` has
not taken back. `::malloc` is the C runtime's: each call is answered by an address and the unknown
contents of the new block, or by null.

An access outside the blocks handed out is undefined behaviour in the source. It is a `Fault` here
and ends the operation, so no property of the pools is ever proved of what follows one.
-/

namespace ServerCore.MemoryPool

open Foundation

/-- The two build platforms of the solution. -/
inductive Platform
  | win32
  | x64
  deriving DecidableEq, Repr

/-- `sizeof(void*)`, which is also `sizeof(std::size_t)`. -/
def Platform.ptrSize : Platform → ℕ
  | .win32 => 4
  | .x64 => 8

/-- `std::size_t` arithmetic is modulo this number. -/
def Platform.sizeModulus (p : Platform) : ℕ := 256 ^ p.ptrSize

theorem Platform.ptrSize_ge (p : Platform) : 4 ≤ p.ptrSize := by
  cases p <;> decide

/-- A block handed out by `::malloc`. -/
structure Block where
  base : ℕ
  size : ℕ
  deriving DecidableEq, Repr

/-- The `len` bytes at `addr` lie inside the block. -/
def Block.Contains (b : Block) (addr len : ℕ) : Prop :=
  b.base ≤ addr ∧ addr + len ≤ b.base + b.size

instance (b : Block) (addr len : ℕ) : Decidable (b.Contains addr len) :=
  inferInstanceAs (Decidable (_ ∧ _))

def Block.Apart (first second : Block) : Prop :=
  Foundation.Apart first.base first.size second.base second.size

instance (first second : Block) : Decidable (first.Apart second) :=
  inferInstanceAs (Decidable (Foundation.Apart _ _ _ _))

theorem Block.Apart.symm {first second : Block} (h : first.Apart second) : second.Apart first :=
  Foundation.Apart.symm h

instance : Std.Symm Block.Apart := ⟨fun _ _ h ↦ h.symm⟩

/-- What undefined behaviour an operation ran into. -/
inductive Fault
  /-- An access through a null pointer or through one into no block handed out. -/
  | deref (addr : ℕ)
  /-- A pointer derived from a block was used outside that block. -/
  | leavesBlock (addr : ℕ)
  /-- `::free` of something that is not the start of a block handed out. -/
  | badFree (addr : ℕ)
  /-- An array access past the end. -/
  | badIndex (index : ℕ)
  deriving DecidableEq, Repr

/-- What comes out of two computations in a row. -/
theorem exists_ok_of_bind {α β : Type} {first : Except Fault α} {second : α → Except Fault β}
    {result : β} (h : first >>= second = .ok result) :
    ∃ value, first = .ok value ∧ second value = .ok result := by
  cases first with
  | error fault => cases h
  | ok value => exact ⟨value, rfl, h⟩

structure Heap where
  bytes : ByteMemory
  blocks : List Block

/-- An answer of `::malloc`: the address, null being `0`, and what the block holds at first. -/
structure Answer where
  addr : ℕ
  contents : ByteMemory

namespace Heap

/-- The `len` bytes at `addr` lie inside one block handed out. -/
def Live (h : Heap) (addr len : ℕ) : Prop :=
  ∃ b ∈ h.blocks, b.Contains addr len

instance (h : Heap) (addr len : ℕ) : Decidable (h.Live addr len) :=
  inferInstanceAs (Decidable (∃ b ∈ h.blocks, _))

/-- The `len` bytes at `addr` lie inside the block that `origin` points into. -/
def SameBlock (h : Heap) (origin addr len : ℕ) : Prop :=
  ∃ b ∈ h.blocks, b.Contains origin 0 ∧ b.Contains addr len

instance (h : Heap) (origin addr len : ℕ) : Decidable (h.SameBlock origin addr len) :=
  inferInstanceAs (Decidable (∃ b ∈ h.blocks, _))

/-- A block of this size at this address is one that `::malloc` may answer with: not null, inside the
address space, disjoint from every block handed out. -/
def Fresh (h : Heap) (p : Platform) (addr size : ℕ) : Prop :=
  0 < addr ∧ addr + size ≤ p.sizeModulus ∧ ∀ b ∈ h.blocks, Block.Apart ⟨addr, size⟩ b

instance (h : Heap) (p : Platform) (addr size : ℕ) : Decidable (h.Fresh p addr size) :=
  inferInstanceAs (Decidable (_ ∧ _ ∧ ∀ b ∈ h.blocks, _))

/-- Hand out a block of `size` bytes. -/
def malloc (h : Heap) (size : ℕ) (answer : Answer) : Heap where
  bytes x := if answer.addr ≤ x ∧ x < answer.addr + size then answer.contents x else h.bytes x
  blocks := ⟨answer.addr, size⟩ :: h.blocks

/-- `::free`. -/
def free (h : Heap) (addr : ℕ) : Except Fault Heap :=
  if ∃ b ∈ h.blocks, b.base = addr then
    .ok { h with blocks := h.blocks.filter fun b ↦ b.base ≠ addr }
  else .error (.badFree addr)

/-- The link word of a chunk or of a block header. -/
def next (h : Heap) (p : Platform) (ptr : ℕ) : ℕ := h.bytes.load ptr p.ptrSize

def setNext (h : Heap) (p : Platform) (ptr value : ℕ) : Heap :=
  { h with bytes := h.bytes.store ptr p.ptrSize value }

/-- Read `next_of(ptr)`. -/
def loadNext (h : Heap) (p : Platform) (ptr : ℕ) : Except Fault ℕ :=
  if h.Live ptr p.ptrSize then .ok (h.next p ptr) else .error (.deref ptr)

/-- Assign `next_of(ptr) = value`. -/
def storeNext (h : Heap) (p : Platform) (ptr value : ℕ) : Except Fault Heap :=
  if h.Live ptr p.ptrSize then .ok (h.setNext p ptr value) else .error (.deref ptr)

/-- Assign `next_of(ptr) = value` for a `ptr` computed from `origin`. -/
def storeNextFrom (h : Heap) (p : Platform) (origin ptr value : ℕ) : Except Fault Heap :=
  if h.SameBlock origin ptr p.ptrSize then .ok (h.setNext p ptr value)
  else .error (.leavesBlock ptr)

variable {h : Heap} {p : Platform}

@[simp]
theorem setNext_blocks (h : Heap) (p : Platform) (ptr value : ℕ) :
    (h.setNext p ptr value).blocks = h.blocks := rfl

@[simp]
theorem malloc_blocks (h : Heap) (size : ℕ) (answer : Answer) :
    (h.malloc size answer).blocks = ⟨answer.addr, size⟩ :: h.blocks := rfl

theorem loadNext_eq_ok {ptr : ℕ} (hlive : h.Live ptr p.ptrSize) :
    h.loadNext p ptr = .ok (h.next p ptr) :=
  if_pos hlive

theorem storeNext_eq_ok {ptr : ℕ} (value : ℕ) (hlive : h.Live ptr p.ptrSize) :
    h.storeNext p ptr value = .ok (h.setNext p ptr value) :=
  if_pos hlive

theorem storeNextFrom_eq_ok {origin ptr : ℕ} (value : ℕ)
    (hsame : h.SameBlock origin ptr p.ptrSize) :
    h.storeNextFrom p origin ptr value = .ok (h.setNext p ptr value) :=
  if_pos hsame

theorem next_setNext_self (h : Heap) (ptr : ℕ) {value : ℕ} (hvalue : value < p.sizeModulus) :
    (h.setNext p ptr value).next p ptr = value :=
  ByteMemory.load_store_self h.bytes ptr hvalue

theorem next_setNext_of_apart {ptr other value : ℕ}
    (hapart : Foundation.Apart ptr p.ptrSize other p.ptrSize) :
    (h.setNext p other value).next p ptr = h.next p ptr :=
  ByteMemory.load_store_of_apart hapart

theorem setNext_bytes_of_outside {ptr value x : ℕ} (hx : x < ptr ∨ ptr + p.ptrSize ≤ x) :
    (h.setNext p ptr value).bytes x = h.bytes x :=
  ByteMemory.store_of_outside hx

theorem next_congr {after : Heap} {ptr : ℕ}
    (hsame : ∀ x, ptr ≤ x → x < ptr + p.ptrSize → after.bytes x = h.bytes x) :
    after.next p ptr = h.next p ptr :=
  ByteMemory.load_congr hsame

theorem malloc_bytes_of_outside {size x : ℕ} {answer : Answer}
    (hx : x < answer.addr ∨ answer.addr + size ≤ x) :
    (h.malloc size answer).bytes x = h.bytes x := by
  apply if_neg
  omega

theorem free_eq_ok {addr : ℕ} (hbase : ∃ b ∈ h.blocks, b.base = addr) :
    h.free addr = .ok { h with blocks := h.blocks.filter fun b ↦ b.base ≠ addr } :=
  if_pos hbase

end Heap

end ServerCore.MemoryPool
