import ServerCore.Foundation.ByteMemory

/-!
# The buffers of a client

A buffer is a block of bytes with two marks: what is before `offset_` is in use, and what is read
starts at `head_`. The numbers are 32-bit unsigned and wrap. `Produce` takes the lock and `Consume`
gives it back. A `memmove` beyond the block is undefined behaviour.
-/

namespace ServerCore.Server

open Foundation

/-- `a - b` for `unsigned int`. -/
def sub32 (a b : ℕ) : ℕ :=
  (a + 2 ^ 32 - b) % 2 ^ 32

theorem sub32_of_le {a b : ℕ} (h : b ≤ a) (ha : a < 2 ^ 32) : sub32 a b = a - b := by
  unfold sub32
  rw [show a + 2 ^ 32 - b = a - b + 2 ^ 32 by omega, Nat.add_mod_right, Nat.mod_eq_of_lt (by omega)]

/-- `Buffer`. The memory starts at `buffer_`, and `locked` is its spinlock, taken exclusively. -/
structure Buffer where
  memory : ByteMemory
  size : ℕ
  offset : ℕ
  head : ℕ
  locked : Bool

namespace Buffer

/-- `Init`. -/
def init (size : ℕ) : Buffer :=
  ⟨fun _ ↦ 0, size, 0, 0, false⟩

/-- What is found from `Read()` on. -/
def read (b : Buffer) : ByteMemory :=
  fun i ↦ b.memory (b.head + i)

def getRemained (b : Buffer) : ℕ :=
  sub32 b.size b.offset

/-- `GetBuffer()`, as a distance from `buffer_`. -/
def getBuffer (b : Buffer) : ℕ :=
  b.offset

/-- The `memmove` of `Consume`. -/
def shift (b : Buffer) (length : ℕ) : Option Buffer :=
  if b.offset + sub32 b.size length ≤ b.size then
    some { b with memory := b.memory.move 0 b.offset (sub32 b.size length) }
  else none

/-- `Consume` behind the `memmove`, up to the release of the lock. -/
def withdraw (b : Buffer) (length : ℕ) : Buffer :=
  { b with offset := sub32 b.offset length, head := 0 }

def unlock (b : Buffer) : Buffer :=
  { b with locked := false }

def consume (b : Buffer) (length : ℕ) : Option Buffer :=
  (b.shift length).map fun b ↦ (b.withdraw length).unlock

/-- `Produce` returns when it finds the lock free. -/
def produce (b : Buffer) (length : ℕ) : Option Buffer :=
  if b.locked then none else some { b with offset := (b.offset + length) % 2 ^ 32, locked := true }

/-- Copy `data` to `GetBuffer()`. -/
def fill (b : Buffer) (data : List UInt8) : Buffer :=
  { b with memory := b.memory.write b.getBuffer data }

/-! ## What the operations do -/

variable {b produced : Buffer} {length : ℕ}

/-- `Produce` changes nothing that `Read()` sees. -/
theorem produce_eq_some :
    b.produce length = some produced ↔ b.locked = false ∧
      produced = ⟨b.memory, b.size, (b.offset + length) % 2 ^ 32, b.head, true⟩ := by
  simp only [produce, Option.ite_none_left_eq_some, Bool.not_eq_true, Option.some.injEq]
  exact and_congr_right fun _ ↦ eq_comm

/-- `Consume` of all that is in use empties the buffer. -/
theorem consume_offset (hlength : b.offset ≤ b.size) (hsize : b.size < 2 ^ 32) :
    b.consume b.offset =
      some ⟨b.memory.move 0 b.offset (b.size - b.offset), b.size, 0, 0, false⟩ := by
  have hrest : sub32 b.size b.offset = b.size - b.offset := sub32_of_le hlength hsize
  have hnone : sub32 b.offset b.offset = 0 := by
    rw [sub32_of_le le_rfl (by omega), Nat.sub_self]
  have hshift : b.shift b.offset =
      some { b with memory := b.memory.move 0 b.offset (b.size - b.offset) } := by
    unfold shift
    rw [hrest, if_pos (by omega)]
  unfold consume
  rw [hshift, Option.map_some]
  unfold unlock withdraw
  rw [hnone]

end Buffer

end ServerCore.Server
