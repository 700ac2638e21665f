import ServerCore.Foundation.TransitionSystem
import ServerCore.Server.Buffer

/-!
# The buffer as a queue

What a buffer is for: bytes are appended at `GetBuffer()` and taken from the front by `Consume`. The
queue itself is a list beside the buffer. `Consume` moves the wrong bytes: it starts at `offset_`, not
behind what it takes, and moves as many as the block has behind that. The main theorem says that the
buffer is a queue in exactly the runs in which every `Consume` takes all there is.

An append is the copy and a `Produce` that has got the lock, whoever gave it back.
-/

namespace ServerCore.Server

open Foundation

/-- A buffer and, as ghost state, the bytes appended and not consumed. `faulted` is set by a `memmove`
that leaves the block. -/
structure BufferQueue where
  buffer : Buffer
  queued : List UInt8
  faulted : Bool

inductive QueueCall
  | append (data : List UInt8)
  | consume (length : ℕ)

namespace BufferQueue

variable {s : BufferQueue}

def initial (size : ℕ) : BufferQueue :=
  ⟨Buffer.init size, [], false⟩

/-- Appends fit into the rest of the block, and no more is consumed than is in use. -/
def Allowed (s : BufferQueue) : QueueCall → Prop
  | .append data => data.length ≤ s.buffer.getRemained
  | .consume length => length ≤ s.buffer.offset

instance (s : BufferQueue) (call : QueueCall) : Decidable (s.Allowed call) :=
  match call with
  | .append data => inferInstanceAs (Decidable (data.length ≤ s.buffer.getRemained))
  | .consume length => inferInstanceAs (Decidable (length ≤ s.buffer.offset))

/-- An append that found the lock taken would still wait. -/
def appended (s : BufferQueue) (data : List UInt8) : Option Buffer → BufferQueue
  | some buffer => { s with buffer := buffer, queued := s.queued ++ data }
  | none => s

def consumed (s : BufferQueue) (length : ℕ) : Option Buffer → BufferQueue
  | some buffer => { s with buffer := buffer, queued := s.queued.drop length }
  | none => { s with faulted := true }

def attempt (s : BufferQueue) : QueueCall → BufferQueue
  | .append data => s.appended data ((s.buffer.fill data).unlock.produce data.length)
  | .consume length => s.consumed length (s.buffer.consume length)

/-- All sequences of appends and consumptions on a buffer of any size, up to the first `memmove` that
leaves the block. -/
def system : System BufferQueue QueueCall where
  init s := ∃ size < 2 ^ 32, s = initial size
  step s call after := s.faulted = false ∧ s.Allowed call ∧ after = s.attempt call

/-- The bytes in use are the queue. -/
structure IsQueue (s : BufferQueue) : Prop where
  defined : s.faulted = false
  contents : s.buffer.memory.read 0 s.buffer.offset = s.queued
  within : s.buffer.offset ≤ s.buffer.size
  remained : s.buffer.getRemained = s.buffer.size - s.buffer.offset

/-- Everything in use is consumed at once. -/
def TakesAll (s : BufferQueue) : QueueCall → Prop
  | .append _ => True
  | .consume length => length = s.buffer.offset

/-- The invariant: the size is one that `unsigned int` can hold. -/
def Sound (s : BufferQueue) : Prop :=
  s.IsQueue ∧ s.buffer.size < 2 ^ 32

theorem sound_initial {size : ℕ} (hsize : size < 2 ^ 32) : (initial size).Sound :=
  ⟨⟨rfl, rfl, Nat.zero_le _, sub32_of_le (Nat.zero_le _) hsize⟩, hsize⟩

/-- The copy and the `Produce` put the data behind what is in use. -/
theorem sound_append (hs : s.Sound) {data : List UInt8} (hfits : s.Allowed (.append data)) :
    (s.attempt (.append data)).Sound := by
  obtain ⟨hqueue, hsize⟩ := hs
  have hwithin := hqueue.within
  have hroom : s.buffer.offset + data.length ≤ s.buffer.size := by
    have hfits : data.length ≤ s.buffer.getRemained := hfits
    rw [hqueue.remained] at hfits
    omega
  have hoffset : (s.buffer.offset + data.length) % 2 ^ 32 = s.buffer.offset + data.length :=
    Nat.mod_eq_of_lt (by omega)
  have hproduce : (s.buffer.fill data).unlock.produce data.length =
      some ⟨s.buffer.memory.write s.buffer.offset data, s.buffer.size,
        s.buffer.offset + data.length, s.buffer.head, true⟩ := by
    rw [Buffer.produce_eq_some, ← hoffset]
    exact ⟨rfl, rfl⟩
  have hbytes : (s.buffer.memory.write s.buffer.offset data).read 0
      (s.buffer.offset + data.length) = s.queued ++ data := by
    calc
      (s.buffer.memory.write s.buffer.offset data).read 0 (s.buffer.offset + data.length) =
          (s.buffer.memory.write s.buffer.offset data).read 0 s.buffer.offset ++
            (s.buffer.memory.write s.buffer.offset data).read s.buffer.offset data.length := by
        rw [ByteMemory.read_add, Nat.zero_add]
      _ = s.queued ++ data := by
        rw [ByteMemory.read_write_self, ← hqueue.contents]
        congr 1
        apply ByteMemory.read_congr
        intro x _ hx
        exact ByteMemory.write_of_outside (Or.inl (by omega))
  rw [attempt, hproduce]
  exact ⟨⟨hqueue.defined, hbytes, hroom, sub32_of_le hroom hsize⟩, hsize⟩

/-- To consume everything leaves an empty buffer. -/
theorem sound_consume_all (hs : s.Sound) : (s.attempt (.consume s.buffer.offset)).Sound := by
  obtain ⟨hqueue, hsize⟩ := hs
  have hempty : s.queued.drop s.buffer.offset = [] := by
    apply List.drop_of_length_le
    rw [← hqueue.contents, ByteMemory.length_read]
  rw [attempt, Buffer.consume_offset hqueue.within hsize]
  exact ⟨⟨hqueue.defined, hempty.symm, Nat.zero_le _, sub32_of_le (Nat.zero_le _) hsize⟩, hsize⟩

/-- The `memmove` of a smaller `Consume` leaves the block. -/
theorem faulted_consume_part (hs : s.Sound) {length : ℕ} (hpart : length < s.buffer.offset) :
    (s.attempt (.consume length)).faulted = true := by
  obtain ⟨hqueue, hsize⟩ := hs
  have hwithin := hqueue.within
  have hrest : sub32 s.buffer.size length = s.buffer.size - length :=
    sub32_of_le (by omega) hsize
  have hleaves : s.buffer.consume length = none := by
    unfold Buffer.consume Buffer.shift
    rw [hrest, if_neg (by omega)]
    rfl
  rw [attempt, hleaves]
  rfl

/-- **The byte queue.** For every size and every sequence of appends and consumptions, the bytes in use are
those appended and not consumed, in order, and no `memmove` leaves the block, if and only if every
`Consume` takes all that is in use. -/
theorem isQueue_visited_iff_takesAll {history : List (BufferQueue × QueueCall)}
    (hrun : system.Run history s) :
    (∀ seen ∈ System.visited history s, seen.IsQueue) ↔ System.Obeys TakesAll history := by
  apply hrun.forall_visited_iff_obeys_of_sound Sound fun _ hs ↦ hs.1
  · rintro start ⟨size, hsize, rfl⟩
    exact sound_initial hsize
  · rintro state call after hs htakes ⟨-, hallowed, rfl⟩
    cases call with
    | append data => exact sound_append hs hallowed
    | consume length =>
      obtain rfl : length = state.buffer.offset := htakes
      exact sound_consume_all hs
  · rintro state call after hs htakes ⟨-, hallowed, rfl⟩ hafter
    cases call with
    | append data => exact htakes trivial
    | consume length =>
      have hpart : length < state.buffer.offset := lt_of_le_of_ne hallowed htakes
      have hfaulted := faulted_consume_part hs hpart
      rw [hafter.defined] at hfaulted
      cases hfaulted

/-- Two bytes are appended to a buffer of four, and one is consumed. -/
theorem isQueue_fails : ¬ ∀ history s, system.Run history s → s.IsQueue := by
  intro hclaim
  have hstart : system.Run [] (initial 4) := .start ⟨4, by decide, rfl⟩
  have happend := hstart.next ⟨rfl, show (initial 4).Allowed (.append [1, 2]) by decide, rfl⟩
  have hconsume := happend.next
    ⟨rfl, show ((initial 4).attempt (.append [1, 2])).Allowed (.consume 1) by decide, rfl⟩
  exact absurd (hclaim _ _ hconsume).defined (by decide)

/-- The characterisation applied to two bytes that are appended and consumed together. -/
theorem isQueue_visited_iff_takesAll_applies :
    ∃ history s, system.Run history s ∧ s.buffer.offset = 0 ∧
      ((∀ seen ∈ System.visited history s, seen.IsQueue) ↔ System.Obeys TakesAll history) := by
  have hstart : system.Run [] (initial 4) := .start ⟨4, by decide, rfl⟩
  have happend := hstart.next ⟨rfl, show (initial 4).Allowed (.append [1, 2]) by decide, rfl⟩
  have hconsume := happend.next
    ⟨rfl, show ((initial 4).attempt (.append [1, 2])).Allowed (.consume 2) by decide, rfl⟩
  exact ⟨_, _, hconsume, by decide, isQueue_visited_iff_takesAll hconsume⟩

end BufferQueue

end ServerCore.Server
