import Mathlib.Data.List.Perm.Subperm
import Mathlib.Data.Nat.Digits.Defs
import Mathlib.Tactic.Ring
import Mathlib.Tactic.Linarith

/-!
# Byte-addressed memory

A memory gives every address a byte. Words are stored least significant byte first, at any address:
nothing is aligned, so two words may overlap and a word may share bytes with anything else. What is
known about an access is therefore always stated by address ranges: a load sees the bytes in its own
range, a store leaves every byte outside its range alone.
-/

namespace ServerCore.Foundation

abbrev ByteMemory := ℕ → UInt8

/-- The ranges `[first, first + n)` and `[second, second + k)` do not meet. -/
def Apart (first n second k : ℕ) : Prop :=
  first + n ≤ second ∨ second + k ≤ first

instance (first n second k : ℕ) : Decidable (Apart first n second k) :=
  inferInstanceAs (Decidable (_ ∨ _))

theorem Apart.symm {first n second k : ℕ} (h : Apart first n second k) : Apart second k first n :=
  Or.symm h

/-- Ranges of one size that do not meet take at least their total size. -/
theorem length_mul_le_of_apart {starts : List ℕ} {size low high : ℕ} (hsize : 0 < size)
    (hapart : starts.Pairwise fun x y ↦ Apart x size y size)
    (hinside : ∀ x ∈ starts, low ≤ x ∧ x + size ≤ high) : starts.length * size ≤ high - low := by
  -- each range starts in a slot of its own
  have hslots : (starts.map fun x ↦ (x - low) / size).Nodup := by
    apply List.pairwise_map.mpr
    apply hapart.imp_of_mem
    intro x y hx hy hxy heq
    have hslot (u v : ℕ) (hu : low ≤ u) (huv : u + size ≤ v) :
        (u - low) / size < (v - low) / size := by
      have hle := Nat.div_le_div_right (c := size) (show u - low + size ≤ v - low by omega)
      rwa [Nat.add_div_right _ hsize] at hle
    rcases hxy with hlt | hgt
    · exact absurd heq (Nat.ne_of_lt (hslot x y (hinside x hx).1 hlt))
    · exact absurd heq.symm (Nat.ne_of_lt (hslot y x (hinside y hy).1 hgt))
  have hrange : (starts.map fun x ↦ (x - low) / size) ⊆ List.range ((high - low) / size) := by
    intro slot hslot
    obtain ⟨x, hx, rfl⟩ := List.mem_map.mp hslot
    obtain ⟨hlow, hhigh⟩ := hinside x hx
    have hle := Nat.div_le_div_right (c := size) (show x - low + size ≤ high - low by omega)
    rw [Nat.add_div_right _ hsize] at hle
    exact List.mem_range.mpr hle
  have hlength := (List.subperm_of_subset hslots hrange).length_le
  rw [List.length_map, List.length_range] at hlength
  exact (Nat.mul_le_mul_right size hlength).trans (Nat.div_mul_le_self _ _)

namespace ByteMemory

/-- The word of `len` bytes at `addr`. -/
def load (m : ByteMemory) : ℕ → ℕ → ℕ
  | _, 0 => 0
  | addr, len + 1 => (m addr).toNat + 256 * load m (addr + 1) len

/-- Write `value`, modulo `256 ^ len`, into the `len` bytes at `addr`. -/
def store (m : ByteMemory) (addr len value : ℕ) : ByteMemory :=
  fun x ↦ if addr ≤ x ∧ x < addr + len then UInt8.ofNat (value / 256 ^ (x - addr)) else m x

/-- The `len` bytes at `addr`. -/
def read (m : ByteMemory) (addr len : ℕ) : List UInt8 :=
  (List.range len).map fun i ↦ m (addr + i)

/-- Copy `data` to the bytes from `addr` on. -/
def write (m : ByteMemory) (addr : ℕ) (data : List UInt8) : ByteMemory :=
  fun x ↦ if addr ≤ x then (data[x - addr]?).getD (m x) else m x

/-- Copy `len` bytes from `source` to `target`, as if through a temporary. -/
def move (m : ByteMemory) (target source len : ℕ) : ByteMemory :=
  fun x ↦ if target ≤ x ∧ x < target + len then m (source + (x - target)) else m x

/-! ## Words -/

/-- A load sees the bytes of its own range only. -/
theorem load_congr {m m' : ByteMemory} {addr len : ℕ}
    (h : ∀ x, addr ≤ x → x < addr + len → m' x = m x) : load m' addr len = load m addr len := by
  induction len generalizing addr with
  | zero => rfl
  | succ len ih =>
    have htail : load m' (addr + 1) len = load m (addr + 1) len := by
      apply ih
      intro x hlow hhigh
      exact h x (by omega) (by omega)
    rw [load, load, htail, h addr le_rfl (by omega)]

/-- Bytes that spell `value` are loaded as `value`. -/
theorem load_of_digits {m : ByteMemory} {addr len value : ℕ}
    (h : ∀ i < len, m (addr + i) = UInt8.ofNat (value / 256 ^ i)) :
    load m addr len = value % 256 ^ len := by
  induction len generalizing addr value with
  | zero => simp [load, Nat.mod_one]
  | succ len ih =>
    have hfirst : (m addr).toNat = value % 256 := by
      rw [show m addr = UInt8.ofNat value by simpa using h 0 (by omega)]
      simp
    have htail : load m (addr + 1) len = (value / 256) % 256 ^ len := by
      apply ih
      intro i hi
      rw [show addr + 1 + i = addr + (i + 1) by omega, h (i + 1) (by omega), Nat.div_div_eq_div_mul,
        pow_succ']
    calc
      load m addr (len + 1) = value % 256 + 256 * (value / 256 % 256 ^ len) := by
        rw [load, hfirst, htail]
      _ = value % (256 * 256 ^ len) := Nat.mod_mul.symm
      _ = value % 256 ^ (len + 1) := by rw [pow_succ']

theorem store_of_outside {m : ByteMemory} {addr len value x : ℕ}
    (h : x < addr ∨ addr + len ≤ x) : store m addr len value x = m x := by
  unfold store
  rw [if_neg (by omega)]

theorem load_store_self (m : ByteMemory) (addr : ℕ) {len value : ℕ} (h : value < 256 ^ len) :
    load (store m addr len value) addr len = value := by
  have hload : load (store m addr len value) addr len = value % 256 ^ len := by
    apply load_of_digits
    intro i hi
    unfold store
    rw [if_pos (by omega), Nat.add_sub_cancel_left]
  rw [hload, Nat.mod_eq_of_lt h]

theorem load_store_of_apart {m : ByteMemory} {addr len other k value : ℕ}
    (h : Apart addr len other k) :
    load (store m other k value) addr len = load m addr len := by
  apply load_congr
  intro x hlow hhigh
  apply store_of_outside
  unfold Apart at h
  omega

/-! ## Byte strings -/

@[simp]
theorem length_read (m : ByteMemory) (addr len : ℕ) : (read m addr len).length = len := by
  simp [read]

theorem take_read (m : ByteMemory) (addr : ℕ) {len k : ℕ} (h : k ≤ len) :
    (read m addr len).take k = read m addr k := by
  unfold read
  rw [← List.map_take, List.take_range, Nat.min_eq_left h]

theorem drop_read (m : ByteMemory) (addr len k : ℕ) :
    (read m addr len).drop k = read m (addr + k) (len - k) := by
  apply List.ext_getElem
  · simp
  · intro i hleft hright
    simp [read, Nat.add_assoc]

theorem read_congr {m m' : ByteMemory} {addr len : ℕ}
    (h : ∀ x, addr ≤ x → x < addr + len → m' x = m x) : read m' addr len = read m addr len := by
  apply List.map_congr_left
  intro i hi
  have hlt := List.mem_range.mp hi
  exact h (addr + i) (by omega) (by omega)

theorem read_add (m : ByteMemory) (addr len k : ℕ) :
    read m addr (len + k) = read m addr len ++ read m (addr + len) k := by
  calc
    read m addr (len + k) =
        (read m addr (len + k)).take len ++ (read m addr (len + k)).drop len :=
      (List.take_append_drop len _).symm
    _ = read m addr len ++ read m (addr + len) k := by
      rw [take_read m addr (Nat.le_add_right len k), drop_read, Nat.add_sub_cancel_left]

theorem write_of_outside {m : ByteMemory} {addr x : ℕ} {data : List UInt8}
    (h : x < addr ∨ addr + data.length ≤ x) : write m addr data x = m x := by
  unfold write
  split
  · rw [List.getElem?_eq_none (by omega)]
    rfl
  · rfl

theorem write_add {m : ByteMemory} {addr i : ℕ} {data : List UInt8} (h : i < data.length) :
    write m addr data (addr + i) = data[i] := by
  unfold write
  rw [if_pos (by omega), Nat.add_sub_cancel_left, List.getElem?_eq_getElem h]
  rfl

@[simp]
theorem read_write_self (m : ByteMemory) (addr : ℕ) (data : List UInt8) :
    read (write m addr data) addr data.length = data := by
  apply List.ext_getElem
  · simp
  · intro i hleft hright
    simp only [read, List.getElem_map, List.getElem_range]
    exact write_add hright

theorem load_write_of_apart {m : ByteMemory} {addr len other : ℕ} {data : List UInt8}
    (h : Apart addr len other data.length) :
    load (write m other data) addr len = load m addr len := by
  apply load_congr
  intro x hlow hhigh
  apply write_of_outside
  unfold Apart at h
  omega

end ByteMemory

end ServerCore.Foundation
