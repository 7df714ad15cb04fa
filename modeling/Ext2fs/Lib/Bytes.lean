import Mathlib.Algebra.Order.Ring.Nat
import Mathlib.Tactic.Ring

/-!
# Little-endian numbers in a memory of bytes

A memory gives every address a byte.  Numbers of `k` bytes are read with the least byte first, and a
run of bytes is copied from one memory into another.

* `le`, `put` — reading and writing a number; `le_put` — what is read after a write;
* `paste` — a copy, also within one memory; the source is read before anything is written;
* `slice`, `ofList` — the bytes of a range, and a memory that holds some;
* `le_congr` — a number depends on its own bytes only.
-/

namespace Bytes

/-- A memory. -/
abbrev Mem := ℕ → UInt8

/-- The number in the `k` bytes from `o` on. -/
def le : ℕ → Mem → ℕ → ℕ
  | 0, _, _ => 0
  | k + 1, m, o => (m o).toNat + 256 * le k m (o + 1)

/-- The memory after a number of `k` bytes is written at `o`; what does not fit is dropped. -/
def put (k : ℕ) (m : Mem) (o x : ℕ) : Mem := fun i =>
  if o ≤ i ∧ i < o + k then UInt8.ofNat (x / 256 ^ (i - o)) else m i

/-- The memory after `k` bytes of `src` from `so` on are copied to `o`. -/
def paste (m : Mem) (o : ℕ) (src : Mem) (so k : ℕ) : Mem := fun i =>
  if o ≤ i ∧ i < o + k then src (so + (i - o)) else m i

/-- The memory with zeros from `a` up to `b`. -/
def zero (m : Mem) (a b : ℕ) : Mem := fun i => if a ≤ i ∧ i < b then 0 else m i

variable {m m' src : Mem} {o o' so k x i : ℕ}

theorem le_congr (h : ∀ i < k, m' (o' + i) = m (o + i)) : le k m' o' = le k m o := by
  induction k generalizing o o' with
  | zero => rfl
  | succ k ih =>
    have h0 := h 0 (by omega)
    have hrest : le k m' (o' + 1) = le k m (o + 1) := by
      apply ih
      intro i hi
      have h1 := h (i + 1) (by omega)
      rw [← Nat.add_assoc, ← Nat.add_assoc] at h1
      rwa [Nat.add_right_comm, Nat.add_right_comm o]
    show (m' o').toNat + 256 * le k m' (o' + 1) = (m o).toNat + 256 * le k m (o + 1)
    rw [hrest]
    simp only [Nat.add_zero] at h0
    rw [h0]

theorem le_lt (k : ℕ) (m : Mem) (o : ℕ) : le k m o < 256 ^ k := by
  induction k generalizing o with
  | zero => exact Nat.one_pos
  | succ k ih =>
    have hbyte : (m o).toNat < 256 := (m o).toNat_lt
    have hrest := ih (o + 1)
    show (m o).toNat + 256 * le k m (o + 1) < 256 ^ (k + 1)
    rw [pow_succ]
    omega

theorem put_of_lt (h : i < o) : put k m o x i = m i := if_neg (by omega)

theorem put_of_ge (h : o + k ≤ i) : put k m o x i = m i := if_neg (by omega)

/-- **A number is read back**, up to its width. -/
theorem le_put (k : ℕ) (m : Mem) (o x : ℕ) : le k (put k m o x) o = x % 256 ^ k := by
  induction k generalizing m o x with
  | zero => simp [le, Nat.mod_one]
  | succ k ih =>
    have hrest : le k (put (k + 1) m o x) (o + 1) = le k (put k m (o + 1) (x / 256)) (o + 1) := by
      apply le_congr
      intro i hi
      have hpow : x / 256 / 256 ^ i = x / 256 ^ (i + 1) := by
        rw [Nat.div_div_eq_div_mul, pow_succ, Nat.mul_comm]
      have h1 : put (k + 1) m o x (o + 1 + i) = UInt8.ofNat (x / 256 ^ (i + 1)) := by
        show (if _ then UInt8.ofNat (x / 256 ^ (o + 1 + i - o)) else _) = _
        rw [if_pos (by omega), show o + 1 + i - o = i + 1 from by omega]
      have h2 : put k m (o + 1) (x / 256) (o + 1 + i) = UInt8.ofNat (x / 256 / 256 ^ i) := by
        show (if _ then UInt8.ofNat (x / 256 / 256 ^ (o + 1 + i - (o + 1))) else _) = _
        rw [if_pos (by omega), show o + 1 + i - (o + 1) = i from by omega]
      rw [h1, h2, hpow]
    have hbyte : put (k + 1) m o x o = UInt8.ofNat x := by
      show (if _ then UInt8.ofNat (x / 256 ^ (o - o)) else _) = _
      rw [if_pos (by omega), Nat.sub_self, pow_zero, Nat.div_one]
    show (put (k + 1) m o x o).toNat + 256 * le k (put (k + 1) m o x) (o + 1) = x % 256 ^ (k + 1)
    have hlow : (UInt8.ofNat x).toNat = x % 256 := UInt8.toNat_ofNat'
    have hsplit : x % 256 ^ (k + 1) = x % 256 + 256 * (x / 256 % 256 ^ k) := by
      rw [pow_succ', Nat.mod_mul]
    rw [hrest, ih, hbyte, hlow, hsplit]

theorem le_put_of_lt (h : x < 256 ^ k) : le k (put k m o x) o = x := by
  rw [le_put, Nat.mod_eq_of_lt h]

/-- A byte of a number. -/
theorem le_byte {j : ℕ} (m : Mem) (o : ℕ) (h : j < k) :
    UInt8.ofNat (le k m o / 256 ^ j) = m (o + j) := by
  induction k generalizing o j with
  | zero => omega
  | succ k ih =>
    have hsplit : le (k + 1) m o = (m o).toNat + 256 * le k m (o + 1) := rfl
    have hbyte : (m o).toNat < 256 := (m o).toNat_lt
    cases j with
    | zero =>
      apply UInt8.toNat_inj.1
      rw [pow_zero, Nat.div_one, UInt8.toNat_ofNat', hsplit]
      show _ = (m o).toNat
      omega
    | succ j =>
      have hrest : le (k + 1) m o / 256 ^ (j + 1) = le k m (o + 1) / 256 ^ j := by
        rw [hsplit, pow_succ', ← Nat.div_div_eq_div_mul, Nat.add_mul_div_left _ _ (by omega),
          Nat.div_eq_of_lt hbyte, Nat.zero_add]
      rw [hrest, ih (o + 1) (by omega), Nat.add_assoc, Nat.add_comm 1]

/-- The bytes of a copy. -/
theorem paste_add (h : i < k) : paste m o src so k (o + i) = src (so + i) := by
  show (if _ then src (so + (o + i - o)) else _) = _
  rw [if_pos (by omega), Nat.add_sub_cancel_left]

theorem paste_of_lt (h : i < o) : paste m o src so k i = m i := if_neg (by omega)

theorem paste_of_ge (h : o + k ≤ i) : paste m o src so k i = m i := if_neg (by omega)

/-- What is copied depends on the bytes that are copied only. -/
theorem paste_congr {src' : Mem} {n : ℕ} (h : ∀ i < n, src i = src' i) :
    paste m o src 0 n = paste m o src' 0 n := by
  funext i
  unfold paste
  split
  · rw [Nat.zero_add]
    exact h _ (by omega)
  · rfl

/-! ### Numbers beside a change -/

theorem le_put_below {n p : ℕ} (h : o + k ≤ p) : le k (put n m p x) o = le k m o :=
  le_congr fun i hi => put_of_lt (by omega)

theorem le_put_above {n p : ℕ} (h : p + n ≤ o) : le k (put n m p x) o = le k m o :=
  le_congr fun i _ => put_of_ge (by omega)

theorem le_paste_below {n p : ℕ} (h : o + k ≤ p) : le k (paste m p src so n) o = le k m o :=
  le_congr fun i hi => paste_of_lt (by omega)

/-! ### Ranges -/

/-- The `n` bytes from `o` on. -/
def slice (m : Mem) (o n : ℕ) : List UInt8 := (List.range n).map fun i => m (o + i)

/-- The memory that holds the given bytes from 0 on. -/
def ofList (l : List UInt8) : Mem := fun i => l.getD i 0

@[simp] theorem slice_length (m : Mem) (o n : ℕ) : (slice m o n).length = n := by simp [slice]

/-- Two ranges that meet. -/
theorem slice_append (m : Mem) (o a b : ℕ) : slice m o a ++ slice m (o + a) b = slice m o (a + b) := by
  unfold slice
  rw [List.range_add, List.map_append, List.map_map]
  congr 1
  apply List.map_congr_left
  intro i hi
  exact congrArg m (Nat.add_assoc o a i)

end Bytes
