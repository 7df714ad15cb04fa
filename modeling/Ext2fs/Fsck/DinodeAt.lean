import Ext2fs.Fsck.Ckinode
import Ext2fs.Lib.Bytes

/-!
# An inode behind a pointer

The passes read an inode through a pointer into the buffers of the inode tables, and change its fields
there.  The pointer stands for the place that its bytes were read from; for `ginode` it need not be the
slot of the inode (`ginode_iff`), and it may lie behind the end of the buffer.

* `dinodeAt` — the structure at a place;
* `setSize`, `setBlock`, `setNblock`, `setNlink` — the fields that passes 2 and 4 write;
* `dinodeAt_apart` — what is written at one place and read at another;
* `dinodeAt_setSize`, `dinodeAt_setBlock`, `dinodeAt_setNblock` — what is read back.
-/

namespace Ext2fs.Fsck

open Bytes

/-- How far the fields of `struct ext2fs_dinode` reach that are read here. -/
def DINODE_READ : ℕ := 112

/-- `struct ext2fs_dinode` at a place. -/
def dinodeAt (m : Mem) (p : ℕ) : Dinode where
  e2di_mode := le 2 m p
  e2di_size := le 4 m (p + 4)
  e2di_size_high := le 4 m (p + 108)
  e2di_dtime := le 4 m (p + 20)
  e2di_nlink := le 2 m (p + 26)
  e2di_nblock := le 4 m (p + 28)
  direct := (List.range 12).map fun k => le 4 m (p + 40 + 4 * k)
  indirect := (List.range 3).map fun k => le 4 m (p + 88 + 4 * k)

/-- `e2di_size` is written. -/
def setSize (m : Mem) (p size : ℕ) : Mem := put 4 m (p + 4) size

/-- `e2di_blocks[k]` is written. -/
def setBlock (m : Mem) (p k b : ℕ) : Mem := put 4 m (p + 40 + 4 * k) b

/-- `e2di_nblock` is written. -/
def setNblock (m : Mem) (p n : ℕ) : Mem := put 4 m (p + 28) n

/-- `e2di_nlink` is written. -/
def setNlink (m : Mem) (p n : ℕ) : Mem := put 2 m (p + 26) n

variable {m m' : Mem} {p p' : ℕ}

/-- The structure depends on its own bytes. -/
theorem dinodeAt_congr (h : ∀ i < DINODE_READ, m' (p' + i) = m (p + i)) : dinodeAt m' p' = dinodeAt m p := by
  have hfield : ∀ k o, o + k ≤ DINODE_READ → le k m' (p' + o) = le k m (p + o) := by
    intro k o hle
    refine le_congr fun i hi => ?_
    rw [Nat.add_assoc, Nat.add_assoc]
    exact h (o + i) (by omega)
  unfold DINODE_READ at hfield
  have hdirect : ∀ k ∈ List.range 12, le 4 m' (p' + 40 + 4 * k) = le 4 m (p + 40 + 4 * k) := by
    intro k hk
    have hk := List.mem_range.1 hk
    rw [Nat.add_assoc, Nat.add_assoc]
    exact hfield 4 _ (by omega)
  have hindirect : ∀ k ∈ List.range 3, le 4 m' (p' + 88 + 4 * k) = le 4 m (p + 88 + 4 * k) := by
    intro k hk
    have hk := List.mem_range.1 hk
    rw [Nat.add_assoc, Nat.add_assoc]
    exact hfield 4 _ (by omega)
  have hmode : le 2 m' p' = le 2 m p := hfield 2 0 (by omega)
  unfold dinodeAt
  rw [hmode, hfield 4 4 (by omega), hfield 4 108 (by omega), hfield 4 20 (by omega), hfield 2 26 (by omega),
    hfield 4 28 (by omega), List.map_congr_left hdirect, List.map_congr_left hindirect]

/-- **What is written beside a structure** leaves it alone. -/
theorem dinodeAt_apart {k q x : ℕ} (h : q + k ≤ p ∨ p + DINODE_READ ≤ q) :
    dinodeAt (put k m q x) p = dinodeAt m p := by
  refine dinodeAt_congr fun i hi => ?_
  rcases h with h | h
  · exact put_of_ge (by omega)
  · exact put_of_lt (by omega)

/-- A word of a structure after a word of it is written. -/
def wordAfter (m : Mem) (p o x a : ℕ) : ℕ := if a = o then x % 2 ^ 32 else le 4 m (p + a)

/-- **A word of a structure is written**: the field is read back, and the others are as they were. -/
theorem dinodeAt_put (m : Mem) (p : ℕ) {o : ℕ} (ho : o % 4 = 0) (hmode : o ≠ 0) (hnlink : o ≠ 24) (x : ℕ) :
    dinodeAt (put 4 m (p + o) x) p =
      { e2di_mode := le 2 m p
        e2di_size := wordAfter m p o x 4
        e2di_size_high := wordAfter m p o x 108
        e2di_dtime := wordAfter m p o x 20
        e2di_nlink := le 2 m (p + 26)
        e2di_nblock := wordAfter m p o x 28
        direct := (List.range 12).map fun k => wordAfter m p o x (40 + 4 * k)
        indirect := (List.range 3).map fun k => wordAfter m p o x (88 + 4 * k) } := by
  have hother : ∀ n a, a + n ≤ o ∨ o + 4 ≤ a → le n (put 4 m (p + o) x) (p + a) = le n m (p + a) := by
    rintro n a (h | h)
    · exact le_put_below (by omega)
    · exact le_put_above (by omega)
  have hword : ∀ a, a % 4 = 0 → le 4 (put 4 m (p + o) x) (p + a) = wordAfter m p o x a := by
    intro a ha
    unfold wordAfter
    split
    next heq =>
      rw [heq]
      exact le_put 4 m (p + o) x
    next hne => exact hother 4 a (by omega)
  have hrun : ∀ n a, a % 4 = 0 → ((List.range n).map fun k => le 4 (put 4 m (p + o) x) (p + a + 4 * k)) =
      (List.range n).map fun k => wordAfter m p o x (a + 4 * k) := by
    intro n a ha
    refine List.map_congr_left fun k _ => ?_
    rw [Nat.add_assoc]
    exact hword _ (by omega)
  have hfirst : le 2 (put 4 m (p + o) x) p = le 2 m p := hother 2 0 (by omega)
  unfold dinodeAt
  rw [hfirst, hword 4 rfl, hword 108 rfl, hword 20 rfl, hother 2 26 (by omega), hword 28 rfl, hrun 12 40 rfl,
    hrun 3 88 rfl]

/-- The size is read back. -/
theorem dinodeAt_setSize (m : Mem) (p size : ℕ) :
    dinodeAt (setSize m p size) p = { dinodeAt m p with e2di_size := size % 2 ^ 32 } := by
  rw [setSize, dinodeAt_put m p rfl (by decide) (by decide) size]
  rfl

/-- The count of sectors is read back. -/
theorem dinodeAt_setNblock (m : Mem) (p n : ℕ) :
    dinodeAt (setNblock m p n) p = { dinodeAt m p with e2di_nblock := n % 2 ^ 32 } := by
  rw [setNblock, dinodeAt_put m p rfl (by decide) (by decide) n]
  rfl

/-- A direct pointer is read back. -/
theorem dinodeAt_setBlock (m : Mem) (p : ℕ) {k : ℕ} (hk : k < 12) (b : ℕ) :
    dinodeAt (setBlock m p k b) p =
      { dinodeAt m p with direct := (dinodeAt m p).direct.set k (b % 2 ^ 32) } := by
  have hafter : ∀ a, a < 40 ∨ 88 ≤ a → wordAfter m p (40 + 4 * k) b a = le 4 m (p + a) :=
    fun a ha => if_neg (by omega)
  have hdirect : ((List.range 12).map fun j => wordAfter m p (40 + 4 * k) b (40 + 4 * j)) =
      ((List.range 12).map fun j => le 4 m (p + 40 + 4 * j)).set k (b % 2 ^ 32) := by
    refine List.ext_getElem (by simp) fun j _ _ => ?_
    rw [List.getElem_map, List.getElem_range, List.getElem_set, List.getElem_map, List.getElem_range]
    unfold wordAfter
    rw [Nat.add_assoc]
    exact if_congr (by omega) rfl rfl
  have hindirect : ((List.range 3).map fun j => wordAfter m p (40 + 4 * k) b (88 + 4 * j)) =
      (List.range 3).map fun j => le 4 m (p + 88 + 4 * j) := by
    refine List.map_congr_left fun j _ => ?_
    rw [hafter _ (by omega), Nat.add_assoc]
  rw [setBlock, Nat.add_assoc, dinodeAt_put m p (by omega) (by omega) (by omega) b, hdirect, hindirect,
    hafter 4 (by omega), hafter 108 (by omega), hafter 20 (by omega), hafter 28 (by omega)]
  rfl

end Ext2fs.Fsck
