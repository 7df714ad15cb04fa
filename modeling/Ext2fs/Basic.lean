import Mathlib

/-!
# Volumes, units and machine integers

The parts of `fs.h`, `inode.h` and `compute_sb_data` that every later file reads: the constants,
the error numbers, the in-core superblock with what the mount checked about it, and the macros that
change units.

Block numbers, byte counts and block contents are natural numbers; signed quantities (`daddr64_t`,
`off_t`, `e2fs_lbn_t`) are integers.  The places where the C narrows a value are written out:
`u32` and `i32` are the conversions to `uint32_t` and `int32_t`.
-/

namespace Ext2fs

/-- The error numbers the modelled functions return. -/
inductive Errno where
  | eperm | enoent | eio | enomem | eexist | enotdir | eisdir | einval | efbig | enospc | erofs | emlink
  | enotempty | estale
  deriving DecidableEq, Repr

/-- Direct addresses in an inode. -/
def NDADDR : ℕ := 12

/-- Indirect addresses in an inode. -/
def NIADDR : ℕ := 3

/-- Bits in a byte. -/
def NBBY : ℕ := 8

/-- `btodb`: bytes to 512-byte device blocks. -/
def btodb (bytes : ℕ) : ℕ := bytes / 512

/-- The conversion to `uint32_t`. -/
def u32 (x : ℤ) : ℕ := (x % 2 ^ 32).toNat

/-- The conversion to `int32_t`. -/
def i32 (x : ℤ) : ℤ := if x % 2 ^ 32 < 2 ^ 31 then x % 2 ^ 32 else x % 2 ^ 32 - 2 ^ 32

/-- The conversion to `int64_t`. -/
def i64 (x : ℤ) : ℤ := if x % 2 ^ 64 < 2 ^ 63 then x % 2 ^ 64 else x % 2 ^ 64 - 2 ^ 64

theorem i64_of_lt {x : ℤ} (h₀ : -2 ^ 63 ≤ x) (h : x < 2 ^ 63) : i64 x = x := by
  unfold i64
  split <;> omega

theorem u32_of_lt {x : ℕ} (h : x < 2 ^ 32) : u32 x = x := by
  unfold u32
  omega

theorem u32_lt (x : ℤ) : u32 x < 2 ^ 32 := by
  unfold u32
  omega

theorem i32_ge (x : ℤ) : -2 ^ 31 ≤ i32 x := by
  unfold i32
  split <;> omega

theorem i32_lt (x : ℤ) : i32 x < 2 ^ 31 := by
  unfold i32
  split <;> omega

theorem i32_of_lt {x : ℤ} (h₀ : -2 ^ 31 ≤ x) (h : x < 2 ^ 31) : i32 x = x := by
  unfold i32
  split <;> omega

theorem i32_neg {x : ℕ} (h₀ : 2 ^ 31 ≤ x) (h : x < 2 ^ 32) : i32 x = (x : ℤ) - 2 ^ 32 := by
  unfold i32
  split <;> omega

/-! ### The mounted volume -/

/-- The in-core superblock, `struct m_ext2fs` over `struct ext2fs`, with the values that stay fixed
while the volume is mounted.  `logBsize_le` and `bpg_pos` are tests of `ext2_check_sb_compat`.  No test
compares `e2fs_fsize` with the block size. -/
structure MExt2fs where
  /-- `e2fs_log_bsize` -/
  logBsize : ℕ
  /-- `e2fs_fsize`, from `e2fs_log_fsize`; the value given here is that of a volume without fragments -/
  fsize : ℕ := 2 ^ (10 + logBsize)
  /-- `e2fs_bcount` -/
  bcount : ℕ
  /-- `e2fs_rbcount`, the blocks reserved for the super-user -/
  rbcount : ℕ
  /-- `e2fs_first_dblock` -/
  firstDblock : ℕ
  /-- `e2fs_bpg` -/
  bpg : ℕ
  /-- `e2fs_fpg` -/
  fpg : ℕ
  /-- `e2fs_ipg` -/
  ipg : ℕ
  /-- `e2fs_ronly` -/
  ronly : Bool
  /-- Not revision 0, and `EXT2F_ROCOMPAT_LARGEFILE` is set. -/
  largefile : Bool
  /-- `EXT2F_ROCOMPAT_HUGE_FILE` -/
  hugeFile : Bool
  logBsize_le : logBsize ≤ 2
  bcount_lt : bcount < 2 ^ 32
  bpg_pos : 0 < bpg

namespace MExt2fs

variable (fs : MExt2fs)

/-- `e2fs_bshift` -/
def bshift : ℕ := 10 + fs.logBsize

/-- `e2fs_bsize` -/
def bsize : ℕ := 2 ^ fs.bshift

/-- `e2fs_fsbtodb`, and `um_bptrtodb` with it: the shift from file system to device blocks. -/
def bptrtodb : ℕ := fs.logBsize + 1

/-- `fsbtodb`: a file system block as a device block.  The operand is widened to 64 bits first. -/
def fsbtodb (b : ℤ) : ℤ := b * 2 ^ fs.bptrtodb

/-- `NINDIR`: block pointers in one block. -/
def nindir : ℕ := fs.bsize / 4

/-- `blkoff`: the offset of a byte in its block. -/
def blkoff (loc : ℕ) : ℕ := loc % fs.bsize

/-- `lblkno`: the logical block of a byte. -/
def lblkno (loc : ℕ) : ℕ := loc / fs.bsize

/-- `fragroundup`: a size rounded up to whole fragments. -/
def fragroundup (size : ℕ) : ℕ := (size + (fs.fsize - 1)) / fs.fsize * fs.fsize

/-- `e2fs_maxfilesize`: what the block pointer tree can address or the block count can hold,
whichever is smaller. -/
def maxfilesize : ℕ :=
  if fs.largefile then
    let b := fs.bsize / 4
    let physically := (if fs.hugeFile then 2 ^ 48 - 1 else 2 ^ 32 - 1) * 512
    let logically := (12 + b + b * b + b * b * b) * fs.bsize
    min logically physically
  else 0x7fffffff

/-- The number of blocks a file of `size` bytes covers. -/
def coveredBlocks (size : ℕ) : ℕ := fs.lblkno (size + fs.bsize - 1)

theorem bsize_cases : fs.bsize = 1024 ∨ fs.bsize = 2048 ∨ fs.bsize = 4096 := by
  have h := fs.logBsize_le
  unfold bsize bshift
  interval_cases fs.logBsize <;> simp

theorem bsize_pos : 0 < fs.bsize := by
  rcases fs.bsize_cases with h | h | h <;> omega

theorem nindir_cases : fs.nindir = 256 ∨ fs.nindir = 512 ∨ fs.nindir = 1024 := by
  unfold nindir
  rcases fs.bsize_cases with h | h | h <;> simp [h]

theorem nindir_pos : 0 < fs.nindir := by
  rcases fs.nindir_cases with h | h | h <;> omega

theorem nindir_lt : fs.nindir < 2 ^ 21 := by
  rcases fs.nindir_cases with h | h | h <;> omega

/-- No file size the driver accepts outgrows the block pointer tree. -/
theorem maxfilesize_le :
    fs.maxfilesize ≤ (12 + fs.nindir + fs.nindir ^ 2 + fs.nindir ^ 3) * fs.bsize := by
  unfold maxfilesize nindir
  split
  · refine (Nat.min_le_left _ _).trans (le_of_eq ?_)
    ring
  · rcases fs.bsize_cases with h | h | h <;> rw [h] <;> norm_num

theorem fsbtodb_injective : Function.Injective fs.fsbtodb := by
  intro a b h
  unfold fsbtodb at h
  exact mul_right_cancel₀ (by positivity) h

@[simp] theorem fsbtodb_inj {a b : ℤ} : fs.fsbtodb a = fs.fsbtodb b ↔ a = b :=
  fs.fsbtodb_injective.eq_iff

@[simp] theorem fsbtodb_eq_zero {b : ℤ} : fs.fsbtodb b = 0 ↔ b = 0 := by
  simp [fsbtodb]

/-- A device address is even, so no block is at `-1`, the mark of a hole. -/
theorem fsbtodb_ne_neg_one (b : ℤ) : fs.fsbtodb b ≠ -1 := by
  unfold fsbtodb bptrtodb
  rw [pow_succ, ← mul_assoc]
  omega

theorem fsbtodb_neg {b : ℤ} (h : b < 0) : fs.fsbtodb b < 0 := by
  unfold fsbtodb
  exact mul_neg_of_neg_of_pos h (by positivity)

/-- The smallest blocks are of 1 KiB. -/
theorem logBsize_1k : 0 ≤ 2 := by decide

end MExt2fs

/-- A volume with 4 KiB blocks and the largest block count. -/
def volume4k : MExt2fs where
  logBsize := 2
  bcount := 2 ^ 32 - 1
  rbcount := 0
  firstDblock := 0
  bpg := 32768
  fpg := 32768
  ipg := 8192
  ronly := false
  largefile := true
  hugeFile := false
  logBsize_le := by decide
  bcount_lt := by decide
  bpg_pos := by decide

end Ext2fs
