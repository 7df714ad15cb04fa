import Ext2fs.Basic

/-!
# `ext2_inode_cnv.c`: the inode on disk and the inode in core

`ext2_ei2i` reads an on-disk inode into a fresh in-core one and `ext2_i2ei` writes it back.  Both
records carry the fields of the source at the widths of the source, as bit vectors; the on-disk
record has every field of `struct ext2fs_dinode`, those the driver never touches included, since
what happens to them is what a write back must be judged by.

* **`ei2i_i2ei_iff`** — what is written and read back is the same inode exactly when the owner and
  the group fit in sixteen bits: the upper halves `e2di_uid_high` and `e2di_gid_high` are never
  written.
* **`i2ei_ei2i_iff`** — what is read and written back is the same image exactly when nothing is
  set that the in-core inode has no place for.
-/

namespace Ext2fs

/-! ### The two records -/

/-- `struct ext2fs_dinode`: an inode on disk. -/
@[ext]
structure Ext2fsDinode where
  e2di_mode : BitVec 16
  e2di_uid : BitVec 16
  e2di_size : BitVec 32
  e2di_atime : BitVec 32
  e2di_ctime : BitVec 32
  e2di_mtime : BitVec 32
  e2di_dtime : BitVec 32
  e2di_gid : BitVec 16
  e2di_nlink : BitVec 16
  e2di_nblock : BitVec 32
  e2di_flags : BitVec 32
  e2di_version : BitVec 32
  e2di_blocks : Fin 15 → BitVec 32
  e2di_gen : BitVec 32
  e2di_facl : BitVec 32
  e2di_size_high : BitVec 32
  e2di_faddr : BitVec 32
  e2di_nblock_high : BitVec 16
  e2di_facl_high : BitVec 16
  e2di_uid_high : BitVec 16
  e2di_gid_high : BitVec 16
  e2di_chksum_lo : BitVec 16
  e2di_lx_reserved : BitVec 16
  e2di_extra_isize : BitVec 16
  e2di_chksum_hi : BitVec 16
  e2di_ctime_extra : BitVec 32
  e2di_mtime_extra : BitVec 32
  e2di_atime_extra : BitVec 32
  e2di_crtime : BitVec 32
  e2di_crtime_extra : BitVec 32
  e2di_version_hi : BitVec 32
  deriving DecidableEq

/-- The fields of `struct inode` that come from the on-disk inode.  Signed fields are kept as their
bits. -/
structure CoreInode where
  i_flag : BitVec 32
  i_mode : BitVec 16
  i_nlink : BitVec 16
  i_uid : BitVec 32
  i_gid : BitVec 32
  i_size : BitVec 64
  i_blocks : BitVec 64
  i_atime : BitVec 32
  i_mtime : BitVec 32
  i_ctime : BitVec 32
  i_birthtime : BitVec 32
  i_mtimensec : BitVec 32
  i_atimensec : BitVec 32
  i_ctimensec : BitVec 32
  i_birthnsec : BitVec 32
  i_gen : BitVec 32
  i_flags : BitVec 32
  i_db : Fin 12 → BitVec 32
  i_ib : Fin 3 → BitVec 32
  deriving DecidableEq

/-- The in-core inode `ext2_vget_typed` allocates with `M_ZERO`. -/
def CoreInode.zero : CoreInode where
  i_flag := 0
  i_mode := 0
  i_nlink := 0
  i_uid := 0
  i_gid := 0
  i_size := 0
  i_blocks := 0
  i_atime := 0
  i_mtime := 0
  i_ctime := 0
  i_birthtime := 0
  i_mtimensec := 0
  i_atimensec := 0
  i_ctimensec := 0
  i_birthnsec := 0
  i_gen := 0
  i_flags := 0
  i_db := fun _ => 0
  i_ib := fun _ => 0

/-! ### Flags and macros -/

/-- Immutable file, on disk. -/
def EXT2_IMMUTABLE : BitVec 32 := 0x00000010
/-- Writes to the file may only append, on disk. -/
def EXT2_APPEND : BitVec 32 := 0x00000020
/-- Do not dump the file, on disk. -/
def EXT2_NODUMP : BitVec 32 := 0x00000040
/-- Hash-indexed directory. -/
def EXT4_INDEX : BitVec 32 := 0x00001000
/-- The block count is in file system blocks. -/
def EXT4_HUGE_FILE : BitVec 32 := 0x00040000
/-- The inode uses extents. -/
def EXT4_EXTENTS : BitVec 32 := 0x00080000

/-- The `i_flags` bit for an immutable file. -/
def SF_IMMUTABLE : BitVec 32 := 0x00020000
/-- The `i_flags` bit for an append-only file. -/
def SF_APPEND : BitVec 32 := 0x00040000
/-- The `i_flags` bit for a file that is not dumped. -/
def UF_NODUMP : BitVec 32 := 0x00000001

/-- The `i_flag` bit that stands for `EXT4_INDEX`. -/
def IN_E4INDEX : BitVec 32 := 0x010000
/-- The `i_flag` bit that stands for `EXT4_EXTENTS`. -/
def IN_E4EXTENTS : BitVec 32 := 0x020000

/-- The low 32 bits of `EXT3_NSEC_MASK`: all but the two epoch bits. -/
def EXT3_NSEC_MASK : BitVec 32 := 0xfffffffc

/-- The nanoseconds in an extra time field. -/
def XTIME_TO_NSEC (x : BitVec 32) : BitVec 32 := (x &&& EXT3_NSEC_MASK) >>> 2

/-- The extra time field that holds `t` nanoseconds. -/
def NSEC_TO_XTIME (t : BitVec 32) : BitVec 32 := t <<< 2 &&& EXT3_NSEC_MASK

/-- `S_ISREG` -/
def S_ISREG (mode : BitVec 16) : Bool := mode &&& 0xf000 == 0x8000

/-! ### The conversions -/

section Conversion

variable (fs : MExt2fs) (hasXtime : Bool)

/-- `ext2_ei2i`: raw ext2 inode to inode.  `hasXtime` is `E2DI_HAS_XTIME`, the volume's
`EXT2F_ROCOMPAT_EXTRA_ISIZE`. -/
def ext2Ei2i (ei : Ext2fsDinode) (ip : CoreInode) : CoreInode :=
  let mode := if ei.e2di_nlink ≠ 0 then ei.e2di_mode else 0
  let blocks : BitVec 64 := ei.e2di_nblock.setWidth 64
  { i_nlink := ei.e2di_nlink
    i_mode := mode
    i_size :=
      if S_ISREG mode then
        ei.e2di_size.setWidth 64 ||| ei.e2di_size_high.setWidth 64 <<< 32
      else ei.e2di_size.setWidth 64
    i_atime := ei.e2di_atime
    i_mtime := ei.e2di_mtime
    i_ctime := ei.e2di_ctime
    i_atimensec := if hasXtime then XTIME_TO_NSEC ei.e2di_atime_extra else ip.i_atimensec
    i_mtimensec := if hasXtime then XTIME_TO_NSEC ei.e2di_mtime_extra else ip.i_mtimensec
    i_ctimensec := if hasXtime then XTIME_TO_NSEC ei.e2di_ctime_extra else ip.i_ctimensec
    i_birthtime := if hasXtime then ei.e2di_crtime else ip.i_birthtime
    i_birthnsec := if hasXtime then XTIME_TO_NSEC ei.e2di_crtime_extra else ip.i_birthnsec
    i_flags :=
      (if ei.e2di_flags &&& EXT2_APPEND ≠ 0 then SF_APPEND else 0) |||
      (if ei.e2di_flags &&& EXT2_IMMUTABLE ≠ 0 then SF_IMMUTABLE else 0) |||
      (if ei.e2di_flags &&& EXT2_NODUMP ≠ 0 then UF_NODUMP else 0)
    i_flag :=
      ip.i_flag |||
      (if ei.e2di_flags &&& EXT4_INDEX ≠ 0 then IN_E4INDEX else 0) |||
      (if ei.e2di_flags &&& EXT4_EXTENTS ≠ 0 then IN_E4EXTENTS else 0)
    i_blocks :=
      if fs.hugeFile then
        let huge := blocks ||| ei.e2di_nblock_high.setWidth 64 <<< 32
        if ei.e2di_flags &&& EXT4_HUGE_FILE ≠ 0 then huge <<< fs.bptrtodb else huge
      else blocks
    i_gen := ei.e2di_gen
    i_uid := ei.e2di_uid.setWidth 32
    i_gid := ei.e2di_gid.setWidth 32
    i_db := fun i => ei.e2di_blocks (i.castLE (by decide))
    i_ib := fun i => ei.e2di_blocks (i.natAdd 12) }

/-- `ext2_i2ei`: inode to raw ext2 inode.  The image written to is the one in the inode table
block, so what is not assigned keeps its old value. -/
def ext2I2ei (ip : CoreInode) (ei : Ext2fsDinode) : Ext2fsDinode :=
  { ei with
    e2di_mode := ip.i_mode
    e2di_nlink := ip.i_nlink
    e2di_dtime := if ip.i_nlink ≠ 0 then 0 else ip.i_mtime
    e2di_size := ip.i_size.setWidth 32
    e2di_size_high :=
      if S_ISREG ip.i_mode then (ip.i_size >>> 32).setWidth 32 else ei.e2di_size_high
    e2di_atime := ip.i_atime
    e2di_mtime := ip.i_mtime
    e2di_ctime := ip.i_ctime
    e2di_ctime_extra := if hasXtime then NSEC_TO_XTIME ip.i_ctimensec else ei.e2di_ctime_extra
    e2di_mtime_extra := if hasXtime then NSEC_TO_XTIME ip.i_mtimensec else ei.e2di_mtime_extra
    e2di_atime_extra := if hasXtime then NSEC_TO_XTIME ip.i_atimensec else ei.e2di_atime_extra
    e2di_crtime := if hasXtime then ip.i_birthtime else ei.e2di_crtime
    e2di_crtime_extra := if hasXtime then NSEC_TO_XTIME ip.i_birthnsec else ei.e2di_crtime_extra
    e2di_flags :=
      (if ip.i_flags &&& SF_APPEND ≠ 0 then EXT2_APPEND else 0) |||
      (if ip.i_flags &&& SF_IMMUTABLE ≠ 0 then EXT2_IMMUTABLE else 0) |||
      (if ip.i_flags &&& UF_NODUMP ≠ 0 then EXT2_NODUMP else 0) |||
      (if ip.i_flag &&& IN_E4INDEX ≠ 0 then EXT4_INDEX else 0) |||
      (if ip.i_flag &&& IN_E4EXTENTS ≠ 0 then EXT4_EXTENTS else 0)
    e2di_nblock := ip.i_blocks.setWidth 32
    e2di_nblock_high := (ip.i_blocks >>> 32).setWidth 16
    e2di_gen := ip.i_gen
    e2di_uid := ip.i_uid.setWidth 16
    e2di_gid := ip.i_gid.setWidth 16
    e2di_blocks := fun i => if h : i.val < 12 then ip.i_db ⟨i, h⟩ else ip.i_ib ⟨i - 12, by omega⟩ }

end Conversion

/-! ### Halves of words and single bits -/

section Words

/-- The lower half of a joined word. -/
theorem low_join (a : BitVec 32) (b : BitVec 64) :
    (a.setWidth 64 ||| b <<< 32).setWidth 32 = a := by
  ext i hi
  simp

/-- The upper half of a joined word. -/
theorem high_join {w : ℕ} (hw : w ≤ 32) (a : BitVec 32) (b : BitVec w) :
    ((a.setWidth 64 ||| b.setWidth 64 <<< 32) >>> 32).setWidth w = b := by
  ext i hi
  simp [hi, show 32 + i < 64 by omega]

theorem low_of_narrow (a : BitVec 32) : (a.setWidth 64).setWidth 32 = a := by
  ext i hi
  simp

/-- A word is its halves joined. -/
theorem join_halves (x : BitVec 64) :
    (x.setWidth 32).setWidth 64 ||| ((x >>> 32).setWidth 32).setWidth 64 <<< 32 = x := by
  ext i hi
  by_cases h : i < 32
  · simp [h, BitVec.getLsbD_eq_getElem hi]
  · simp [h, show 32 + (i - 32) = i by omega, show i - 32 < 32 by omega,
      BitVec.getLsbD_eq_getElem hi]

/-- A value that fits survives the narrowing. -/
theorem setWidth_setWidth_of_lt {v w : ℕ} {x : BitVec v} (h : x.toNat < 2 ^ w) :
    (x.setWidth w).setWidth v = x := by
  apply BitVec.eq_of_toNat_eq
  simp only [BitVec.toNat_setWidth]
  rw [Nat.mod_eq_of_lt h, Nat.mod_eq_of_lt x.isLt]

/-- A value that survives the narrowing fits. -/
theorem setWidth_setWidth_iff {v w : ℕ} {x : BitVec v} :
    (x.setWidth w).setWidth v = x ↔ x.toNat < 2 ^ w := by
  constructor
  · intro h
    have h' := congrArg BitVec.toNat h
    simp only [BitVec.toNat_setWidth] at h'
    have hlt : x.toNat % 2 ^ w % 2 ^ v ≤ x.toNat % 2 ^ w := Nat.mod_le _ _
    have hmod := Nat.mod_lt x.toNat (Nat.two_pow_pos w)
    omega
  · exact setWidth_setWidth_of_lt

/-- Moving one bit of a word through a condition gives that bit of the word. -/
theorem keep_bit (x : BitVec 32) (k : ℕ) :
    (if x &&& BitVec.twoPow 32 k ≠ 0 then BitVec.twoPow 32 k else 0) =
      x &&& BitVec.twoPow 32 k := by
  rw [BitVec.and_twoPow]
  split <;> simp_all

/-- A word survives a mask when nothing is set outside it. -/
theorem and_mask_eq_iff (x m : BitVec 32) : x &&& m = x ↔ x &&& ~~~m = 0 := by
  constructor
  · intro h
    rw [← h, BitVec.and_assoc]
    simp
  · intro h
    ext i hi
    have hbit := congrArg (fun y : BitVec 32 => y[i]) h
    simp at hbit ⊢
    exact hbit

/-- The nanosecond mask is every bit but the two epoch bits. -/
theorem nsecMask_bit {i : ℕ} (hi : i < 32) : EXT3_NSEC_MASK[i] = decide (2 ≤ i) := by
  have h : ∀ i (hi : i < 32), EXT3_NSEC_MASK[i] = decide (2 ≤ i) := by decide
  exact h i hi

/-- An extra time field comes back without its epoch bits. -/
theorem xtime_nsec_xtime (x : BitVec 32) :
    NSEC_TO_XTIME (XTIME_TO_NSEC x) = x &&& EXT3_NSEC_MASK := by
  unfold NSEC_TO_XTIME XTIME_TO_NSEC
  ext i hi
  have hm := nsecMask_bit hi
  by_cases hlt : i < 2
  · simp [hm, hlt]
  · simp [hm, hlt, show 2 + (i - 2) = i by omega, BitVec.getLsbD_eq_getElem hi]

/-- Nanoseconds fit in the thirty bits an extra time field has for them. -/
theorem nsec_xtime_nsec {t : BitVec 32} (ht : t.toNat < 10 ^ 9) :
    XTIME_TO_NSEC (NSEC_TO_XTIME t) = t := by
  unfold NSEC_TO_XTIME XTIME_TO_NSEC
  ext i hi
  by_cases hlt : 2 + i < 32
  · simp [nsecMask_bit hlt, hlt]
    omega
  · have htop : t[i] = false := by
      rw [← BitVec.getLsbD_eq_getElem hi]
      apply Nat.testBit_lt_two_pow
      calc t.toNat < 2 ^ 30 := by omega
        _ ≤ 2 ^ i := Nat.pow_le_pow_right (by decide) (by omega)
    simp [hlt, htop]

/-- The three bits of `i_flags`, each read back from the word they make up. -/
theorem coreWord_bits (p q r : Prop) [Decidable p] [Decidable q] [Decidable r] :
    let w := (if p then SF_APPEND else 0) ||| (if q then SF_IMMUTABLE else 0) |||
      (if r then UF_NODUMP else 0)
    (w &&& SF_APPEND ≠ 0 ↔ p) ∧ (w &&& SF_IMMUTABLE ≠ 0 ↔ q) ∧ (w &&& UF_NODUMP ≠ 0 ↔ r) := by
  by_cases hp : p <;> by_cases hq : q <;> by_cases hr : r <;> simp only [hp, hq, hr] <;> decide

/-- The two translated bits of `i_flag`, each read back from the word they make up. -/
theorem flagWord_bits (p q : Prop) [Decidable p] [Decidable q] :
    let w := (0 : BitVec 32) ||| (if p then IN_E4INDEX else 0) ||| (if q then IN_E4EXTENTS else 0)
    (w &&& IN_E4INDEX ≠ 0 ↔ p) ∧ (w &&& IN_E4EXTENTS ≠ 0 ↔ q) := by
  by_cases hp : p <;> by_cases hq : q <;> simp only [hp, hq] <;> decide

/-- The five bits of `e2di_flags`, each read back from the word they make up, which has no
`EXT4_HUGE_FILE`. -/
theorem diskWord_bits (p q r s t : Prop) [Decidable p] [Decidable q] [Decidable r] [Decidable s]
    [Decidable t] :
    let w := (if p then EXT2_APPEND else 0) ||| (if q then EXT2_IMMUTABLE else 0) |||
      (if r then EXT2_NODUMP else 0) ||| (if s then EXT4_INDEX else 0) |||
      (if t then EXT4_EXTENTS else 0)
    (w &&& EXT2_APPEND ≠ 0 ↔ p) ∧ (w &&& EXT2_IMMUTABLE ≠ 0 ↔ q) ∧
      (w &&& EXT2_NODUMP ≠ 0 ↔ r) ∧ (w &&& EXT4_INDEX ≠ 0 ↔ s) ∧
      (w &&& EXT4_EXTENTS ≠ 0 ↔ t) ∧ w &&& EXT4_HUGE_FILE = 0 := by
  by_cases hp : p <;> by_cases hq : q <;> by_cases hr : r <;> by_cases hs : s <;>
    by_cases ht : t <;> simp only [hp, hq, hr, hs, ht] <;> decide

end Words

/-! ### Reading, then writing -/

/-- The flags of an on-disk inode that the in-core inode has a place for. -/
def KEPT_FLAGS : BitVec 32 :=
  EXT2_APPEND ||| EXT2_IMMUTABLE ||| EXT2_NODUMP ||| EXT4_INDEX ||| EXT4_EXTENTS

/-- The image left when `ei` is read into a fresh inode and written back over itself. -/
def rewritten (fs : MExt2fs) (hasXtime : Bool) (ei : Ext2fsDinode) : Ext2fsDinode :=
  ext2I2ei hasXtime (ext2Ei2i fs hasXtime ei CoreInode.zero) ei

section Rewritten

variable {fs : MExt2fs} {hasXtime : Bool} {ei : Ext2fsDinode}

/-- The five flags the in-core inode keeps are written back, no other. -/
theorem rewritten_flags : (rewritten fs hasXtime ei).e2di_flags = ei.e2di_flags &&& KEPT_FLAGS := by
  have hkeep (b : BitVec 32) (k : ℕ) (hb : b = BitVec.twoPow 32 k) :
      (if ei.e2di_flags &&& b ≠ 0 then b else 0) = ei.e2di_flags &&& b := by
    subst hb
    exact keep_bit _ _
  obtain ⟨happend, himmutable, hnodump⟩ := coreWord_bits (ei.e2di_flags &&& EXT2_APPEND ≠ 0)
    (ei.e2di_flags &&& EXT2_IMMUTABLE ≠ 0) (ei.e2di_flags &&& EXT2_NODUMP ≠ 0)
  obtain ⟨hindex, hextents⟩ := flagWord_bits (ei.e2di_flags &&& EXT4_INDEX ≠ 0)
    (ei.e2di_flags &&& EXT4_EXTENTS ≠ 0)
  simp only [rewritten, ext2I2ei, ext2Ei2i, CoreInode.zero, happend, himmutable, hnodump, hindex,
    hextents]
  rw [hkeep EXT2_APPEND 5 (by decide), hkeep EXT2_IMMUTABLE 4 (by decide),
    hkeep EXT2_NODUMP 6 (by decide), hkeep EXT4_INDEX 12 (by decide),
    hkeep EXT4_EXTENTS 19 (by decide)]
  simp only [KEPT_FLAGS, BitVec.and_or_distrib_left]

/-- The upper half of the block count is written back where the volume uses it. -/
theorem rewritten_nblock_high (hflag : ei.e2di_flags &&& EXT4_HUGE_FILE = 0) :
    (rewritten fs hasXtime ei).e2di_nblock_high =
      if fs.hugeFile then ei.e2di_nblock_high else 0 := by
  simp only [rewritten, ext2I2ei, ext2Ei2i, hflag, ne_eq, not_true, if_false]
  cases fs.hugeFile
  · ext i hi
    simp
  · exact high_join (by decide) _ _

/-- The lower half of the block count is written back. -/
theorem rewritten_nblock (hflag : ei.e2di_flags &&& EXT4_HUGE_FILE = 0) :
    (rewritten fs hasXtime ei).e2di_nblock = ei.e2di_nblock := by
  simp only [rewritten, ext2I2ei, ext2Ei2i, hflag, ne_eq, not_true, if_false]
  cases fs.hugeFile
  · exact low_of_narrow _
  · exact low_join _ _

/-- The lower half of the size is written back. -/
theorem rewritten_size : (rewritten fs hasXtime ei).e2di_size = ei.e2di_size := by
  simp only [rewritten, ext2I2ei, ext2Ei2i]
  generalize S_ISREG _ = reg
  cases reg
  · exact low_of_narrow _
  · exact low_join _ _

/-- The upper half of the size is written back, or left alone. -/
theorem rewritten_size_high : (rewritten fs hasXtime ei).e2di_size_high = ei.e2di_size_high := by
  simp only [rewritten, ext2I2ei, ext2Ei2i]
  generalize S_ISREG _ = reg
  cases reg
  · rfl
  · exact high_join (w := 32) (by decide) _ _

/-- The block pointers are written back. -/
theorem rewritten_blocks : (rewritten fs hasXtime ei).e2di_blocks = ei.e2di_blocks := by
  funext i
  simp only [rewritten, ext2I2ei, ext2Ei2i]
  split
  · rfl
  · congr 1
    ext
    simp only [Fin.val_natAdd]
    omega

/-- A sixteen-bit owner or group is written back. -/
theorem id_written_back (x : BitVec 16) : (x.setWidth 32).setWidth 16 = x := by
  ext i hi
  simp

/-- With extra time fields on the volume, such a field is written back exactly when its epoch bits
are clear. -/
theorem xtime_written_back_iff (x : BitVec 32) :
    (if hasXtime then NSEC_TO_XTIME (XTIME_TO_NSEC x) else x) = x ↔
      (hasXtime = true → x &&& ~~~EXT3_NSEC_MASK = 0) := by
  rw [xtime_nsec_xtime]
  cases hasXtime
  · simp
  · simp only [if_true, true_imp_iff]
    exact and_mask_eq_iff x EXT3_NSEC_MASK

/-- What an on-disk inode may hold for the driver to write it back as it was: only flags it keeps,
no deletion time, an upper half of the block count only where the volume uses it, and extra time
fields without epoch bits. -/
structure Ext2fsDinode.Kept (fs : MExt2fs) (hasXtime : Bool) (ei : Ext2fsDinode) : Prop where
  flags : ei.e2di_flags &&& ~~~KEPT_FLAGS = 0
  dtime : ei.e2di_dtime = 0
  nblock_high : fs.hugeFile = true ∨ ei.e2di_nblock_high = 0
  ctime_extra : hasXtime = true → ei.e2di_ctime_extra &&& ~~~EXT3_NSEC_MASK = 0
  mtime_extra : hasXtime = true → ei.e2di_mtime_extra &&& ~~~EXT3_NSEC_MASK = 0
  atime_extra : hasXtime = true → ei.e2di_atime_extra &&& ~~~EXT3_NSEC_MASK = 0
  crtime_extra : hasXtime = true → ei.e2di_crtime_extra &&& ~~~EXT3_NSEC_MASK = 0

/-- Only flags the driver keeps means no block count in file system blocks. -/
theorem not_huge_of_kept (h : ei.e2di_flags &&& ~~~KEPT_FLAGS = 0) :
    ei.e2di_flags &&& EXT4_HUGE_FILE = 0 := by
  have hsub : EXT4_HUGE_FILE = ~~~KEPT_FLAGS &&& EXT4_HUGE_FILE := by decide
  rw [hsub, ← BitVec.and_assoc, h]
  decide

/-- What a read and a write back leave: the image with the parts the driver does not keep gone. -/
theorem rewritten_eq (hnlink : ei.e2di_nlink ≠ 0) (hflag : ei.e2di_flags &&& EXT4_HUGE_FILE = 0) :
    rewritten fs hasXtime ei = { ei with
      e2di_flags := ei.e2di_flags &&& KEPT_FLAGS
      e2di_dtime := 0
      e2di_nblock_high := if fs.hugeFile then ei.e2di_nblock_high else 0
      e2di_ctime_extra :=
        if hasXtime then NSEC_TO_XTIME (XTIME_TO_NSEC ei.e2di_ctime_extra) else ei.e2di_ctime_extra
      e2di_mtime_extra :=
        if hasXtime then NSEC_TO_XTIME (XTIME_TO_NSEC ei.e2di_mtime_extra) else ei.e2di_mtime_extra
      e2di_atime_extra :=
        if hasXtime then NSEC_TO_XTIME (XTIME_TO_NSEC ei.e2di_atime_extra) else ei.e2di_atime_extra
      e2di_crtime_extra :=
        if hasXtime then NSEC_TO_XTIME (XTIME_TO_NSEC ei.e2di_crtime_extra)
        else ei.e2di_crtime_extra } := by
  apply Ext2fsDinode.ext
  case e2di_flags => exact rewritten_flags
  case e2di_nblock_high => exact rewritten_nblock_high hflag
  case e2di_nblock => exact rewritten_nblock hflag
  case e2di_size => exact rewritten_size
  case e2di_size_high => exact rewritten_size_high
  case e2di_blocks => exact rewritten_blocks
  case e2di_mode => exact if_pos hnlink
  case e2di_dtime => exact if_pos hnlink
  case e2di_uid => exact id_written_back _
  case e2di_gid => exact id_written_back _
  all_goals cases hasXtime <;> simp [rewritten, ext2I2ei, ext2Ei2i]

/-- **Reading an inode in use and writing it back unchanged keeps its image** exactly when the
image is `Kept`. -/
theorem i2ei_ei2i_iff (hnlink : ei.e2di_nlink ≠ 0) :
    rewritten fs hasXtime ei = ei ↔ ei.Kept fs hasXtime := by
  constructor
  · intro h
    have hrewritten : (rewritten fs hasXtime ei).e2di_flags = ei.e2di_flags &&& KEPT_FLAGS :=
      rewritten_flags
    have hflags : ei.e2di_flags &&& ~~~KEPT_FLAGS = 0 := by
      rw [← and_mask_eq_iff, ← hrewritten, h]
    rw [rewritten_eq hnlink (not_huge_of_kept hflags), Ext2fsDinode.ext_iff] at h
    simp only [xtime_written_back_iff, true_and, and_true] at h
    obtain ⟨hdtime, -, hhigh, hctime, hmtime, hatime, hcrtime⟩ := h
    refine ⟨hflags, hdtime.symm, ?_, hctime, hmtime, hatime, hcrtime⟩
    cases hf : fs.hugeFile
    · rw [hf] at hhigh
      exact .inr hhigh.symm
    · exact .inl rfl
  · intro h
    rw [rewritten_eq hnlink (not_huge_of_kept h.flags), (xtime_written_back_iff _).2 h.ctime_extra,
      (xtime_written_back_iff _).2 h.mtime_extra, (xtime_written_back_iff _).2 h.atime_extra,
      (xtime_written_back_iff _).2 h.crtime_extra, (and_mask_eq_iff _ _).2 h.flags, ← h.dtime]
    have hhigh : (if fs.hugeFile then ei.e2di_nblock_high else 0) = ei.e2di_nblock_high := by
      obtain hf | hz := h.nblock_high
      · rw [if_pos hf]
      · rw [hz, ite_self]
    rw [hhigh]

/-- A regular file of five bytes in one block. -/
def plainDinode : Ext2fsDinode where
  e2di_mode := 0x81a4
  e2di_uid := 501
  e2di_size := 5
  e2di_atime := 1000
  e2di_ctime := 1000
  e2di_mtime := 1000
  e2di_dtime := 0
  e2di_gid := 20
  e2di_nlink := 1
  e2di_nblock := 8
  e2di_flags := EXT2_NODUMP
  e2di_version := 7
  e2di_blocks := fun i => if i = 0 then 5000 else 0
  e2di_gen := 9
  e2di_facl := 0
  e2di_size_high := 0
  e2di_faddr := 0
  e2di_nblock_high := 0
  e2di_facl_high := 0
  e2di_uid_high := 1
  e2di_gid_high := 0
  e2di_chksum_lo := 3
  e2di_lx_reserved := 0
  e2di_extra_isize := 28
  e2di_chksum_hi := 0
  e2di_ctime_extra := 4
  e2di_mtime_extra := 4
  e2di_atime_extra := 4
  e2di_crtime := 1000
  e2di_crtime_extra := 4
  e2di_version_hi := 0

/-- The plain file's image survives a read and a write back. -/
theorem rewritten_plain : rewritten volume4k true plainDinode = plainDinode :=
  (i2ei_ei2i_iff (by decide)).2
    ⟨by decide, by decide, by decide, by decide, by decide, by decide, by decide⟩

/-- The same file with `EXT2_NOATIME` set loses that flag when any attribute is written. -/
theorem rewritten_noatime :
    rewritten volume4k true { plainDinode with e2di_flags := 0x80 } ≠
      { plainDinode with e2di_flags := 0x80 } := by
  intro h
  exact absurd (congrArg Ext2fsDinode.e2di_flags h) (by decide)

end Rewritten

/-! ### Writing, then reading -/

/-- An in-core inode the driver can build: a positive link count, a size that fits the field it is
written to, only settable flags, a block count below `2 ^ 32`, and nanoseconds below a second
where the volume stores them. -/
structure BuiltInode (hasXtime : Bool) extends CoreInode where
  nlink_pos : 0 < i_nlink.toInt
  size_lt : S_ISREG i_mode = false → i_size.toNat < 2 ^ 32
  blocks_lt : i_blocks.toNat < 2 ^ 32
  flags_settable : i_flags &&& ~~~(SF_APPEND ||| SF_IMMUTABLE ||| UF_NODUMP) = 0
  mtimensec_lt : hasXtime = true → i_mtimensec.toNat < 10 ^ 9
  atimensec_lt : hasXtime = true → i_atimensec.toNat < 10 ^ 9
  ctimensec_lt : hasXtime = true → i_ctimensec.toNat < 10 ^ 9
  birthnsec_lt : hasXtime = true → i_birthnsec.toNat < 10 ^ 9

/-- The attributes of a file that two in-core inodes agree on: everything but the transient bits of
`i_flag`, and the nanoseconds and the creation time only where the volume stores them. -/
structure CoreInode.SameAttrs (hasXtime : Bool) (a b : CoreInode) : Prop where
  mode : a.i_mode = b.i_mode
  nlink : a.i_nlink = b.i_nlink
  uid : a.i_uid = b.i_uid
  gid : a.i_gid = b.i_gid
  size : a.i_size = b.i_size
  atime : a.i_atime = b.i_atime
  mtime : a.i_mtime = b.i_mtime
  ctime : a.i_ctime = b.i_ctime
  atimensec : hasXtime = true → a.i_atimensec = b.i_atimensec
  mtimensec : hasXtime = true → a.i_mtimensec = b.i_mtimensec
  ctimensec : hasXtime = true → a.i_ctimensec = b.i_ctimensec
  birthtime : hasXtime = true → a.i_birthtime = b.i_birthtime
  birthnsec : hasXtime = true → a.i_birthnsec = b.i_birthnsec
  gen : a.i_gen = b.i_gen
  flags : a.i_flags = b.i_flags
  index : a.i_flag &&& IN_E4INDEX ≠ 0 ↔ b.i_flag &&& IN_E4INDEX ≠ 0
  extents : a.i_flag &&& IN_E4EXTENTS ≠ 0 ↔ b.i_flag &&& IN_E4EXTENTS ≠ 0
  blocks : a.i_blocks = b.i_blocks
  db : a.i_db = b.i_db
  ib : a.i_ib = b.i_ib

/-- The inode read back, once `ip` has been written over the image `ei` and has left the cache. -/
def reread (fs : MExt2fs) (hasXtime : Bool) (ip : CoreInode) (ei : Ext2fsDinode) : CoreInode :=
  ext2Ei2i fs hasXtime (ext2I2ei hasXtime ip ei) CoreInode.zero

section Reread

variable {fs : MExt2fs} {hasXtime : Bool} {ei : Ext2fsDinode}

/-- The settable flags read back from `e2di_flags`. -/
theorem reread_flags {ip : CoreInode}
    (h : ip.i_flags &&& ~~~(SF_APPEND ||| SF_IMMUTABLE ||| UF_NODUMP) = 0) :
    (reread fs hasXtime ip ei).i_flags = ip.i_flags := by
  have hkeep (b : BitVec 32) (k : ℕ) (hb : b = BitVec.twoPow 32 k) :
      (if ip.i_flags &&& b ≠ 0 then b else 0) = ip.i_flags &&& b := by
    subst hb
    exact keep_bit _ _
  obtain ⟨happend, himmutable, hnodump, -, -, -⟩ := diskWord_bits (ip.i_flags &&& SF_APPEND ≠ 0)
    (ip.i_flags &&& SF_IMMUTABLE ≠ 0) (ip.i_flags &&& UF_NODUMP ≠ 0)
    (ip.i_flag &&& IN_E4INDEX ≠ 0) (ip.i_flag &&& IN_E4EXTENTS ≠ 0)
  simp only [reread, ext2I2ei, ext2Ei2i, happend, himmutable, hnodump]
  rw [hkeep SF_APPEND 18 (by decide), hkeep SF_IMMUTABLE 17 (by decide),
    hkeep UF_NODUMP 0 (by decide), ← BitVec.and_or_distrib_left, ← BitVec.and_or_distrib_left]
  exact (and_mask_eq_iff _ _).2 h

/-- The translated flags read back from `e2di_flags`. -/
theorem reread_flag (ip : CoreInode) :
    ((reread fs hasXtime ip ei).i_flag &&& IN_E4INDEX ≠ 0 ↔ ip.i_flag &&& IN_E4INDEX ≠ 0) ∧
      ((reread fs hasXtime ip ei).i_flag &&& IN_E4EXTENTS ≠ 0 ↔
        ip.i_flag &&& IN_E4EXTENTS ≠ 0) := by
  obtain ⟨-, -, -, hindex, hextents, -⟩ := diskWord_bits (ip.i_flags &&& SF_APPEND ≠ 0)
    (ip.i_flags &&& SF_IMMUTABLE ≠ 0) (ip.i_flags &&& UF_NODUMP ≠ 0)
    (ip.i_flag &&& IN_E4INDEX ≠ 0) (ip.i_flag &&& IN_E4EXTENTS ≠ 0)
  have hword := flagWord_bits (ip.i_flag &&& IN_E4INDEX ≠ 0) (ip.i_flag &&& IN_E4EXTENTS ≠ 0)
  simp only [reread, ext2I2ei, ext2Ei2i, CoreInode.zero, hindex, hextents]
  exact hword

/-- The block count read back. -/
theorem reread_blocks {ip : CoreInode} (h : ip.i_blocks.toNat < 2 ^ 32) :
    (reread fs hasXtime ip ei).i_blocks = ip.i_blocks := by
  obtain ⟨-, -, -, -, -, hhuge⟩ := diskWord_bits (ip.i_flags &&& SF_APPEND ≠ 0)
    (ip.i_flags &&& SF_IMMUTABLE ≠ 0) (ip.i_flags &&& UF_NODUMP ≠ 0)
    (ip.i_flag &&& IN_E4INDEX ≠ 0) (ip.i_flag &&& IN_E4EXTENTS ≠ 0)
  have hlow := setWidth_setWidth_of_lt (w := 32) h
  have hhigh : ip.i_blocks >>> 32 = 0 := by
    apply BitVec.eq_of_toNat_eq
    simp [Nat.shiftRight_eq_div_pow]
    omega
  simp only [reread, ext2I2ei, ext2Ei2i, hhuge, ne_eq, not_true, if_false, hlow, hhigh]
  cases fs.hugeFile <;> simp

/-- The size read back. -/
theorem reread_size {ip : CoreInode} (hnlink : ip.i_nlink ≠ 0)
    (h : S_ISREG ip.i_mode = false → ip.i_size.toNat < 2 ^ 32) :
    (reread fs hasXtime ip ei).i_size = ip.i_size := by
  simp only [reread, ext2I2ei, ext2Ei2i, if_pos hnlink]
  cases hreg : S_ISREG ip.i_mode
  · exact setWidth_setWidth_of_lt (h hreg)
  · exact join_halves _

/-- The block pointers read back. -/
theorem reread_pointers (ip : CoreInode) :
    (reread fs hasXtime ip ei).i_db = ip.i_db ∧ (reread fs hasXtime ip ei).i_ib = ip.i_ib := by
  constructor
  · funext i
    have hlt : (i.castLE (by decide) : Fin 15).val < 12 := i.isLt
    simp only [reread, ext2I2ei, ext2Ei2i, dif_pos hlt]
    rfl
  · funext i
    have hge : ¬(i.natAdd 12 : Fin 15).val < 12 := by
      rw [Fin.val_natAdd]
      omega
    simp only [reread, ext2I2ei, ext2Ei2i, dif_neg hge]
    congr 1
    ext
    simp only [Fin.val_natAdd]
    omega

/-- **Writing an inode over any image and reading it back gives the same inode** exactly when its
owner and its group fit in sixteen bits. -/
theorem ei2i_i2ei_iff (ip : BuiltInode hasXtime) :
    (reread fs hasXtime ip.toCoreInode ei).SameAttrs hasXtime ip.toCoreInode ↔
      ip.i_uid.toNat < 2 ^ 16 ∧ ip.i_gid.toNat < 2 ^ 16 := by
  have hnlink : ip.i_nlink ≠ 0 := by
    intro h
    have hpos := ip.nlink_pos
    rw [h] at hpos
    exact absurd hpos (by decide)
  constructor
  · intro h
    exact ⟨setWidth_setWidth_iff.1 h.uid, setWidth_setWidth_iff.1 h.gid⟩
  · rintro ⟨huid, hgid⟩
    exact
      { mode := if_pos hnlink
        nlink := rfl
        uid := setWidth_setWidth_of_lt huid
        gid := setWidth_setWidth_of_lt hgid
        size := reread_size hnlink ip.size_lt
        atime := rfl
        mtime := rfl
        ctime := rfl
        atimensec := by
          intro hx
          simp only [reread, ext2I2ei, ext2Ei2i, hx, if_true]
          exact nsec_xtime_nsec (ip.atimensec_lt hx)
        mtimensec := by
          intro hx
          simp only [reread, ext2I2ei, ext2Ei2i, hx, if_true]
          exact nsec_xtime_nsec (ip.mtimensec_lt hx)
        ctimensec := by
          intro hx
          simp only [reread, ext2I2ei, ext2Ei2i, hx, if_true]
          exact nsec_xtime_nsec (ip.ctimensec_lt hx)
        birthtime := by
          intro hx
          simp only [reread, ext2I2ei, ext2Ei2i, hx, if_true]
        birthnsec := by
          intro hx
          simp only [reread, ext2I2ei, ext2Ei2i, hx, if_true]
          exact nsec_xtime_nsec (ip.birthnsec_lt hx)
        gen := rfl
        flags := reread_flags ip.flags_settable
        index := (reread_flag _).1
        extents := (reread_flag _).2
        blocks := reread_blocks ip.blocks_lt
        db := (reread_pointers _).1
        ib := (reread_pointers _).2 }

/-- A file owned by user 65536. -/
def bigUid : BuiltInode false where
  toCoreInode := { CoreInode.zero with
    i_mode := 0x81a4
    i_nlink := 1
    i_uid := 65536 }
  nlink_pos := by decide
  size_lt := by decide
  blocks_lt := by decide
  flags_settable := by decide
  mtimensec_lt := by decide
  atimensec_lt := by decide
  ctimensec_lt := by decide
  birthnsec_lt := by decide

/-- User 65536 reads back as user 0. -/
theorem reread_bigUid :
    ¬(reread volume4k false bigUid.toCoreInode plainDinode).SameAttrs false
      bigUid.toCoreInode := by
  intro h
  exact absurd h.uid (by decide)

end Reread

end Ext2fs
