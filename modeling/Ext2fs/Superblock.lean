import Ext2fs.Basic

/-!
# The superblock at mount

`struct ext2fs` as it is read from the volume, and the two functions that stand between it and a
mount: `ext2_check_sb_compat` decides whether the volume is one the driver takes, `compute_sb_data`
derives the geometry the driver computes with and reads the group descriptors.

The fields of the superblock are words of their width on disk; what is derived from them is a
natural number, reduced where the C narrows it.
-/

namespace Ext2fs

/-! ### `struct ext2fs` -/

/-- The fields of `struct ext2fs` that mounting reads. -/
structure Superblock where
  /-- Inode count -/
  e2fs_icount : BitVec 32
  /-- blocks count -/
  e2fs_bcount : BitVec 32
  /-- reserved blocks count -/
  e2fs_rbcount : BitVec 32
  /-- first data block -/
  e2fs_first_dblock : BitVec 32
  /-- block size = 1024*(2^e2fs_log_bsize) -/
  e2fs_log_bsize : BitVec 32
  /-- fragment size -/
  e2fs_log_fsize : BitVec 32
  /-- blocks per group -/
  e2fs_bpg : BitVec 32
  /-- frags per group -/
  e2fs_fpg : BitVec 32
  /-- inodes per group -/
  e2fs_ipg : BitVec 32
  /-- magic number -/
  e2fs_magic : BitVec 16
  /-- revision level -/
  e2fs_rev : BitVec 32
  /-- first non-reserved inode -/
  e2fs_first_ino : BitVec 32
  /-- size of inode structure -/
  e2fs_inode_size : BitVec 16
  /-- incompatible feature set -/
  e2fs_features_incompat : BitVec 32
  /-- RO-compatible feature set -/
  e2fs_features_rocompat : BitVec 32
  /-- Size of a group descriptor, in bytes -/
  e3fs_desc_size : BitVec 16
  deriving DecidableEq, Repr

def E2FS_MAGIC : BitVec 16 := 0xEF53

def E2FS_REV0 : BitVec 32 := 0

def E2FS_REV1 : BitVec 32 := 1

def E2FS_REV0_INODE_SIZE : ℕ := 128

def EXT2_FIRSTINO : BitVec 32 := 11

/-- `sizeof(struct ext2fs_dinode)` -/
def SIZEOF_DINODE : ℕ := 156

def EXT2_MIN_GD_SIZE : ℕ := 32

/-- The device block of the superblock. -/
def SBLOCK : ℤ := 2

/-- The size of the superblock's own buffer. -/
def SBSIZE : ℕ := 1024

def EXT2F_ROCOMPAT_SPARSESUPER : BitVec 32 := 0x0001

def EXT2F_ROCOMPAT_LARGEFILE : BitVec 32 := 0x0002

def EXT2F_ROCOMPAT_HUGE_FILE : BitVec 32 := 0x0008

def EXT2F_ROCOMPAT_EXTRA_ISIZE : BitVec 32 := 0x0040

def EXT2F_INCOMPAT_FTYPE : BitVec 32 := 0x0002

def EXT2F_INCOMPAT_RECOVER : BitVec 32 := 0x0004

def EXT2F_INCOMPAT_META_BG : BitVec 32 := 0x0010

def EXT2F_INCOMPAT_EXTENTS : BitVec 32 := 0x0040

def EXT2F_INCOMPAT_64BIT : BitVec 32 := 0x0080

def EXT2F_INCOMPAT_FLEX_BG : BitVec 32 := 0x0200

def EXT2F_INCOMPAT_CSUM_SEED : BitVec 32 := 0x2000

def EXT2F_ROCOMPAT_SUPP : BitVec 32 :=
  EXT2F_ROCOMPAT_SPARSESUPER ||| EXT2F_ROCOMPAT_LARGEFILE ||| EXT2F_ROCOMPAT_EXTRA_ISIZE

def EXT2F_INCOMPAT_SUPP : BitVec 32 :=
  EXT2F_INCOMPAT_FTYPE ||| EXT2F_INCOMPAT_EXTENTS ||| EXT2F_INCOMPAT_FLEX_BG |||
    EXT2F_INCOMPAT_META_BG

/-- Incompatible features that the driver can read but not yet write. -/
def EXT4F_RO_INCOMPAT_SUPP : BitVec 32 :=
  EXT2F_INCOMPAT_RECOVER ||| EXT2F_INCOMPAT_64BIT ||| EXT2F_INCOMPAT_CSUM_SEED

/-! ### `ext2_check_sb_compat` -/

/-- `ext2_check_sb_compat`: 0 for a volume that can be mounted, 1 for one that is not well formed, 2
for one that can be mounted for reading only, 3 for one with features the driver does not know. -/
def ext2CheckSbCompat (es : Superblock) (ronly : Bool) : ℕ :=
  if es.e2fs_magic ≠ E2FS_MAGIC then 1
  else if 2 < es.e2fs_log_bsize.toNat then 1
  else if es.e2fs_bpg = 0 then 1
  else if E2FS_REV1.toNat < es.e2fs_rev.toNat then 1
  else if es.e2fs_rev = E2FS_REV0 then 0
  else if es.e2fs_first_ino ≠ EXT2_FIRSTINO then 1
  else if es.e2fs_features_incompat &&& ~~~(EXT2F_INCOMPAT_SUPP ||| EXT4F_RO_INCOMPAT_SUPP) ≠ 0 then
    3
  else if !ronly ∧ es.e2fs_features_incompat &&& ~~~EXT2F_INCOMPAT_SUPP ≠ 0 then 2
  else if !ronly ∧ es.e2fs_features_rocompat &&& ~~~EXT2F_ROCOMPAT_SUPP ≠ 0 then 2
  else 0

namespace Superblock

variable (es : Superblock)

/-- `EXT2_HAS_RO_COMPAT_FEATURE`, whatever the revision. -/
def hasRoCompat (mask : BitVec 32) : Bool := es.e2fs_features_rocompat &&& mask ≠ 0

end Superblock

/-- What the checks of `ext2_check_sb_compat` leave of a volume they pass: the two fields that feed
shift counts and divisors are in range. -/
theorem checkSbCompat_ok {es : Superblock} {ronly : Bool} (h : ext2CheckSbCompat es ronly = 0) :
    es.e2fs_log_bsize.toNat ≤ 2 ∧ 0 < es.e2fs_bpg.toNat := by
  unfold ext2CheckSbCompat at h
  split_ifs at h with hmagic hlog hbpg <;>
    exact ⟨by omega, by
      have hne : es.e2fs_bpg.toNat ≠ 0 := fun h0 => hbpg (BitVec.eq_of_toNat_eq h0)
      omega⟩

/-! ### `compute_sb_data` -/

/-- The part of `struct m_ext2fs` that `compute_sb_data` derives from the superblock. -/
structure Geometry where
  /-- calc of logical block no -/
  bshift : ℕ
  /-- Block size -/
  bsize : ℕ
  /-- Shift to get disk block -/
  fsbtodb : ℕ
  /-- Size of fragments per block -/
  fsize : ℕ
  /-- Number of fragments per block -/
  fpb : ℕ
  /-- Number of blocks per group -/
  bpg : ℕ
  /-- Number of fragments per group -/
  fpg : ℕ
  /-- Number of inodes per group -/
  ipg : ℕ
  /-- Size of inode -/
  isize : ℕ
  /-- Number of inodes per block -/
  ipb : ℕ
  /-- Number of inode table per group -/
  itpg : ℕ
  /-- Number of groups -/
  gcount : ℕ
  /-- on-disk bytes per group descriptor -/
  gdsize : ℕ
  /-- Number of group descriptors -/
  gdbcount : ℕ
  maxfilesize : ℕ
  deriving DecidableEq, Repr

/-- The mount's data, with the blocks of the descriptor table. -/
structure SbData (D : Type) extends Geometry where
  /-- Group Descriptors -/
  gd : List D
  deriving DecidableEq, Repr

/-- `EXT2_MIN_FRAG_SIZE << es->e2fs_log_fsize`.  The count is not checked; the machines the driver is
built for use its low five bits. -/
def fragSize (logFsize : BitVec 32) : ℕ := u32 (1024 * 2 ^ (logFsize.toNat % 32) : ℕ)

/-- Fragments in a block; the mount's memory was cleared when it was allocated. -/
def fragsPerBlock (bsize fsize : ℕ) : ℕ := if fsize ≠ 0 then bsize / fsize else 0

/-- The inode size, and the sanity check of revision 1. -/
def inodeSize (es : Superblock) (bsize : ℕ) : Except Errno ℕ :=
  if es.e2fs_rev = E2FS_REV0 then .ok E2FS_REV0_INODE_SIZE
  else
    let isize := es.e2fs_inode_size.toNat
    if isize < E2FS_REV0_INODE_SIZE ∨ bsize < isize ∨ isize &&& (isize - 1) ≠ 0 then .error .eio
    else .ok isize

/-- The size of a group descriptor, and the test that one fits a block. -/
def descSize (es : Superblock) (bsize : ℕ) : Except Errno ℕ :=
  let gdsize :=
    if es.e2fs_rev ≠ E2FS_REV0 ∧ es.e2fs_features_incompat &&& EXT2F_INCOMPAT_64BIT ≠ 0 ∧
        es.e3fs_desc_size ≠ 0 then es.e3fs_desc_size.toNat
    else EXT2_MIN_GD_SIZE
  if gdsize < EXT2_MIN_GD_SIZE ∨ gdsize &&& (gdsize - 1) ≠ 0 ∨ bsize < gdsize then .error .einval
  else .ok gdsize

/-- Largest file this volume can hold. -/
def largestFile (es : Superblock) (bsize : ℕ) : ℕ :=
  if es.e2fs_rev = E2FS_REV0 ∨ !es.hasRoCompat EXT2F_ROCOMPAT_LARGEFILE then 0x7fffffff
  else
    let b := bsize / 4
    let physically :=
      (if es.hasRoCompat EXT2F_ROCOMPAT_HUGE_FILE then 2 ^ 48 - 1 else 2 ^ 32 - 1) * 512
    let logically := (12 + b + b * b + b * b * b) * bsize
    min logically physically

/-- `compute_sb_data` as far as it computes. -/
def sbGeometry (es : Superblock) : Except Errno Geometry := do
  let bshift := 10 + es.e2fs_log_bsize.toNat
  let bsize := 2 ^ bshift
  let fsize := fragSize es.e2fs_log_fsize
  let isize ← inodeSize es bsize
  if es.hasRoCompat EXT2F_ROCOMPAT_EXTRA_ISIZE ∧ isize < SIZEOF_DINODE then throw .einval
  let ipb := bsize / isize
  let gcount :=
    u32 ((es.e2fs_bcount.toNat : ℤ) - es.e2fs_first_dblock.toNat + es.e2fs_bpg.toNat - 1) /
      es.e2fs_bpg.toNat
  let gdsize ← descSize es bsize
  let descpb := bsize / gdsize
  return {
    bshift, bsize, fsize, isize, ipb, gcount, gdsize
    fsbtodb := es.e2fs_log_bsize.toNat + 1
    fpb := fragsPerBlock bsize fsize
    bpg := es.e2fs_bpg.toNat
    fpg := es.e2fs_fpg.toNat
    ipg := es.e2fs_ipg.toNat
    itpg := es.e2fs_ipg.toNat / ipb
    gdbcount := u32 (gcount + descpb - 1 : ℕ) / descpb
    maxfilesize := largestFile es bsize }

namespace Geometry

variable (fs : Geometry)

/-- `fsbtodb`: a file system block as a device block, in 64 bits. -/
def toDb (b : ℤ) : ℤ := b * 2 ^ fs.fsbtodb

/-- The rounds of a loop `for (i = 0; i < (int)fs->e2fs_gdbcount; i++)`. -/
def descRounds : ℕ := (i32 fs.gdbcount).toNat

/-- `logic_sb_block`: the block the superblock is in. -/
def logicSbBlock : ℕ := if SBSIZE < fs.bsize then 0 else 1

/-- The device block that descriptor block `i` is read from. -/
def descReadAt (i : ℕ) : ℤ := fs.toDb (fs.logicSbBlock + i + 1)

end Geometry

/-- The loop of `compute_sb_data` over the descriptor blocks: `rounds` blocks from block `i` on. -/
def loadDescs {D : Type} (bread : ℤ → Except Errno D) (fs : Geometry) :
    ℕ → ℕ → Except Errno (List D)
  | 0, _ => .ok []
  | rounds + 1, i => do
    let block ← bread (fs.descReadAt i)
    let rest ← loadDescs bread fs rounds (i + 1)
    return block :: rest

/-- `compute_sb_data` -/
def computeSbData {D : Type} (bread : ℤ → Except Errno D) (es : Superblock) :
    Except Errno (SbData D) := do
  let fs ← sbGeometry es
  let gd ← loadDescs bread fs fs.descRounds 0
  return { toGeometry := fs, gd }

/-! ### The mounted volume -/

/-- The volume that an accepted superblock describes. -/
def Superblock.mounted (es : Superblock) (ronly : Bool) (h : ext2CheckSbCompat es ronly = 0) :
    MExt2fs where
  logBsize := es.e2fs_log_bsize.toNat
  fsize := fragSize es.e2fs_log_fsize
  bcount := es.e2fs_bcount.toNat
  rbcount := es.e2fs_rbcount.toNat
  firstDblock := es.e2fs_first_dblock.toNat
  bpg := es.e2fs_bpg.toNat
  fpg := es.e2fs_fpg.toNat
  ipg := es.e2fs_ipg.toNat
  ronly := ronly
  largefile := es.e2fs_rev ≠ E2FS_REV0 && es.hasRoCompat EXT2F_ROCOMPAT_LARGEFILE
  hugeFile := es.hasRoCompat EXT2F_ROCOMPAT_HUGE_FILE
  logBsize_le := (checkSbCompat_ok h).1
  bcount_lt := es.e2fs_bcount.isLt
  bpg_pos := (checkSbCompat_ok h).2

theorem largestFile_mounted {es : Superblock} {ronly : Bool} (h : ext2CheckSbCompat es ronly = 0) :
    largestFile es (es.mounted ronly h).bsize = (es.mounted ronly h).maxfilesize := by
  unfold largestFile MExt2fs.maxfilesize Superblock.mounted
  by_cases hrev : es.e2fs_rev = E2FS_REV0
  · simp [hrev]
  · cases hlarge : es.hasRoCompat EXT2F_ROCOMPAT_LARGEFILE <;> simp [hrev]

/-! ### What `compute_sb_data` returns -/

/-- The relation of the derived data to the superblock. -/
structure Derived (es : Superblock) (fs : Geometry) : Prop where
  bshift : fs.bshift = 10 + es.e2fs_log_bsize.toNat
  bsize : fs.bsize = 2 ^ fs.bshift
  fsbtodb : fs.fsbtodb = es.e2fs_log_bsize.toNat + 1
  fpb : fs.fpb = fragsPerBlock fs.bsize (fragSize es.e2fs_log_fsize)
  bpg : fs.bpg = es.e2fs_bpg.toNat
  fpg : fs.fpg = es.e2fs_fpg.toNat
  ipg : fs.ipg = es.e2fs_ipg.toNat
  isize_pos : 0 < fs.isize
  isize_le : 1024 ≤ fs.bsize → fs.isize ≤ fs.bsize
  ipb : fs.ipb = fs.bsize / fs.isize
  gcount : fs.gcount =
    u32 ((es.e2fs_bcount.toNat : ℤ) - es.e2fs_first_dblock.toNat + es.e2fs_bpg.toNat - 1) /
      es.e2fs_bpg.toNat
  gdsize_pos : 0 < fs.gdsize
  gdsize_le : fs.gdsize ≤ fs.bsize
  gdbcount : fs.gdbcount =
    u32 (fs.gcount + fs.bsize / fs.gdsize - 1 : ℕ) / (fs.bsize / fs.gdsize)
  maxfilesize : fs.maxfilesize = largestFile es fs.bsize

theorem inodeSize_ok {es : Superblock} {bsize isize : ℕ} (h : inodeSize es bsize = .ok isize) :
    0 < isize ∧ (1024 ≤ bsize → isize ≤ bsize) := by
  unfold inodeSize at h
  by_cases hrev : es.e2fs_rev = E2FS_REV0
  · rw [if_pos hrev, Except.ok.injEq] at h
    subst h
    exact ⟨by decide, fun _ => by unfold E2FS_REV0_INODE_SIZE; omega⟩
  · rw [if_neg hrev] at h
    extract_lets size at h
    by_cases hbad : size < E2FS_REV0_INODE_SIZE ∨ bsize < size ∨ size &&& (size - 1) ≠ 0
    · rw [if_pos hbad] at h
      cases h
    · rw [if_neg hbad, Except.ok.injEq] at h
      unfold E2FS_REV0_INODE_SIZE at hbad
      omega

theorem descSize_ok {es : Superblock} {bsize gdsize : ℕ} (h : descSize es bsize = .ok gdsize) :
    0 < gdsize ∧ gdsize ≤ bsize := by
  unfold descSize at h
  extract_lets size at h
  by_cases hbad : size < EXT2_MIN_GD_SIZE ∨ size &&& (size - 1) ≠ 0 ∨ bsize < size
  · rw [if_pos hbad] at h
    cases h
  · rw [if_neg hbad, Except.ok.injEq] at h
    unfold EXT2_MIN_GD_SIZE at hbad
    omega

/-- A sequence succeeds with what its last call returns. -/
theorem except_bind_eq_ok {ε α β : Type} {x : Except ε α} {f : α → Except ε β} {b : β} :
    (x >>= f) = .ok b ↔ ∃ a, x = .ok a ∧ f a = .ok b := by
  cases x with
  | error e => simp [bind, Except.bind]
  | ok a => simp [bind, Except.bind]

theorem sbGeometry_ok {es : Superblock} {fs : Geometry} (h : sbGeometry es = .ok fs) :
    Derived es fs := by
  obtain ⟨isize, hisize, h⟩ := except_bind_eq_ok.1 h
  by_cases hextra : es.hasRoCompat EXT2F_ROCOMPAT_EXTRA_ISIZE ∧ isize < SIZEOF_DINODE
  · rw [if_pos hextra] at h
    cases h
  · rw [if_neg hextra] at h
    obtain ⟨gdsize, hgdsize, h⟩ := except_bind_eq_ok.1 h
    have hi := inodeSize_ok hisize
    have hg := descSize_ok hgdsize
    rw [← Except.ok.inj h]
    exact ⟨rfl, rfl, rfl, rfl, rfl, rfl, rfl, hi.1, hi.2, rfl, rfl, hg.1, hg.2, rfl, rfl⟩

theorem computeSbData_ok {D : Type} {bread : ℤ → Except Errno D} {es : Superblock} {fs : SbData D}
    (h : computeSbData bread es = .ok fs) :
    sbGeometry es = .ok fs.toGeometry ∧
      loadDescs bread fs.toGeometry fs.descRounds 0 = .ok fs.gd := by
  obtain ⟨geo, hgeo, h⟩ := except_bind_eq_ok.1 h
  obtain ⟨gd, hload, h⟩ := except_bind_eq_ok.1 h
  rw [← Except.ok.inj h]
  exact ⟨hgeo, hload⟩

end Ext2fs
