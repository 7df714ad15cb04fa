import Ext2fs.Newfs.Mounted

/-!
# What `statfs` tells of a new volume

`ext2_statfs_internal` counts what the metadata take for all groups at once: the bitmaps and the inode table
in each, the superblock and the descriptors in those with a copy.  `mke2fs` counts them group by group, in
`cgoverhead`.

* `statfsOverhead`, `ext2StatfsInternal` — what the driver computes;
* `Allocated`, `dataInUse` — the bitmaps of a volume in use, and the blocks that hold data;
* `overhead_sum`, `blocksIn_sum` — the factored formula, and the groups as a partition of the blocks;
* **`statfs_right_iff`** — `statfs` is right exactly when the groups are counted right and hold their
  metadata.
-/

namespace Ext2fs.Newfs

open Tracked Fsck

/-! ### What the driver computes -/

/-- The superblock, with the other fields that `ext2_statfs_internal` reads. -/
structure StatSuper extends Superblock where
  e2fs_features_compat : BitVec 32
  /-- number of reserved gdt blocks -/
  e2fs_reserved_ngdb : BitVec 16
  /-- free blocks count -/
  e2fs_fbcount : BitVec 32
  /-- free inodes count -/
  e2fs_ficount : BitVec 32

def EXT2F_COMPAT_RESIZE : BitVec 32 := 0x0010

/-- `struct vfsstatfs` -/
structure Vfsstatfs where
  f_bsize : ℕ
  f_iosize : ℕ
  f_blocks : ℕ
  f_bfree : ℕ
  f_bavail : ℕ
  f_files : ℕ
  f_ffree : ℕ
  deriving DecidableEq, Repr

section

variable (es : StatSuper) (fs : Geometry)

/-- `ngroups`: the groups with a copy of the superblock. -/
def copies : ℕ :=
  if E2FS_REV0.toNat < es.e2fs_rev.toNat ∧ es.e2fs_features_rocompat &&& EXT2F_ROCOMPAT_SPARSESUPER ≠ 0 then
    (List.range (i32 fs.gcount).toNat).countP cgHasSb
  else fs.gcount

/-- `ngdb`, with the reserved descriptors. -/
def descBlocks : ℕ :=
  if E2FS_REV0.toNat < es.e2fs_rev.toNat ∧ es.e2fs_features_compat &&& EXT2F_COMPAT_RESIZE ≠ 0 then
    fs.gdbcount + es.e2fs_reserved_ngdb.toNat
  else fs.gdbcount

/-- `overhead`, a sum of products in `uint32_t`. -/
def statfsOverhead : ℕ :=
  u32 (es.e2fs_first_dblock.toNat + fs.gcount * (1 + 1 + fs.itpg) + copies es fs * (1 + descBlocks es fs) : ℕ)

/-- `ext2_statfs_internal` -/
def ext2StatfsInternal : Except Errno Vfsstatfs :=
  if es.e2fs_magic ≠ E2FS_MAGIC then .error .einval
  else
    let f_bfree := es.e2fs_fbcount.toNat
    .ok {
      f_bsize := fs.fsize
      f_iosize := fs.bsize
      f_blocks := u32 ((es.e2fs_bcount.toNat : ℤ) - statfsOverhead es fs)
      f_bfree := f_bfree
      f_bavail := if es.e2fs_rbcount.toNat < f_bfree then f_bfree - es.e2fs_rbcount.toNat else 0
      f_files := es.e2fs_icount.toNat
      f_ffree := es.e2fs_ficount.toNat }

end

/-- The superblock of a volume in use. -/
def statSuper (p : Params) (sb : Sb) (fbcount ficount : BitVec 32) : StatSuper where
  toSuperblock := superblockOf p sb
  e2fs_features_compat := if sb.resize then EXT2F_COMPAT_RESIZE else 0
  e2fs_reserved_ngdb := .ofNat 16 sb.reserved_ngdb
  e2fs_fbcount := fbcount
  e2fs_ficount := ficount

/-! ### What is to be -/

/-- The blocks of a group. -/
def Sb.blocksIn (sb : Sb) (c : ℕ) : ℕ := sb.groupEnd c - sb.base c

/-- **The allocator's invariant**: the metadata are marked as used, and the free blocks are as many as are
counted. -/
structure Allocated (p : Params) (sb : Sb) (map : ℕ → Bitmap) (fbcount : ℕ) : Prop where
  metadata : ∀ c < sb.gcount, ∀ i < overhead p sb c, (map c).isclr i = false
  free : fbcount =
    ∑ c ∈ Finset.range sb.gcount, ((Finset.range (sb.blocksIn c)).filter fun i => (map c).isclr i = true).card

/-- The blocks in use that are not metadata: those with data, and the indirect ones. -/
def dataInUse (p : Params) (sb : Sb) (map : ℕ → Bitmap) : ℕ :=
  ∑ c ∈ Finset.range sb.gcount,
    ((Finset.range (sb.blocksIn c)).filter fun i => overhead p sb c ≤ i ∧ (map c).isset i = true).card

/-- **`statfs` is right** on a volume: its overhead is what `cgoverhead` sums up to, `f_blocks` counts the
blocks behind the metadata of their groups, and with bitmaps in order the difference to `f_bfree` counts those
in use. -/
structure StatfsRight (p : Params) (sb : Sb) (fs : Geometry) (fbcount ficount : BitVec 32) : Prop where
  total : statfsOverhead (statSuper p sb fbcount ficount) fs =
    sb.first_dblock + ∑ c ∈ Finset.range sb.gcount, (cgoverhead p sb c).value
  stat : ∃ st, ext2StatfsInternal (statSuper p sb fbcount ficount) fs = .ok st ∧
    st.f_blocks = ∑ c ∈ Finset.range sb.gcount, (sb.blocksIn c - overhead p sb c) ∧
      ∀ map, Allocated p sb map fbcount.toNat → st.f_bfree ≤ st.f_blocks ∧
        st.f_blocks - st.f_bfree = dataInUse p sb map

/-! ### The two formulas -/

section

variable {p : Params} {sb : Sb}

/-- What has a copy is counted once more. -/
theorem overhead_sum (p : Params) (sb : Sb) (n : ℕ) :
    ∑ c ∈ Finset.range n, overhead p sb c = n * (1 + 1 + sb.itpg) +
      (List.range n).countP p.hasSb * (1 + (sb.gdbcount + if sb.resize then sb.reserved_ngdb else 0)) := by
  induction n with
  | zero => simp
  | succ n ih =>
    rw [Finset.sum_range_succ, ih, List.range_succ, List.countP_append, List.countP_singleton]
    unfold overhead
    cases p.hasSb n with
    | false =>
      simp only [Bool.false_eq_true, if_false]
      ring
    | true =>
      simp only [if_true]
      ring

/-- The groups share the blocks out. -/
theorem blocksIn_sum (hle : sb.first_dblock ≤ sb.bcount) (n : ℕ) :
    ∑ c ∈ Finset.range n, sb.blocksIn c = min (sb.bpg * n) (sb.bcount - sb.first_dblock) := by
  induction n with
  | zero => simp
  | succ n ih =>
    rw [Finset.sum_range_succ, ih]
    unfold Sb.blocksIn Sb.groupEnd Sb.base
    rw [Nat.mul_succ]
    omega

/-- Clear bits and bits in use behind the metadata of a group. -/
theorem card_clear_add_used {map : Bitmap} {a n : ℕ} (hmeta : ∀ i < a, map.isclr i = false) :
    ((Finset.range n).filter fun i => map.isclr i = true).card +
      ((Finset.range n).filter fun i => a ≤ i ∧ map.isset i = true).card = n - a := by
  have hsplit : (Finset.range n).filter (fun i => map.isclr i = true) =
      (Finset.Ico a n).filter fun i => map.isclr i = true := by
    ext i
    rw [Finset.mem_filter, Finset.mem_filter, Finset.mem_range, Finset.mem_Ico]
    constructor
    · rintro ⟨hi, hclr⟩
      refine ⟨⟨?_, hi⟩, hclr⟩
      by_contra hlt
      rw [hmeta i (not_le.1 hlt)] at hclr
      exact Bool.false_ne_true hclr
    · rintro ⟨⟨-, hi⟩, hclr⟩
      exact ⟨hi, hclr⟩
  have hused : (Finset.range n).filter (fun i => a ≤ i ∧ map.isset i = true) =
      (Finset.Ico a n).filter fun i => ¬map.isclr i = true := by
    ext i
    rw [Finset.mem_filter, Finset.mem_filter, Finset.mem_range, Finset.mem_Ico, Bitmap.isset_eq_not,
      Bool.not_eq_true', Bool.not_eq_true]
    tauto
  rw [hsplit, hused, Finset.card_filter_add_card_filter_not, Nat.card_Ico]

/-- **The blocks behind the metadata** are free or in use. -/
theorem free_add_used {map : ℕ → Bitmap} {fbcount : ℕ} (h : Allocated p sb map fbcount) :
    fbcount + dataInUse p sb map = ∑ c ∈ Finset.range sb.gcount, (sb.blocksIn c - overhead p sb c) := by
  rw [h.free]
  unfold dataInUse
  rw [← Finset.sum_add_distrib]
  refine Finset.sum_congr rfl fun c hc => ?_
  exact card_clear_add_used (h.metadata c (Finset.mem_range.1 hc))

/-! ### The driver's formula on a new volume -/

section

variable {t : Totals} {fs : Geometry} {fbcount ficount : BitVec 32}

/-- The groups with a copy are those that `mke2fs` gave one. -/
theorem copies_eq (hgc : fs.gcount ≤ 2 ^ 19) :
    copies (statSuper p sb fbcount ficount) fs = (List.range fs.gcount).countP p.hasSb := by
  have hrounds : (i32 fs.gcount).toNat = fs.gcount := by
    rw [i32_natCast (by omega), Int.toNat_natCast]
  unfold copies
  rw [hrounds]
  cases hO : p.oflag with
  | false =>
    have hold : ¬(E2FS_REV0.toNat < (statSuper p sb fbcount ficount).e2fs_rev.toNat ∧
        (statSuper p sb fbcount ficount).e2fs_features_rocompat &&& EXT2F_ROCOMPAT_SPARSESUPER ≠ 0) := by
      have hrev : (statSuper p sb fbcount ficount).e2fs_rev = E2FS_REV0 := by
        simp [statSuper, superblockOf, hO]
      rw [hrev]
      exact fun hc => Nat.lt_irrefl _ hc.1
    have hall : (List.range fs.gcount).countP p.hasSb = (List.range fs.gcount).length := by
      refine List.countP_eq_length.2 fun c _ => ?_
      unfold Params.hasSb
      rw [hO]
      rfl
    rw [if_neg hold, hall, List.length_range]
  | true =>
    have hnew : E2FS_REV0.toNat < (statSuper p sb fbcount ficount).e2fs_rev.toNat ∧
        (statSuper p sb fbcount ficount).e2fs_features_rocompat &&& EXT2F_ROCOMPAT_SPARSESUPER ≠ 0 := by
      simp [statSuper, superblockOf, hO, E2FS_REV0, E2FS_REV1, EXT2F_ROCOMPAT_SPARSESUPER,
        EXT2F_ROCOMPAT_LARGEFILE]
    rw [if_pos hnew]
    refine congrArg (fun f => List.countP f (List.range fs.gcount)) (funext fun c => ?_)
    unfold Params.hasSb
    rw [hO]
    rfl

/-- The descriptors of a copy, with those that are reserved. -/
theorem descBlocks_eq (hw : Words p sb) (hgdb : fs.gdbcount = sb.gdbcount) :
    descBlocks (statSuper p sb fbcount ficount) fs =
      sb.gdbcount + if sb.resize then sb.reserved_ngdb else 0 := by
  have hres : (statSuper p sb fbcount ficount).e2fs_reserved_ngdb.toNat = sb.reserved_ngdb :=
    ofNat_toNat hw.reserved_ngdb
  unfold descBlocks
  rw [hgdb, hres]
  cases hR : sb.resize with
  | false =>
    have hnone : (statSuper p sb fbcount ficount).e2fs_features_compat = 0 := by simp [statSuper, hR]
    rw [hnone]
    simp
  | true =>
    have hO := hw.resize hR
    have hsome : E2FS_REV0.toNat < (statSuper p sb fbcount ficount).e2fs_rev.toNat ∧
        (statSuper p sb fbcount ficount).e2fs_features_compat &&& EXT2F_COMPAT_RESIZE ≠ 0 := by
      simp [statSuper, superblockOf, hO, hR, E2FS_REV0, E2FS_REV1, EXT2F_COMPAT_RESIZE]
    rw [if_pos hsome]
    rfl

variable (h : Sizes p) (hl : Laid p sb t) (hw : Words p sb)

include h hl hw

/-- `cgoverhead` is exact, whatever has wrapped before. -/
theorem cgoverhead_value (c : ℕ) : (cgoverhead p sb c).value = overhead p sb c := by
  refine cgoverhead_yields.value_eq ?_
  have hitpg : sb.itpg ≤ 2 ^ 30 := by
    have hipg := hw.ipg
    rw [hl.tables.1]
    refine Nat.div_le_of_le_mul ?_
    rcases h.ipb with hi | hi | hi | hi <;> omega
  have hgd : sb.gdbcount ≤ 2 ^ 19 := hl.gdbcount_le h
  have hres := hw.reserved_ngdb
  unfold overhead
  split_ifs <;> omega

theorem sum_cgoverhead : ∑ c ∈ Finset.range sb.gcount, (cgoverhead p sb c).value =
    ∑ c ∈ Finset.range sb.gcount, overhead p sb c :=
  Finset.sum_congr rfl fun c _ => cgoverhead_value h hl hw c

/-- **The overhead that the driver computes**, once it counts the groups right. -/
theorem statfsOverhead_eq (hg : GeometryRight p sb (superblockOf p sb) fs) :
    statfsOverhead (statSuper p sb fbcount ficount) fs =
      u32 (sb.first_dblock + ∑ c ∈ Finset.range sb.gcount, overhead p sb c : ℕ) := by
  have hle := hl.gcount_le h
  have hfirst : (statSuper p sb fbcount ficount).e2fs_first_dblock.toNat = sb.first_dblock :=
    hg.first_dblock
  unfold statfsOverhead
  rw [copies_eq (hg.gcount ▸ hle), descBlocks_eq hw hg.gdbcount, hfirst, hg.gcount, hg.itpg, overhead_sum,
    Nat.add_assoc]

omit hw in
/-- The groups hold all blocks. -/
theorem sum_blocksIn (hroom : u32 (sb.bcount - sb.first_dblock) + sb.bpg ≤ 2 ^ 32) :
    sb.first_dblock ≤ sb.bcount ∧
      ∑ c ∈ Finset.range sb.gcount, sb.blocksIn c = sb.bcount - sb.first_dblock := by
  obtain ⟨hpos, -⟩ := hl.bpg_lt h
  have hbcount := hl.bcount
  have hfirst := hl.first_lt
  have hle : sb.first_dblock ≤ sb.bcount := by
    by_contra hlt
    have h8 : 8192 ≤ sb.bpg := by
      rw [hl.bpg]
      unfold NBBY
      rcases h.bsize with hb | hb | hb <;> omega
    have hone := first_le (p := p)
    have hsame := hl.first_dblock
    unfold u32 at hroom
    omega
  refine ⟨hle, ?_⟩
  have hexact : u32 ((sb.bcount : ℤ) - sb.first_dblock) = sb.bcount - sb.first_dblock := by
    unfold u32
    omega
  have hcover := (howmany_le_iff hpos).1 hl.gcount.ge
  rw [hexact, Nat.mul_comm] at hcover
  rw [blocksIn_sum hle, Nat.min_eq_right hcover]

omit h hl hw in
/-- The blocks behind the metadata, and what the metadata have too much. -/
theorem sum_behind (p : Params) (sb : Sb) (n : ℕ) :
    ∑ c ∈ Finset.range n, (sb.blocksIn c - overhead p sb c) + ∑ c ∈ Finset.range n, overhead p sb c =
      ∑ c ∈ Finset.range n, sb.blocksIn c + ∑ c ∈ Finset.range n, (overhead p sb c - sb.blocksIn c) := by
  rw [← Finset.sum_add_distrib, ← Finset.sum_add_distrib]
  refine Finset.sum_congr rfl fun c _ => ?_
  omega

/-- **Where the groups hold their metadata**, the numbers are right. -/
theorem statfs_right (hg : GeometryRight p sb (superblockOf p sb) fs)
    (hroom : u32 (sb.bcount - sb.first_dblock) + sb.bpg ≤ 2 ^ 32)
    (hfit : ∀ c < sb.gcount, overhead p sb c ≤ sb.blocksIn c) : StatfsRight p sb fs fbcount ficount := by
  obtain ⟨hle, hsum⟩ := sum_blocksIn h hl hroom
  have hbehind := sum_behind p sb sb.gcount
  have hnone : ∑ c ∈ Finset.range sb.gcount, (overhead p sb c - sb.blocksIn c) = 0 :=
    Finset.sum_eq_zero fun c hc => Nat.sub_eq_zero_of_le (hfit c (Finset.mem_range.1 hc))
  have hbcount := hl.bcount
  have hover : statfsOverhead (statSuper p sb fbcount ficount) fs =
      sb.first_dblock + ∑ c ∈ Finset.range sb.gcount, overhead p sb c := by
    rw [statfsOverhead_eq h hl hw hg]
    exact u32_of_lt (by omega)
  refine ⟨by rw [hover, sum_cgoverhead h hl hw], ?_⟩
  have hblocks : u32 (((statSuper p sb fbcount ficount).e2fs_bcount.toNat : ℤ) -
      statfsOverhead (statSuper p sb fbcount ficount) fs) =
        ∑ c ∈ Finset.range sb.gcount, (sb.blocksIn c - overhead p sb c) := by
    have hfield : (statSuper p sb fbcount ficount).e2fs_bcount.toNat = sb.bcount := ofNat_toNat hl.bcount
    rw [hfield, hover]
    unfold u32
    omega
  refine ⟨_, if_neg (not_not.2 rfl), hblocks, fun map hmap => ?_⟩
  have hfree := free_add_used hmap
  show fbcount.toNat ≤ u32 _ ∧ u32 _ - fbcount.toNat = _
  rw [hblocks]
  omega

/-- **What right numbers take.** -/
theorem StatfsRight.fits (hfs : sbGeometry (superblockOf p sb) = .ok fs) (hr : StatfsRight p sb fs fbcount ficount) :
    u32 (sb.bcount - sb.first_dblock) + sb.bpg ≤ 2 ^ 32 ∧
      ∀ c < sb.gcount, overhead p sb c ≤ sb.blocksIn c := by
  obtain ⟨hpos, hlt⟩ := hl.bpg_lt h
  have hd := sbGeometry_ok hfs
  have htotal := hr.total
  rw [sum_cgoverhead h hl hw] at htotal
  have hroom : u32 (sb.bcount - sb.first_dblock) + sb.bpg ≤ 2 ^ 32 := by
    by_contra hwrap
    -- no group is counted, and none of the overhead
    have hzero : fs.gcount = 0 := by
      rw [hl.computed h hd]
      exact computed_gcount_wraps (u32_lt _) (not_le.1 hwrap) hlt
    have hfirst : (statSuper p sb fbcount ficount).e2fs_first_dblock.toNat = sb.first_dblock :=
      ofNat_toNat hl.first_lt
    have hnothing : statfsOverhead (statSuper p sb fbcount ficount) fs = sb.first_dblock := by
      unfold statfsOverhead
      rw [copies_eq (hzero ▸ Nat.zero_le _), hfirst, hzero]
      show u32 (sb.first_dblock + 0 * _ + 0 * _ : ℕ) = _
      rw [Nat.zero_mul, Nat.zero_mul]
      exact u32_of_lt hl.first_lt
    have hgroups : 0 < sb.gcount := by
      rw [hl.gcount]
      exact howmany_pos hpos (by omega)
    have hsome : overhead p sb 0 ≤ ∑ c ∈ Finset.range sb.gcount, overhead p sb c :=
      Finset.single_le_sum (fun _ _ => Nat.zero_le _) (Finset.mem_range.2 hgroups)
    have htwo : 2 ≤ overhead p sb 0 := by
      unfold overhead
      omega
    omega
  refine ⟨hroom, fun c hc => ?_⟩
  obtain ⟨hle, hsum⟩ := sum_blocksIn h hl hroom
  have hbehind := sum_behind p sb sb.gcount
  have hbcount := hl.bcount
  -- the overhead is a word, so that nothing of it can be lost
  have hword : statfsOverhead (statSuper p sb fbcount ficount) fs < 2 ^ 32 := u32_lt _
  obtain ⟨st, hst, hblocks, -⟩ := hr.stat
  have hst' : ext2StatfsInternal (statSuper p sb fbcount ficount) fs = .ok _ := if_neg (not_not.2 rfl)
  have hfield : (statSuper p sb fbcount ficount).e2fs_bcount.toNat = sb.bcount := ofNat_toNat hl.bcount
  rw [hst] at hst'
  rw [Except.ok.inj hst'] at hblocks
  change u32 (((statSuper p sb fbcount ficount).e2fs_bcount.toNat : ℤ) -
    statfsOverhead (statSuper p sb fbcount ficount) fs) = _ at hblocks
  rw [hfield, htotal] at hblocks
  rw [htotal] at hword
  have hmost : ∑ c ∈ Finset.range sb.gcount, (overhead p sb c - sb.blocksIn c) ≤
      ∑ c ∈ Finset.range sb.gcount, overhead p sb c := Finset.sum_le_sum fun c _ => Nat.sub_le _ _
  have hnone : ∑ c ∈ Finset.range sb.gcount, (overhead p sb c - sb.blocksIn c) = 0 := by
    unfold u32 at hblocks
    omega
  exact Nat.le_of_sub_eq_zero (Finset.sum_eq_zero_iff.1 hnone c (Finset.mem_range.2 hc))

end

end

/-! ### When `statfs` is right on a new volume -/

/-- **`statfs` is right on a new volume**, and stays so while the bitmaps are in order, exactly when the blocks
of the volume with those of one group added are not too many for a word, and every group holds its metadata. -/
theorem statfs_right_iff (o : Options) (hv : o.Valid) (ha : Accepts (main o).value) :
    (∃ fs, sbGeometry (superblockOf (main o).value (newfs o).value.1) = .ok fs ∧
      ∀ fbcount ficount, StatfsRight (main o).value (newfs o).value.1 fs fbcount ficount) ↔
      u32 ((newfs o).value.1.bcount - (newfs o).value.1.first_dblock) + (newfs o).value.1.bpg ≤ 2 ^ 32 ∧
        ∀ c < (newfs o).value.1.gcount,
          overhead (main o).value (newfs o).value.1 c ≤ (newfs o).value.1.blocksIn c := by
  have h : Sizes (main o).value := ha.sizes hv.inodesize hv.minfree
  have hl := mke2fs_laid h
  have hw := mke2fs_words (main_inodes_lt hv)
  rw [newfs_value]
  generalize (mke2fs (main o).value).value = r at hl hw ⊢
  constructor
  · rintro ⟨fs, hfs, hr⟩
    exact (hr 0 0).fits h hl hw hfs
  · rintro ⟨hroom, hfit⟩
    obtain ⟨fs, hfs, -, hg⟩ := hl.geometry h hw ha.inodesize hroom
    exact ⟨fs, hfs, fun _ _ => statfs_right h hl hw hg hroom hfit⟩

/-- `statfs` is right on the image of 64 MiB. -/
theorem smallImage_statfs :
    ∃ fs, sbGeometry (superblockOf (main smallImage).value (newfs smallImage).value.1) = .ok fs ∧
      ∀ fbcount ficount, StatfsRight (main smallImage).value (newfs smallImage).value.1 fs fbcount ficount :=
  (statfs_right_iff smallImage smallImage_valid smallImage_accepted).2
    ⟨by decide +kernel, by decide +kernel⟩

/-- A volume of 2 TiB in sectors and blocks of 1 KiB, in format 0: each group has all descriptors. -/
def manyGroups : Options where
  fssize := 2 ^ 31 - 1
  sectorsize := 1024
  bsize := 1024
  fsize := 0
  inodesize := 128
  num_inodes := 0
  density := 0
  minfree := 5
  oflag := false

/-- **An accepted call** whose groups have 8192 blocks and 8707 of metadata: `f_blocks` wraps, and is more than
the volume has. -/
theorem statfs_wrong :
    (manyGroups.Valid ∧ Accepts (main manyGroups).value) ∧
      overhead (main manyGroups).value (newfs manyGroups).value.1 0 = 8707 ∧
        (newfs manyGroups).value.1.blocksIn 0 = 8192 ∧ (newfs manyGroups).value.1.bcount = 2147475457 ∧
          ((sbGeometry (superblockOf (main manyGroups).value (newfs manyGroups).value.1)).bind fun fs =>
            (ext2StatfsInternal (statSuper (main manyGroups).value (newfs manyGroups).value.1 0 0) fs).map
              (·.f_blocks)) = .ok 4159963651 ∧
            ¬∃ fs, sbGeometry (superblockOf (main manyGroups).value (newfs manyGroups).value.1) = .ok fs ∧
              ∀ fbcount ficount,
                StatfsRight (main manyGroups).value (newfs manyGroups).value.1 fs fbcount ficount := by
  have hv : manyGroups.Valid := ⟨by decide, .inl rfl, by decide, by decide, by decide⟩
  have ha : Accepts (main manyGroups).value :=
    ⟨by decide, by decide, by decide, by decide, by decide, by decide, by decide, by decide +kernel⟩
  have hover : overhead (main manyGroups).value (newfs manyGroups).value.1 0 = 8707 := by decide +kernel
  have hin : (newfs manyGroups).value.1.blocksIn 0 = 8192 := by decide +kernel
  refine ⟨⟨hv, ha⟩, hover, hin, by decide +kernel, by decide +kernel, ?_⟩
  rintro ⟨fs, hfs, hr⟩
  have hl := mke2fs_laid (ha.sizes hv.inodesize hv.minfree)
  have hw := mke2fs_words (main_inodes_lt hv)
  rw [← newfs_value] at hl hw
  have hgroups : 0 < (newfs manyGroups).value.1.gcount := by decide +kernel
  have hle := ((hr 0 0).fits (ha.sizes hv.inodesize hv.minfree) hl hw hfs).2 0 hgroups
  rw [hover, hin] at hle
  exact absurd hle (by decide)

end Ext2fs.Newfs
