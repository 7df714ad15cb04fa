import Ext2fs.SbGeometry
import Ext2fs.Bmap
import Ext2fs.InodeCnv

/-!
# The largest file

`compute_sb_data` bounds the size of a file by what its block tree can address and by what its block
count can hold.  A file with all its blocks also has the indirect blocks of their paths, and those
count in `i_blocks` too; the bound leaves them out.

* `card_indirectBlocks` — the number of indirect blocks over the first blocks of a file;
* `limits_iff` — up to `e2fs_maxfilesize` every block has a path, and the block count of a full file
  is kept on disk exactly when the volume is not one of 4 KiB blocks with `large_file` and without
  `huge_file`, or the file ends before the last 524290 blocks of the allowed range.
-/

namespace Ext2fs

variable {N n : ℕ}

/-! ### Indirect blocks -/

/-- The indirect blocks on the path to a logical block: the slot of the path, a height above the
data, and the number of the block among those of its height. -/
def indirectOver (N lbn : ℕ) : Finset (ℕ × ℕ × ℕ) :=
  match locate N lbn with
  | some (r, off) => (Finset.range (height r)).image fun j => (r, j + 1, off / N ^ (j + 1))
  | none => ∅

/-- The indirect blocks of a file whose first `n` logical blocks are all allocated. -/
def indirectBlocks (N n : ℕ) : Finset (ℕ × ℕ × ℕ) := (Finset.range n).biUnion (indirectOver N)

/-- How many of the first `n` logical blocks are below a slot. -/
def belowSlot (N n r : ℕ) : ℕ := min (n - base N r) (N ^ height r)

/-- The number of blocks of a height over the blocks below a slot. -/
def atHeight (N n r j : ℕ) : ℕ := (belowSlot N n r + (N ^ j - 1)) / N ^ j

theorem lt_atHeight_iff (hN : 0 < N) {r j k : ℕ} :
    k < atHeight N n r j ↔ k * N ^ j < belowSlot N n r := by
  have hpos : 0 < N ^ j := Nat.pow_pos hN
  rw [atHeight, Nat.lt_iff_add_one_le, Nat.le_div_iff_mul_le hpos, Nat.succ_mul]
  omega

theorem mem_indirectBlocks (hN : 0 < N) {r j k : ℕ} :
    (r, j, k) ∈ indirectBlocks N n ↔
      r < NSLOTS ∧ 1 ≤ j ∧ j ≤ height r ∧ k < atHeight N n r j := by
  rw [lt_atHeight_iff hN]
  simp only [indirectBlocks, Finset.mem_biUnion, Finset.mem_range]
  constructor
  · rintro ⟨lbn, hlbn, hmem⟩
    unfold indirectOver at hmem
    cases hl : locate N lbn with
    | none => simp [hl] at hmem
    | some p =>
      obtain ⟨r', off⟩ := p
      obtain ⟨hr, hoff, hbase⟩ := locate_eq_some.1 hl
      simp only [hl, Finset.mem_image, Finset.mem_range, Prod.mk.injEq] at hmem
      obtain ⟨j', hj', rfl, rfl, rfl⟩ := hmem
      have hle := Nat.div_mul_le_self off (N ^ (j' + 1))
      exact ⟨hr, by omega, by omega, by unfold belowSlot; omega⟩
  · rintro ⟨hr, hj, hj', hk⟩
    unfold belowSlot at hk
    refine ⟨base N r + k * N ^ j, by omega, ?_⟩
    have hl : locate N (base N r + k * N ^ j) = some (r, k * N ^ j) :=
      locate_eq_some.2 ⟨hr, by omega, rfl⟩
    simp only [indirectOver, hl, Finset.mem_image, Finset.mem_range, Prod.mk.injEq]
    refine ⟨j - 1, by omega, trivial, by omega, ?_⟩
    rw [Nat.sub_add_cancel hj, Nat.mul_div_cancel _ (Nat.pow_pos hN)]

/-- The places of indirect blocks: a slot and a height. -/
def places : Finset (ℕ × ℕ) := {(12, 1), (13, 1), (13, 2), (14, 1), (14, 2), (14, 3)}

theorem mem_places {r j : ℕ} : (r, j) ∈ places ↔ r < NSLOTS ∧ 1 ≤ j ∧ j ≤ height r := by
  simp only [places, Finset.mem_insert, Finset.mem_singleton, Prod.mk.injEq, NSLOTS, NDADDR, NIADDR,
    height]
  omega

/-- The number of indirect blocks, place by place. -/
theorem card_indirectBlocks (hN : 0 < N) :
    (indirectBlocks N n).card = ∑ p ∈ places, atHeight N n p.1 p.2 := by
  have heq : indirectBlocks N n =
      places.biUnion fun p => (Finset.range (atHeight N n p.1 p.2)).image fun k => (p.1, p.2, k) := by
    ext ⟨r, j, k⟩
    rw [mem_indirectBlocks hN]
    simp only [Finset.mem_biUnion, Finset.mem_image, Finset.mem_range, Prod.exists, Prod.mk.injEq]
    constructor
    · rintro ⟨hr, hj, hj', hk⟩
      exact ⟨r, j, mem_places.2 ⟨hr, hj, hj'⟩, k, hk, rfl, rfl, rfl⟩
    · rintro ⟨r, j, hp, k, hk, rfl, rfl, rfl⟩
      obtain ⟨hr, hj, hj'⟩ := mem_places.1 hp
      exact ⟨hr, hj, hj', hk⟩
  rw [heq, Finset.card_biUnion]
  · apply Finset.sum_congr rfl
    intro p _
    rw [Finset.card_image_of_injective _ fun a b h => by simpa using h, Finset.card_range]
  · intro p _ q _ hne
    apply Finset.disjoint_left.2
    intro x hx hx'
    simp only [Finset.mem_image, Finset.mem_range] at hx hx'
    obtain ⟨k, -, rfl⟩ := hx
    obtain ⟨k', -, h⟩ := hx'
    simp only [Prod.mk.injEq] at h
    exact hne (Prod.ext h.1.symm h.2.1.symm)

/-- No more indirect blocks than full trees have. -/
theorem atHeight_le (hN : 0 < N) {r j : ℕ} (hj : j ≤ height r) :
    atHeight N n r j ≤ N ^ (height r - j) := by
  have hpos : 0 < N ^ j := Nat.pow_pos hN
  have hle : belowSlot N n r ≤ N ^ (height r - j) * N ^ j := by
    rw [← pow_add, Nat.sub_add_cancel hj]
    exact min_le_right _ _
  have hlt : atHeight N n r j < N ^ (height r - j) + 1 := by
    rw [atHeight, Nat.div_lt_iff_lt_mul hpos, Nat.succ_mul]
    omega
  omega

theorem card_indirectBlocks_le (hN : 0 < N) :
    (indirectBlocks N n).card ≤ 3 + 2 * N + N ^ 2 := by
  rw [card_indirectBlocks hN]
  have h1 := atHeight_le (n := n) hN (show 1 ≤ height 12 by decide)
  have h2 := atHeight_le (n := n) hN (show 1 ≤ height 13 by decide)
  have h3 := atHeight_le (n := n) hN (show 2 ≤ height 13 by decide)
  have h4 := atHeight_le (n := n) hN (show 1 ≤ height 14 by decide)
  have h5 := atHeight_le (n := n) hN (show 2 ≤ height 14 by decide)
  have h6 := atHeight_le (n := n) hN (show 3 ≤ height 14 by decide)
  simp only [height_single, height_double, height_triple, Nat.sub_self, pow_zero, pow_one,
    Nat.reduceSub] at h1 h2 h3 h4 h5 h6
  have hsum : ∑ p ∈ places, atHeight N n p.1 p.2 = atHeight N n 12 1 + (atHeight N n 13 1 +
      (atHeight N n 13 2 + (atHeight N n 14 1 + (atHeight N n 14 2 + atHeight N n 14 3)))) := by
    simp [places]
  omega

/-! ### The block count on disk -/

/-- The two halves of a block count joined again. -/
theorem join_count (x : BitVec 64) :
    (x.setWidth 32).setWidth 64 ||| ((x >>> 32).setWidth 16).setWidth 64 <<< 32 =
      (x.setWidth 48).setWidth 64 := by
  ext i hi
  by_cases h : i < 32
  · simp [h, show i < 48 by omega, BitVec.getLsbD_eq_getElem hi]
  · simp [h, show i - 32 < 16 ↔ i < 48 by omega, show 32 + (i - 32) = i by omega,
      BitVec.getLsbD_eq_getElem hi]

/-- The block count is read back exactly when it fits its field. -/
theorem reread_blocks_iff {fs : MExt2fs} {hasXtime : Bool} {ei : Ext2fsDinode} (ip : CoreInode) :
    (reread fs hasXtime ip ei).i_blocks = ip.i_blocks ↔
      ip.i_blocks.toNat < if fs.hugeFile then 2 ^ 48 else 2 ^ 32 := by
  obtain ⟨-, -, -, -, -, hhuge⟩ := diskWord_bits (ip.i_flags &&& SF_APPEND ≠ 0)
    (ip.i_flags &&& SF_IMMUTABLE ≠ 0) (ip.i_flags &&& UF_NODUMP ≠ 0)
    (ip.i_flag &&& IN_E4INDEX ≠ 0) (ip.i_flag &&& IN_E4EXTENTS ≠ 0)
  simp only [reread, ext2I2ei, ext2Ei2i, hhuge, ne_eq, not_true, if_false]
  cases fs.hugeFile
  · exact setWidth_setWidth_iff
  · simp only [if_true, join_count]
    exact setWidth_setWidth_iff

/-- The 512-byte units of a file of `size` bytes that has all its blocks, the indirect ones
included. -/
def fullBlocks (fs : MExt2fs) (size : ℕ) : ℕ :=
  let n := fs.coveredBlocks size
  (n + (indirectBlocks fs.nindir n).card) * btodb fs.bsize

/-- Every logical block of a file of `size` bytes has a path. -/
def TreeHolds (fs : MExt2fs) (size : ℕ) : Prop :=
  ∀ lbn : ℕ, lbn < fs.coveredBlocks size → ∃ path, ext2Getlbns fs.nindir lbn = .ok path

/-- The block count of a full file of `size` bytes survives being written and read again. -/
def CountHolds (fs : MExt2fs) (size : ℕ) : Prop :=
  ∀ (hasXtime : Bool) (ip : CoreInode) (ei : Ext2fsDinode), S_ISREG ip.i_mode = true →
    ip.i_blocks.toNat = fullBlocks fs size →
      (reread fs hasXtime ip ei).i_blocks = ip.i_blocks

/-! ### The limits -/

section Limits

variable (fs : MExt2fs) {size : ℕ}

theorem coveredBlocks_le_tree (hsize : size ≤ fs.maxfilesize) :
    fs.coveredBlocks size ≤ 12 + fs.nindir + fs.nindir ^ 2 + fs.nindir ^ 3 := by
  have hmax := hsize.trans fs.maxfilesize_le
  have hpos := fs.bsize_pos
  unfold MExt2fs.coveredBlocks MExt2fs.lblkno
  apply Nat.le_of_lt_succ
  rw [Nat.div_lt_iff_lt_mul hpos, Nat.succ_mul]
  omega

/-- Up to the largest size every block has a path. -/
theorem treeHolds (hsize : size ≤ fs.maxfilesize) : TreeHolds fs size := by
  intro lbn hlbn
  have hle := coveredBlocks_le_tree fs hsize
  by_cases h12 : lbn < 12
  · exact ⟨[], getlbns_direct h12⟩
  · cases hl : locate fs.nindir lbn with
    | none =>
      have hge := locate_eq_none.1 hl
      omega
    | some p =>
      obtain ⟨r, off⟩ := p
      have hr : 12 ≤ r := by
        by_contra hlt
        obtain ⟨-, hoff, hbase⟩ := locate_eq_some.1 hl
        rw [height_direct (by omega), pow_zero] at hoff
        rw [base_direct (by omega)] at hbase
        omega
      obtain ⟨ap, path, hget, -⟩ := getlbns_path fs.nindir_pos fs.nindir_lt hl hr
      exact ⟨_, hget⟩

/-- A full file has fewer blocks than a field of 48 bits counts. -/
theorem fullBlocks_lt (hsize : size ≤ fs.maxfilesize) : fullBlocks fs size < 2 ^ 48 := by
  have hn := coveredBlocks_le_tree fs hsize
  have hcard := card_indirectBlocks_le (n := fs.coveredBlocks size) fs.nindir_pos
  unfold fullBlocks btodb
  unfold MExt2fs.nindir at hn hcard ⊢
  rcases fs.bsize_cases with h | h | h <;>
    · rw [h] at hn hcard ⊢
      norm_num at hn hcard ⊢
      omega

theorem countHolds_iff (hsize : size ≤ fs.maxfilesize) :
    CountHolds fs size ↔ fullBlocks fs size < if fs.hugeFile then 2 ^ 48 else 2 ^ 32 := by
  constructor
  · intro h
    have hlt := fullBlocks_lt fs hsize
    have h64 : (BitVec.ofNat 64 (fullBlocks fs size)).toNat = fullBlocks fs size := by
      rw [BitVec.toNat_ofNat]
      exact Nat.mod_eq_of_lt (by omega)
    have hreg : S_ISREG 0x8000 = true := by decide
    have hip := h false { CoreInode.zero with
      i_mode := 0x8000, i_blocks := BitVec.ofNat 64 (fullBlocks fs size) } plainDinode hreg h64
    rw [reread_blocks_iff, h64] at hip
    exact hip
  · intro h hasXtime ip ei _ hip
    rw [reread_blocks_iff, hip]
    exact h

/-- The units of `n` blocks and their indirect blocks, with 1024 pointers in a block. -/
theorem units_4k (n : ℕ) :
    (n + ((min (n - 12) 1024 + 1023) / 1024 + ((min (n - 1036) 1048576 + 1023) / 1024 +
      ((min (n - 1036) 1048576 + 1048575) / 1048576 +
        ((min (n - 1049612) 1073741824 + 1023) / 1024 +
          ((min (n - 1049612) 1073741824 + 1048575) / 1048576 +
            (min (n - 1049612) 1073741824 + 1073741823) / 1073741824)))))) * 8 < 4294967296 ↔
      n ≤ 536346622 := by
  omega

/-- With 4 KiB blocks the last file that 32 bits count has 536346622 blocks of data. -/
theorem fullBlocks_4k (h4k : fs.bsize = 4096) :
    fullBlocks fs size < 2 ^ 32 ↔ size ≤ 536346622 * 4096 := by
  have hn : fs.coveredBlocks size ≤ 536346622 ↔ size ≤ 536346622 * 4096 := by
    unfold MExt2fs.coveredBlocks MExt2fs.lblkno
    rw [h4k]
    omega
  have hnindir : fs.nindir = 1024 := by
    unfold MExt2fs.nindir
    rw [h4k]
  rw [← hn, fullBlocks, hnindir, h4k, card_indirectBlocks (by decide)]
  generalize fs.coveredBlocks size = n
  have hsum : ∑ p ∈ places, atHeight 1024 n p.1 p.2 =
      atHeight 1024 n 12 1 + (atHeight 1024 n 13 1 + (atHeight 1024 n 13 2 +
        (atHeight 1024 n 14 1 + (atHeight 1024 n 14 2 + atHeight 1024 n 14 3)))) := by
    simp [places]
  rw [hsum]
  simp only [atHeight, belowSlot, base_single, base_double, base_triple, height_single,
    height_double, height_triple, btodb]
  norm_num
  exact units_4k n

/-- With smaller blocks 32 bits count every file. -/
theorem fullBlocks_small (hsize : size ≤ fs.maxfilesize)
    (h : fs.bsize ≠ 4096 ∨ fs.largefile = false) : fullBlocks fs size < 2 ^ 32 := by
  have hn := coveredBlocks_le_tree fs hsize
  have hcard := card_indirectBlocks_le (n := fs.coveredBlocks size) fs.nindir_pos
  by_cases h4k : fs.bsize = 4096
  · -- 2 GiB less a byte
    have hlarge : fs.largefile = false := h.resolve_left fun hne => hne h4k
    rw [fullBlocks_4k fs h4k]
    simp only [MExt2fs.maxfilesize, hlarge, Bool.false_eq_true, if_false] at hsize
    omega
  · unfold fullBlocks btodb
    unfold MExt2fs.nindir at hn hcard ⊢
    rcases fs.bsize_cases with h | h | h
    · rw [h] at hn hcard ⊢
      norm_num at hn hcard ⊢
      omega
    · rw [h] at hn hcard ⊢
      norm_num at hn hcard ⊢
      omega
    · exact absurd h h4k

end Limits

/-- The volume keeps its block count in 32 bits and has files whose count needs more. -/
def CountTooNarrow (es : Superblock) : Prop :=
  es.e2fs_log_bsize = 2 ∧ es.e2fs_rev ≠ E2FS_REV0 ∧ es.hasRoCompat EXT2F_ROCOMPAT_LARGEFILE = true ∧
    es.hasRoCompat EXT2F_ROCOMPAT_HUGE_FILE = false

/-- **The limits.**  Up to the `e2fs_maxfilesize` of a mounted volume the block tree holds every file;
the block count on disk holds it exactly when the volume's count is not too narrow or the file has at
most 536346622 blocks of data. -/
theorem limits_iff {es : Superblock} {ronly : Bool} {D : Type} {bread : ℤ → Except Errno D}
    {mount : SbData D} (hcheck : ext2CheckSbCompat es ronly = 0)
    (hmount : computeSbData bread es = .ok mount) {size : ℕ} (hsize : size ≤ mount.maxfilesize) :
    TreeHolds (es.mounted ronly hcheck) size ∧ CountHolds (es.mounted ronly hcheck) size ↔
      ¬CountTooNarrow es ∨ size ≤ 536346622 * 4096 := by
  have hd := sbGeometry_ok (computeSbData_ok hmount).1
  have hbsize : mount.bsize = (es.mounted ronly hcheck).bsize := by
    rw [hd.bsize, hd.bshift]
    rfl
  rw [hd.maxfilesize, hbsize, largestFile_mounted] at hsize
  rw [and_iff_right (treeHolds _ hsize), countHolds_iff _ hsize]
  have hlog : es.e2fs_log_bsize = 2 ↔ (es.mounted ronly hcheck).bsize = 4096 := by
    have hle := (checkSbCompat_ok hcheck).1
    constructor
    · intro h2
      show 2 ^ (10 + es.e2fs_log_bsize.toNat) = 4096
      rw [h2]
      rfl
    · intro h4k
      apply BitVec.eq_of_toNat_eq
      have h4k : 2 ^ (10 + es.e2fs_log_bsize.toNat) = 2 ^ 12 := h4k
      have := Nat.pow_right_injective le_rfl h4k
      show _ = 2
      omega
  unfold CountTooNarrow
  rw [hlog]
  by_cases hhuge : es.hasRoCompat EXT2F_ROCOMPAT_HUGE_FILE = true
  · have hf : (es.mounted ronly hcheck).hugeFile = true := hhuge
    simp only [hf, hhuge, if_true, Bool.true_eq_false, and_false, not_false_eq_true, true_or,
      iff_true]
    exact fullBlocks_lt _ hsize
  · have hf : (es.mounted ronly hcheck).hugeFile = false := Bool.eq_false_iff.2 hhuge
    simp only [hf, Bool.false_eq_true, if_false]
    by_cases h4k : (es.mounted ronly hcheck).bsize = 4096
    · by_cases hlarge : (es.mounted ronly hcheck).largefile = true
      · have hl : es.e2fs_rev ≠ E2FS_REV0 ∧ es.hasRoCompat EXT2F_ROCOMPAT_LARGEFILE = true := by
          simpa [Superblock.mounted] using hlarge
        rw [fullBlocks_4k _ h4k]
        simp [h4k, hl, hhuge]
      · have hl : ¬(es.e2fs_rev ≠ E2FS_REV0 ∧ es.hasRoCompat EXT2F_ROCOMPAT_LARGEFILE = true) := by
          intro h
          apply hlarge
          simpa [Superblock.mounted] using h
        have hnarrow : ¬((es.mounted ronly hcheck).bsize = 4096 ∧ es.e2fs_rev ≠ E2FS_REV0 ∧
            es.hasRoCompat EXT2F_ROCOMPAT_LARGEFILE = true ∧
              es.hasRoCompat EXT2F_ROCOMPAT_HUGE_FILE = false) :=
          fun h => hl ⟨h.2.1, h.2.2.1⟩
        simp only [hnarrow, not_false_eq_true, true_or, iff_true]
        exact fullBlocks_small _ hsize (Or.inr (Bool.eq_false_iff.2 hlarge))
    · simp only [h4k, false_and, not_false_eq_true, true_or, iff_true]
      exact fullBlocks_small _ hsize (Or.inl h4k)

theorem plainSb_limits :
    ∃ hcheck : ext2CheckSbCompat plainSb false = 0,
      TreeHolds (plainSb.mounted false hcheck) 0x7fffffff ∧
          CountHolds (plainSb.mounted false hcheck) 0x7fffffff ↔
        ¬CountTooNarrow plainSb ∨ 0x7fffffff ≤ 536346622 * 4096 := by
  have hmount : computeSbData (fun _ => .ok ()) plainSb = .ok plainMount := by decide +kernel
  have hcheck : ext2CheckSbCompat plainSb false = 0 := by decide +kernel
  exact ⟨hcheck, limits_iff hcheck hmount (le_of_eq rfl)⟩

/-- A volume of 4 TiB in blocks of 4 KiB, with `large_file`. -/
def large4k : Superblock :=
  { plainSb with
    e2fs_icount := 0x10000000
    e2fs_bcount := 0x40000000
    e2fs_first_dblock := 0
    e2fs_log_bsize := 2
    e2fs_log_fsize := 2
    e2fs_bpg := 32768
    e2fs_fpg := 32768
    e2fs_ipg := 8192
    e2fs_features_rocompat := EXT2F_ROCOMPAT_SPARSESUPER ||| EXT2F_ROCOMPAT_LARGEFILE }

/-- What `compute_sb_data` makes of it. -/
def large4kMount : SbData Unit where
  bshift := 12
  bsize := 4096
  fsbtodb := 3
  fsize := 4096
  fpb := 1
  bpg := 32768
  fpg := 32768
  ipg := 8192
  isize := 128
  ipb := 32
  itpg := 256
  gcount := 32768
  gdsize := 32
  gdbcount := 256
  maxfilesize := (2 ^ 32 - 1) * 512
  gd := List.replicate 256 ()

/-- On such a volume the driver accepts a file of 536346623 blocks and loses the block count. -/
theorem large4k_loses_count :
    computeSbData (fun _ => .ok ()) large4k = .ok large4kMount ∧
      536346623 * 4096 ≤ large4kMount.maxfilesize ∧
      ∃ hcheck : ext2CheckSbCompat large4k false = 0,
        ¬(TreeHolds (large4k.mounted false hcheck) (536346623 * 4096) ∧
          CountHolds (large4k.mounted false hcheck) (536346623 * 4096)) := by
  have hcheck : ext2CheckSbCompat large4k false = 0 := by decide +kernel
  refine ⟨by decide +kernel, by decide +kernel, hcheck, ?_⟩
  rintro ⟨-, hcount⟩
  have hsize : 536346623 * 4096 ≤ (large4k.mounted false hcheck).maxfilesize := by
    rw [← largestFile_mounted]
    show 536346623 * 4096 ≤ largestFile large4k (2 ^ 12)
    decide +kernel
  rw [countHolds_iff _ hsize] at hcount
  have h4k : (large4k.mounted false hcheck).bsize = 4096 := rfl
  have hhuge : (large4k.mounted false hcheck).hugeFile = false := rfl
  rw [hhuge, if_neg Bool.false_ne_true, fullBlocks_4k _ h4k] at hcount
  omega

end Ext2fs
