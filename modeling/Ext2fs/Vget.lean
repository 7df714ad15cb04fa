import Ext2fs.InodeUpdate

/-!
# Filling an inode: `ext2_vget_typed` and `ext2_valloc`

What the two functions do to the fields of an inode: reading it from its place in the inode table,
and patching it for a new file.

* `vgetFill`, `vallocPatch` — the two functions;
* `clearedIndices` — the places in the array of direct pointers that `ext2_vget_typed` writes;
* **`vget_pointers_iff`** — the pointers behind the end of the file are cleared, and nothing else is
  written, exactly where the count of blocks comes through the arithmetic.
-/

namespace Ext2fs

/-- `S_ISDIR` -/
def S_ISDIR (mode : BitVec 16) : Bool := mode &&& 0xf000 == 0x4000

/-! ### `ext2_vget_typed` -/

/-- `used_blocks` of `ext2_vget_typed`: a 64-bit sum and quotient, kept in an `int`. -/
def usedBlocks (fs : MExt2fs) (size : BitVec 64) : ℤ :=
  i32 (((size.toNat + (fs.bsize - 1)) % 2 ^ 64 / fs.bsize : ℕ) : ℤ)

/-- Block pointers for unused blocks are cleared, unless they are an extent tree.  Where `used_blocks`
is negative the loop starts in front of the array and clears all of it. -/
def clearUnused (fs : MExt2fs) (ip : CoreInode) : CoreInode :=
  if ip.i_flag &&& IN_E4EXTENTS = 0 ∧ (S_ISDIR ip.i_mode ∨ S_ISREG ip.i_mode) then
    { ip with i_db := fun i => if usedBlocks fs ip.i_size ≤ i.val then 0 else ip.i_db i }
  else ip

/-- An inode without a generation number is given one. -/
def defaultGen (ronly : Bool) (rand : BitVec 32) (ip : CoreInode) : CoreInode :=
  if ip.i_gen = 0 then
    { ip with
      i_gen := rand + 1
      i_flag := if ronly then ip.i_flag else ip.i_flag ||| IN_MODIFIED }
  else ip

/-- The inode that `ext2_vget_typed` reads from its place in the inode table. -/
def vgetFill (fs : MExt2fs) (hasXtime : Bool) (rand : BitVec 32) (ei : Ext2fsDinode) : CoreInode :=
  defaultGen fs.ronly rand (clearUnused fs (ext2Ei2i fs hasXtime ei CoreInode.zero))

/-! ### `ext2_valloc` -/

/-- The new generation number: the old one plus one, or a random one where there was none or the sum
is 0. -/
def nextGen (rand gen : BitVec 32) : BitVec 32 :=
  if gen = 0 ∨ gen + 1 = 0 then (rand >>> 1) + 1 else gen + 1

/-- What `ext2_valloc` does to the inode it has from `ext2_vget_typed`. -/
def vallocPatch (now : Timespec) (rand : BitVec 32) (ip : CoreInode) : CoreInode :=
  { ip with
    i_size := 0
    i_blocks := 0
    i_mode := 0
    i_flags := 0
    i_db := fun _ => 0
    i_ib := fun _ => 0
    i_gen := nextGen rand ip.i_gen
    i_birthtime := now.sec
    i_birthnsec := now.nsec }

/-! ### Small facts -/

section Fields

variable (fs : MExt2fs) (hasXtime ronly : Bool) (rand : BitVec 32) (ei : Ext2fsDinode)
  (ip : CoreInode)

@[simp] theorem clearUnused_nlink : (clearUnused fs ip).i_nlink = ip.i_nlink := by
  unfold clearUnused
  split <;> rfl

@[simp] theorem clearUnused_mode : (clearUnused fs ip).i_mode = ip.i_mode := by
  unfold clearUnused
  split <;> rfl

@[simp] theorem clearUnused_gen : (clearUnused fs ip).i_gen = ip.i_gen := by
  unfold clearUnused
  split <;> rfl

@[simp] theorem clearUnused_flag : (clearUnused fs ip).i_flag = ip.i_flag := by
  unfold clearUnused
  split <;> rfl

@[simp] theorem defaultGen_nlink : (defaultGen ronly rand ip).i_nlink = ip.i_nlink := by
  unfold defaultGen
  split <;> rfl

@[simp] theorem defaultGen_mode : (defaultGen ronly rand ip).i_mode = ip.i_mode := by
  unfold defaultGen
  split <;> rfl

/-- The link count is the one on disk, read as a signed number from here on. -/
@[simp] theorem vgetFill_nlink : (vgetFill fs hasXtime rand ei).i_nlink = ei.e2di_nlink := by
  simp [vgetFill, ext2Ei2i]

/-- A file without links has no mode. -/
@[simp] theorem vgetFill_mode :
    (vgetFill fs hasXtime rand ei).i_mode = if ei.e2di_nlink ≠ 0 then ei.e2di_mode else 0 := by
  simp [vgetFill, ext2Ei2i]

/-- The generation number is the one on disk, if there is one. -/
theorem vgetFill_gen :
    (vgetFill fs hasXtime rand ei).i_gen = if ei.e2di_gen = 0 then rand + 1 else ei.e2di_gen := by
  unfold vgetFill defaultGen
  rw [clearUnused_gen]
  show (if ei.e2di_gen = 0 then _ else _ : CoreInode).i_gen = _
  split
  · rfl
  · rw [clearUnused_gen]
    rfl

/-- An inode that is given a generation number is dirty, on a mount for writing. -/
theorem vgetFill_dirty (hrw : fs.ronly = false) (hgen : ei.e2di_gen = 0) :
    (vgetFill fs hasXtime rand ei).Dirty := by
  have h0 : (clearUnused fs (ext2Ei2i fs hasXtime ei CoreInode.zero)).i_gen = 0 := by
    rw [clearUnused_gen]
    exact hgen
  unfold vgetFill defaultGen
  rw [if_pos h0, hrw]
  exact CoreInode.dirty_mark _ IN_MODIFIED (by decide)

/-- Any other is as it was read, but for the pointers that are cleared. -/
theorem vgetFill_of_gen (hgen : ei.e2di_gen ≠ 0) :
    vgetFill fs hasXtime rand ei = clearUnused fs (ext2Ei2i fs hasXtime ei CoreInode.zero) := by
  unfold vgetFill defaultGen
  apply if_neg
  rw [clearUnused_gen]
  exact hgen

end Fields

/-! ### The pointers behind the end of the file -/

/-- The indices of the loop from `used_blocks` up to the last direct pointer. -/
def clearFrom (used : ℤ) : List ℤ := (List.range (12 - used).toNat).map fun k : ℕ => used + k

/-- A file or a directory whose pointers are no extent tree. -/
def CoreInode.BlockMapped (ip : CoreInode) : Prop :=
  ip.i_flag &&& IN_E4EXTENTS = 0 ∧ (S_ISDIR ip.i_mode ∨ S_ISREG ip.i_mode)

instance (ip : CoreInode) : Decidable ip.BlockMapped :=
  inferInstanceAs (Decidable (_ ∧ (_ ∨ _)))

/-- The indices of `i_db` at which `ext2_vget_typed` writes a zero. -/
def clearedIndices (fs : MExt2fs) (ip : CoreInode) : List ℤ :=
  if ip.BlockMapped then clearFrom (usedBlocks fs ip.i_size) else []

/-- An inode as it is read: every direct pointer behind the end of a block-mapped file or directory is
written zero, every other pointer is the one on disk, and no other place is written. -/
structure PointersRight (fs : MExt2fs) (hasXtime : Bool) (rand : BitVec 32) (ei : Ext2fsDinode) : Prop where
  inside : ∀ i ∈ clearedIndices fs (ext2Ei2i fs hasXtime ei CoreInode.zero), 0 ≤ i ∧ i < 12
  exactly : ∀ k : Fin 12, ((k : ℕ) : ℤ) ∈ clearedIndices fs (ext2Ei2i fs hasXtime ei CoreInode.zero) ↔
    (ext2Ei2i fs hasXtime ei CoreInode.zero).BlockMapped ∧
      fs.coveredBlocks (ext2Ei2i fs hasXtime ei CoreInode.zero).i_size.toNat ≤ k
  direct : ∀ k : Fin 12, (vgetFill fs hasXtime rand ei).i_db k =
    if (ext2Ei2i fs hasXtime ei CoreInode.zero).BlockMapped ∧
      fs.coveredBlocks (ext2Ei2i fs hasXtime ei CoreInode.zero).i_size.toNat ≤ k then 0
    else ei.e2di_blocks (k.castLE (by decide))
  indirect : ∀ k : Fin 3, (vgetFill fs hasXtime rand ei).i_ib k = ei.e2di_blocks (k.natAdd 12)

/-- The count of the blocks of a file comes through: the sum before the division stays below `2 ^ 64`,
and a count above the direct pointers stays there when it is cut to a signed word. -/
def CountFits (fs : MExt2fs) (size : ℕ) : Prop :=
  size + (fs.bsize - 1) < 2 ^ 64 ∧
    (fs.coveredBlocks size < 12 ∨
      12 ≤ fs.coveredBlocks size % 2 ^ 32 ∧ fs.coveredBlocks size % 2 ^ 32 < 2 ^ 31)

section Pointers

variable {fs : MExt2fs} {hasXtime : Bool} {rand : BitVec 32} {ei : Ext2fsDinode} {ip : CoreInode}

theorem mem_clearFrom {used i : ℤ} : i ∈ clearFrom used ↔ used ≤ i ∧ i < 12 := by
  unfold clearFrom
  rw [List.mem_map]
  constructor
  · intro ⟨k, hk, hi⟩
    have hk := List.mem_range.1 hk
    omega
  · intro ⟨hle, hlt⟩
    exact ⟨(i - used).toNat, List.mem_range.2 (by omega), by omega⟩

theorem mem_clearedIndices {i : ℤ} :
    i ∈ clearedIndices fs ip ↔ ip.BlockMapped ∧ usedBlocks fs ip.i_size ≤ i ∧ i < 12 := by
  unfold clearedIndices
  split
  · next h => rw [mem_clearFrom, and_iff_right h]
  · next h => exact ⟨fun hi => absurd hi List.not_mem_nil, fun hi => absurd hi.1 h⟩

theorem clearUnused_db (k : Fin 12) : (clearUnused fs ip).i_db k =
    if ip.BlockMapped ∧ usedBlocks fs ip.i_size ≤ k then 0 else ip.i_db k := by
  unfold clearUnused
  split
  · next h =>
    have hmap : ip.BlockMapped := h
    simp only [hmap, true_and]
  · next h =>
    have hmap : ¬ip.BlockMapped := h
    exact (if_neg fun hk => hmap hk.1).symm

/-- The pointers after the loop. -/
theorem vgetFill_db (k : Fin 12) : (vgetFill fs hasXtime rand ei).i_db k =
    if ((k : ℕ) : ℤ) ∈ clearedIndices fs (ext2Ei2i fs hasXtime ei CoreInode.zero) then 0
    else ei.e2di_blocks (k.castLE (by decide)) := by
  have hgen : ∀ ip, (defaultGen fs.ronly rand ip).i_db = ip.i_db := by
    intro ip
    unfold defaultGen
    split <;> rfl
  have hk : ((k : ℕ) : ℤ) < 12 := by omega
  unfold vgetFill
  rw [hgen, clearUnused_db]
  simp only [mem_clearedIndices, hk, and_true]
  rfl

theorem vgetFill_ib (k : Fin 3) : (vgetFill fs hasXtime rand ei).i_ib k = ei.e2di_blocks (k.natAdd 12) := by
  have hgen : ∀ ip, (defaultGen fs.ronly rand ip).i_ib = ip.i_ib := by
    intro ip
    unfold defaultGen
    split <;> rfl
  have hclear : ∀ ip, (clearUnused fs ip).i_ib = ip.i_ib := by
    intro ip
    unfold clearUnused
    split <;> rfl
  unfold vgetFill
  rw [hgen, hclear]
  rfl

/-- Where the count comes through, the loop starts at the end of the file. -/
theorem usedBlocks_le_iff {size : BitVec 64} (h : CountFits fs size.toNat) {i : ℤ} (hi : i < 12) :
    usedBlocks fs size ≤ i ↔ (fs.coveredBlocks size.toNat : ℤ) ≤ i := by
  have hpos := fs.bsize_pos
  have hcount : (size.toNat + (fs.bsize - 1)) / fs.bsize = fs.coveredBlocks size.toNat := by
    unfold MExt2fs.coveredBlocks MExt2fs.lblkno
    rw [Nat.add_sub_assoc hpos]
  obtain ⟨hsum, hcases⟩ := h
  unfold usedBlocks
  rw [Nat.mod_eq_of_lt hsum, hcount]
  rcases hcases with hlt | ⟨hge, hlt⟩
  · rw [i32_of_lt (by omega) (by omega)]
  · unfold i32
    rw [if_pos (by omega)]
    omega

/-- A sum that wraps is smaller than a block. -/
theorem usedBlocks_wrapped {size : BitVec 64} (h : 2 ^ 64 ≤ size.toNat + (fs.bsize - 1)) :
    usedBlocks fs size = 0 := by
  have hsize := size.isLt
  have hblock := fs.bsize_cases
  have hmod : (size.toNat + (fs.bsize - 1)) % 2 ^ 64 < fs.bsize := by omega
  unfold usedBlocks
  rw [Nat.div_eq_of_lt hmod]
  decide

/-- **The pointers of an inode that is read are right** exactly where the count of its blocks comes
through. -/
theorem vget_pointers_iff (fs : MExt2fs) (hasXtime : Bool) (rand : BitVec 32) (ei : Ext2fsDinode) :
    PointersRight fs hasXtime rand ei ↔
      ((ext2Ei2i fs hasXtime ei CoreInode.zero).BlockMapped →
        CountFits fs (ext2Ei2i fs hasXtime ei CoreInode.zero).i_size.toNat) := by
  constructor
  · intro h hmap
    have hexact := h.exactly
    have hinside := h.inside
    simp only [mem_clearedIndices, hmap, true_and] at hexact hinside
    generalize (ext2Ei2i fs hasXtime ei CoreInode.zero).i_size = size at hexact hinside
    have hsum : size.toNat + (fs.bsize - 1) < 2 ^ 64 := by
      by_contra hge
      have hpos := fs.bsize_pos
      have hzero := (hexact 0).1 ⟨(usedBlocks_wrapped (not_lt.1 hge)).le, by decide⟩
      have hnone : (size.toNat + fs.bsize - 1) / fs.bsize ≤ 0 := hzero
      have hsmall := (Nat.div_eq_zero_iff_lt hpos).1 (Nat.le_zero.1 hnone)
      have hblock := fs.bsize_cases
      omega
    refine ⟨hsum, ?_⟩
    by_contra hbad
    have hcount : usedBlocks fs size = i32 (fs.coveredBlocks size.toNat : ℕ) := by
      have hpos := fs.bsize_pos
      unfold usedBlocks MExt2fs.coveredBlocks MExt2fs.lblkno
      rw [Nat.mod_eq_of_lt hsum, Nat.add_sub_assoc hpos]
    generalize fs.coveredBlocks size.toNat = n at hexact hcount hbad
    -- the loop starts in front of the array, or among pointers that are in use
    by_cases hneg : usedBlocks fs size < 0
    · have hfront := hinside (usedBlocks fs size) ⟨le_refl _, by omega⟩
      omega
    · have hlast := hexact ⟨11, by decide⟩
      simp only at hlast
      rw [hcount] at hlast hneg
      unfold i32 at hlast hneg
      split at hlast <;> omega
  · intro h
    have hmem : ∀ i : ℤ, i ∈ clearedIndices fs (ext2Ei2i fs hasXtime ei CoreInode.zero) ↔
        (ext2Ei2i fs hasXtime ei CoreInode.zero).BlockMapped ∧
          (fs.coveredBlocks (ext2Ei2i fs hasXtime ei CoreInode.zero).i_size.toNat : ℤ) ≤ i ∧ i < 12 := by
      intro i
      rw [mem_clearedIndices]
      refine and_congr_right fun hmap => ?_
      constructor
      · exact fun ⟨hle, hlt⟩ => ⟨(usedBlocks_le_iff (h hmap) hlt).1 hle, hlt⟩
      · exact fun ⟨hle, hlt⟩ => ⟨(usedBlocks_le_iff (h hmap) hlt).2 hle, hlt⟩
    have hexact : ∀ k : Fin 12,
        ((k : ℕ) : ℤ) ∈ clearedIndices fs (ext2Ei2i fs hasXtime ei CoreInode.zero) ↔
        (ext2Ei2i fs hasXtime ei CoreInode.zero).BlockMapped ∧
          fs.coveredBlocks (ext2Ei2i fs hasXtime ei CoreInode.zero).i_size.toNat ≤ k := by
      intro k
      rw [hmem]
      exact and_congr_right fun _ => by omega
    refine ⟨fun i hi => ?_, hexact, fun k => ?_, vgetFill_ib⟩
    · have hi := (hmem i).1 hi
      omega
    · rw [vgetFill_db]
      simp only [hexact]

end Pointers

/-- A regular file of the given size whose pointers are all in use. -/
def sizedFile (size size_high : BitVec 32) : Ext2fsDinode :=
  { plainDinode with
    e2di_size := size
    e2di_size_high := size_high
    e2di_blocks := fun _ => 1 }

/-- All pointers of a file of `2 ^ 64 - 1` bytes are cleared; for one of `2 ^ 31` blocks the loop starts
in front of the array. -/
theorem vget_pointers_wrong :
    ¬PointersRight volume4k false 0 (sizedFile 0xffffffff 0xffffffff) ∧
      ¬PointersRight volume4k false 0 (sizedFile 0 0x800) := by
  constructor
  · intro h
    exact absurd (h.direct 0) (by decide +kernel)
  · intro h
    have hfront := h.inside (-2 ^ 31) (mem_clearedIndices.2 (by decide +kernel))
    omega

end Ext2fs
