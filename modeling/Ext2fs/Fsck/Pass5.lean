import Ext2fs.Fsck.Divisors
import Ext2fs.Fsck.Pool
import Ext2fs.Fsck.Propagate
import Ext2fs.Lib.WriteBack

/-!
# The bitmaps and the counts are made anew

`pass5` makes both bitmaps of a group from the map of blocks and the states of the inodes, compares
them with the ones in two buffers, and puts them right; and it counts what is free.  The padding of the
inode bitmap is set by whole bytes, and what is counted is not what is set.

* `inodeMap`, `blockMap` — the bitmaps and the counts of a group;
* `pass5` — all groups, with the buffers, and the totals;
* `Pass5Right` — what it is for;
* `inodeMap_eq`, `blockMap_eq` — what the loops leave.
-/

namespace Ext2fs.Fsck

open WriteBack

/-! ### The bitmaps of a group -/

/-- What the passes before have found: the map of the blocks, what lies around it in memory, and the
states of the inodes. -/
structure Found where
  blockmap : ℕ → Bool
  around : ℤ → Bool
  statemap : ℕ → InoState

/-- A directory, for `pass5`. -/
def InoState.isDir : InoState → Bool
  | .dstate | .dclear | .dfound => true
  | _ => false

/-- `setbit` -/
def setbit (map : ℕ → Bool) (i : ℕ) : ℕ → Bool := Function.update map i true

/-- `ibmap`, `nifree` and `ndirs` -/
structure InoMap where
  ibmap : ℕ → Bool
  nifree : ℕ
  ndirs : ℕ

/-- `bbmap` and `nbfree` -/
structure BlkMap where
  bbmap : ℕ → Bool
  nbfree : ℕ

namespace SbImage

variable (fs : SbImage) (f : Found)

/-- The number of the first inode of a group. -/
def firstIno (c : ℕ) : ℕ := u32 (fs.e2fs_ipg.toNat * c + 1 : ℕ)

/-- One round of the loop over the inodes of a group. -/
def inodeRound (statemap : ℕ → InoState) (c : ℕ) (m : InoMap) (i : ℕ) : InoMap :=
  let j := fs.firstIno c + i
  if j < FIRSTINO ∧ j ≠ ROOTINO then
    { m with ibmap := setbit m.ibmap i, nifree := m.nifree - 1 }
  else if fs.e2fs_icount.toNat < j then { m with ibmap := setbit m.ibmap i }
  else
    match statemap j with
    | .ustate => m
    | .dstate | .dclear | .dfound =>
        { ibmap := setbit m.ibmap i, nifree := m.nifree - 1, ndirs := m.ndirs + 1 }
    | .fstate | .fclear => { m with ibmap := setbit m.ibmap i, nifree := m.nifree - 1 }

/-- The loop over the inodes of a group. -/
def inodeMap (statemap : ℕ → InoState) (c : ℕ) : InoMap :=
  (List.range fs.e2fs_ipg.toNat).foldl (fs.inodeRound statemap c) ⟨fun _ => false, fs.e2fs_ipg.toNat, 0⟩

/-- The unused part of the inode map is filled in, from the byte `e2fs_ipg / NBBY` on. -/
def fillUnused (ibmap : ℕ → Bool) : ℕ → Bool := fun i =>
  decide (fs.e2fs_ipg.toNat / NBBY ≤ i / NBBY) || ibmap i

/-- The first block of a group, kept in a `daddr32_t`; `dmax` is that of the next group. -/
def dbase (c : ℕ) : ℤ := i32 (u32 (c * fs.e2fs_bpg.toNat + fs.e2fs_first_dblock.toNat : ℕ))

/-- `testbmap`; the map has a bit for each block of the volume. -/
def testbmap (d : ℤ) : Bool :=
  if 0 ≤ d ∧ d < fs.e2fs_bcount.toNat then f.blockmap d.toNat else f.around d

/-- One round of the loop over the blocks of a group. -/
def blockRound (c : ℕ) (m : BlkMap) (i : ℕ) : BlkMap :=
  let d := fs.dbase c + i
  if fs.testbmap f d = true ∨ fs.e2fs_bcount.toNat ≤ u32 d then
    { m with bbmap := setbit m.bbmap i }
  else { m with nbfree := m.nbfree + 1 }

/-- The rounds of the loop over the blocks of a group. -/
def rounds (c : ℕ) : ℕ := (fs.dbase (c + 1) - fs.dbase c).toNat

/-- The loop over the blocks of a group. -/
def blockMap (c : ℕ) : BlkMap :=
  (List.range (fs.rounds c)).foldl (fs.blockRound f c) ⟨fun _ => false, 0⟩

/-! ### The pass -/

/-- A bitmap block, by its bits. -/
abbrev Bits : Type := Fin (NBBY * fs.bsize) → Bool

/-- The block bitmap of a group, as it is compared and copied. -/
def bbmap (c : ℕ) : fs.Bits := fun k => (fs.blockMap f c).bbmap k

/-- Its inode bitmap. -/
def ibmap (statemap : ℕ → InoState) (c : ℕ) : fs.Bits := fun k =>
  fs.fillUnused (fs.inodeMap statemap c).ibmap k

end SbImage

/-- The counts of a descriptor: `ext2bgd_nbfree`, `ext2bgd_nifree` and `ext2bgd_ndirs`. -/
structure GroupCounts where
  nbfree : ℕ
  nifree : ℕ
  ndirs : ℕ
  deriving DecidableEq, Repr

/-- Where the descriptors have the bitmaps, and the sectors where the device takes and gives a
block. -/
structure GroupTable where
  b_bitmap : ℕ → ℕ
  i_bitmap : ℕ → ℕ
  takes : ℤ → Bool
  front : ∀ a < 0, takes a = false

/-- What is there before the pass; `junk` is what a failing read leaves in a buffer. -/
structure Before (fs : SbImage) where
  disk : ℤ → fs.Bits
  junk : fs.Bits
  gd : ℕ → GroupCounts
  fbcount : ℕ
  ficount : ℕ

/-- The variables of `pass5`; `blk_bitmap` and `ino_bitmap` are buffers of `maps`. -/
structure Pass5 (fs : SbImage) where
  maps : Buffers ℤ fs.Bits
  gd : ℕ → GroupCounts
  cs_nbfree : ℕ
  cs_nifree : ℕ

section

variable (fs : SbImage) (v : GroupTable) (f : Found) (old : Before fs)

/-- `blk_bitmap` -/
def blkBitmap : ℕ := 0

/-- `ino_bitmap`: `getdatablk` finds the buffer of the block bitmap again, if it is of the same
block. -/
def inoBitmap : ℕ := if fs.sector32 (v.b_bitmap 0) = fs.sector64 (v.i_bitmap 0) then 0 else 1

/-- The counts of a descriptor are put right; they have 16 bits. -/
def fixCounts (nbfree nifree ndirs : ℕ) (g : GroupCounts) : GroupCounts :=
  if g = ⟨nbfree, nifree, ndirs⟩ then g
  else ⟨nbfree % 2 ^ 16, nifree % 2 ^ 16, ndirs % 2 ^ 16⟩

/-- The buffers move to the bitmaps of a group, and are put right. -/
def fixBitmaps (c : ℕ) (maps : Buffers ℤ fs.Bits) : Buffers ℤ fs.Bits :=
  let maps := maps.get v.takes old.junk blkBitmap (fs.sector32 (v.b_bitmap c))
  let maps := maps.get v.takes old.junk (inoBitmap fs v) (fs.sector32 (v.i_bitmap c))
  (maps.put blkBitmap (fs.bbmap f c)).put (inoBitmap fs v) (fs.ibmap f.statemap c)

/-- One round of the loop over the groups. -/
def groupRound (st : Pass5 fs) (c : ℕ) : Pass5 fs where
  maps := fixBitmaps fs v f old c st.maps
  gd := Function.update st.gd c
    (fixCounts (fs.blockMap f c).nbfree (fs.inodeMap f.statemap c).nifree
      (fs.inodeMap f.statemap c).ndirs (st.gd c))
  cs_nbfree := u32 (st.cs_nbfree + (fs.blockMap f c).nbfree : ℕ)
  cs_nifree := u32 (st.cs_nifree + (fs.inodeMap f.statemap c).nifree : ℕ)

/-- The loop over the groups; at first no buffer is on a block. -/
def pass5Loop (n : ℕ) : Pass5 fs :=
  (List.range n).foldl (groupRound fs v f old)
    { maps := ⟨old.disk, fun _ => ⟨-1, old.junk, false⟩⟩
      gd := old.gd
      cs_nbfree := 0
      cs_nifree := 0 }

/-- What `pass5` leaves on the device, when the buffers have been written at the end. -/
structure Pass5Result (fs : SbImage) where
  disk : ℤ → fs.Bits
  gd : ℕ → GroupCounts
  fbcount : ℕ
  ficount : ℕ

/-- `pass5`, with all fixes accepted, and `ckfini`. -/
def pass5 : Pass5Result fs :=
  let st := pass5Loop fs v f old fs.gcount
  let same := old.fbcount = st.cs_nbfree ∧ old.ficount = st.cs_nifree
  { disk := (st.maps.flushAll v.takes [blkBitmap, 1]).disk
    gd := st.gd
    fbcount := if same then old.fbcount else st.cs_nbfree
    ficount := if same then old.ficount else st.cs_nifree }

end

/-! ### What the pass is for -/

namespace SbImage

variable (fs : SbImage)

/-- The block that a bit of the block bitmap of a group stands for. -/
def blockOf (c i : ℕ) : ℕ := u32 (c * fs.e2fs_bpg.toNat + fs.e2fs_first_dblock.toNat + i : ℕ)

/-- The inode that a bit of its inode bitmap stands for. -/
def inodeOf (c i : ℕ) : ℕ := c * fs.e2fs_ipg.toNat + i + 1

/-- The sector of a block. -/
def place (b : ℕ) : ℤ := b * 2 ^ (fs.e2fs_log_bsize.toNat + 1)

end SbImage

/-- A reserved inode. -/
def Reserved (j : ℕ) : Prop := j < FIRSTINO ∧ j ≠ ROOTINO

instance (j : ℕ) : Decidable (Reserved j) := inferInstanceAs (Decidable (_ ∧ _))

/-- An inode that is not free: it is reserved or in use, or there is no such inode. -/
def SbImage.Taken (fs : SbImage) (statemap : ℕ → InoState) (j : ℕ) : Prop :=
  Reserved j ∨ fs.e2fs_icount.toNat < j ∨ statemap j ≠ .ustate

instance (fs : SbImage) (statemap : ℕ → InoState) (j : ℕ) : Decidable (fs.Taken statemap j) :=
  inferInstanceAs (Decidable (_ ∨ _))

/-- A block that is not free: it is in use, or there is no such block. -/
def SbImage.Used (fs : SbImage) (blockmap : ℕ → Bool) (b : ℕ) : Prop :=
  blockmap b = true ∨ fs.e2fs_bcount.toNat ≤ b

instance (fs : SbImage) (blockmap : ℕ → Bool) (b : ℕ) : Decidable (fs.Used blockmap b) :=
  inferInstanceAs (Decidable (_ ∨ _))

/-- The clear bits of a bitmap. -/
def clear {n : ℕ} (map : Fin n → Bool) : ℕ := (List.finRange n).countP fun k => !map k

/-- The bitmaps and the counts of a group are right. -/
structure GroupRight (fs : SbImage) (f : Found) (c : ℕ) (bb ib : fs.Bits) (g : GroupCounts) :
    Prop where
  blocks : ∀ i < fs.e2fs_bpg.toNat, ∃ h : i < NBBY * fs.bsize,
    bb ⟨i, h⟩ = true ↔ fs.Used f.blockmap (fs.blockOf c i)
  inodes : ∀ i < fs.e2fs_ipg.toNat, ∃ h : i < NBBY * fs.bsize,
    ib ⟨i, h⟩ = true ↔ fs.Taken f.statemap (fs.inodeOf c i)
  blockPadding : ∀ k : Fin (NBBY * fs.bsize), fs.e2fs_bpg.toNat ≤ k → bb k = true
  inodePadding : ∀ k : Fin (NBBY * fs.bsize), fs.e2fs_ipg.toNat ≤ k → ib k = true
  nbfree : g.nbfree = clear bb
  nifree : g.nifree = clear ib
  ndirs : g.ndirs =
    (List.range fs.e2fs_ipg.toNat).countP fun i => (f.statemap (fs.inodeOf c i)).isDir

/-- The repaired volume: the bitmaps that were made are in their blocks, they and the counts are right,
and so are the totals. -/
structure Repaired (fs : SbImage) (v : GroupTable) (f : Found) (r : Pass5Result fs) : Prop where
  written : ∀ c < fs.gcount, r.disk (fs.place (v.b_bitmap c)) = fs.bbmap f c ∧
    r.disk (fs.place (v.i_bitmap c)) = fs.ibmap f.statemap c
  groups : ∀ c < fs.gcount, GroupRight fs f c (r.disk (fs.place (v.b_bitmap c)))
    (r.disk (fs.place (v.i_bitmap c))) (r.gd c)
  fbcount : r.fbcount = ∑ c ∈ Finset.range fs.gcount, (r.gd c).nbfree
  ficount : r.ficount = ∑ c ∈ Finset.range fs.gcount, (r.gd c).nifree

/-- **What `pass5` is for**: whatever was on the device and in memory, the volume is repaired. -/
def Pass5Right (fs : SbImage) (v : GroupTable) (blockmap : ℕ → Bool) (statemap : ℕ → InoState) :
    Prop :=
  ∀ around old, Repaired fs v ⟨blockmap, around, statemap⟩ (pass5 fs v ⟨blockmap, around, statemap⟩ old)

/-! ### What the loops leave -/

namespace SbImage

/-- An inode that is taken off `nifree`. -/
def Counted (fs : SbImage) (statemap : ℕ → InoState) (j : ℕ) : Prop :=
  Reserved j ∨ ¬fs.e2fs_icount.toNat < j ∧ statemap j ≠ .ustate

/-- An inode that is counted as a directory. -/
def CountedDir (fs : SbImage) (statemap : ℕ → InoState) (j : ℕ) : Prop :=
  ¬Reserved j ∧ ¬fs.e2fs_icount.toNat < j ∧ (statemap j).isDir = true

instance (fs : SbImage) (statemap : ℕ → InoState) (j : ℕ) : Decidable (fs.Counted statemap j) :=
  inferInstanceAs (Decidable (_ ∨ _))

instance (fs : SbImage) (statemap : ℕ → InoState) (j : ℕ) : Decidable (fs.CountedDir statemap j) :=
  inferInstanceAs (Decidable (_ ∧ _))

/-- A block whose bit is set. -/
def Marked (fs : SbImage) (f : Found) (d : ℤ) : Prop :=
  fs.testbmap f d = true ∨ fs.e2fs_bcount.toNat ≤ u32 d

instance (fs : SbImage) (f : Found) (d : ℤ) : Decidable (fs.Marked f d) :=
  inferInstanceAs (Decidable (_ ∨ _))

variable {fs : SbImage} {f : Found} {statemap : ℕ → InoState} {c : ℕ}

/-- A round sets the bit of an inode that is taken; which inodes it counts is another matter. -/
theorem inodeRound_eq (m : InoMap) (i : ℕ) :
    fs.inodeRound statemap c m i =
      { ibmap := if fs.Taken statemap (fs.firstIno c + i) then setbit m.ibmap i else m.ibmap
        nifree := if fs.Counted statemap (fs.firstIno c + i) then m.nifree - 1 else m.nifree
        ndirs := if fs.CountedDir statemap (fs.firstIno c + i) then m.ndirs + 1 else m.ndirs } := by
  unfold inodeRound
  generalize fs.firstIno c + i = j
  dsimp only
  by_cases hres : j < FIRSTINO ∧ j ≠ ROOTINO
  · have hr : Reserved j := hres
    simp [hr, hres, Taken, Counted, CountedDir]
  · have hr : ¬Reserved j := hres
    rw [if_neg hres]
    by_cases hcount : fs.e2fs_icount.toNat < j
    · simp [hr, hcount, Taken, Counted, CountedDir]
    · rw [if_neg hcount]
      have ht : fs.Taken statemap j ↔ statemap j ≠ .ustate := by simp [Taken, hr, hcount]
      have hc : fs.Counted statemap j ↔ statemap j ≠ .ustate := by simp [Counted, hr, hcount]
      have hd : fs.CountedDir statemap j ↔ (statemap j).isDir = true := by
        simp [CountedDir, hr, hcount]
      simp only [ht, hc, hd]
      cases statemap j <;> simp [InoState.isDir]

/-- **The loop over the inodes of a group.** -/
theorem inodeLoop_eq (n : ℕ) :
    (List.range n).foldl (fs.inodeRound statemap c) ⟨fun _ => false, fs.e2fs_ipg.toNat, 0⟩ =
      { ibmap := fun i => decide (i < n ∧ fs.Taken statemap (fs.firstIno c + i))
        nifree := fs.e2fs_ipg.toNat -
          (List.range n).countP fun i => decide (fs.Counted statemap (fs.firstIno c + i))
        ndirs := (List.range n).countP fun i => decide (fs.CountedDir statemap (fs.firstIno c + i)) } := by
  induction n with
  | zero => simp
  | succ n ih =>
    rw [List.range_succ, List.foldl_append, ih, List.foldl_cons, List.foldl_nil, inodeRound_eq,
      List.countP_append, List.countP_append, List.countP_singleton, List.countP_singleton]
    congr 1
    · funext i
      by_cases hi : i = n
      · subst hi
        by_cases ht : fs.Taken statemap (fs.firstIno c + i) <;> simp [ht, setbit]
      · have hlt : i < n + 1 ↔ i < n := by omega
        by_cases ht : fs.Taken statemap (fs.firstIno c + n) <;>
          simp [ht, setbit, Function.update_of_ne hi, hlt]
    · by_cases hc : fs.Counted statemap (fs.firstIno c + n) <;> simp [hc, Nat.sub_sub]
    · by_cases hd : fs.CountedDir statemap (fs.firstIno c + n) <;> simp [hd]

theorem inodeMap_ibmap (fs : SbImage) (statemap : ℕ → InoState) (c i : ℕ) :
    (fs.inodeMap statemap c).ibmap i =
      decide (i < fs.e2fs_ipg.toNat ∧ fs.Taken statemap (fs.firstIno c + i)) := by
  unfold inodeMap
  rw [inodeLoop_eq]

theorem inodeMap_nifree (fs : SbImage) (statemap : ℕ → InoState) (c : ℕ) :
    (fs.inodeMap statemap c).nifree = fs.e2fs_ipg.toNat -
      (List.range fs.e2fs_ipg.toNat).countP fun i =>
        decide (fs.Counted statemap (fs.firstIno c + i)) := by
  unfold inodeMap
  rw [inodeLoop_eq]

theorem inodeMap_ndirs (fs : SbImage) (statemap : ℕ → InoState) (c : ℕ) :
    (fs.inodeMap statemap c).ndirs =
      (List.range fs.e2fs_ipg.toNat).countP fun i =>
        decide (fs.CountedDir statemap (fs.firstIno c + i)) := by
  unfold inodeMap
  rw [inodeLoop_eq]

theorem blockRound_eq (m : BlkMap) (i : ℕ) :
    fs.blockRound f c m i =
      if fs.Marked f (fs.dbase c + i) then { m with bbmap := setbit m.bbmap i }
      else { m with nbfree := m.nbfree + 1 } := rfl

/-- **The loop over the blocks of a group.** -/
theorem blockLoop_eq (fs : SbImage) (f : Found) (c n : ℕ) :
    (List.range n).foldl (fs.blockRound f c) ⟨fun _ => false, 0⟩ =
      { bbmap := fun i => decide (i < n ∧ fs.Marked f (fs.dbase c + i))
        nbfree := (List.range n).countP fun i : ℕ => !decide (fs.Marked f (fs.dbase c + i)) } := by
  induction n with
  | zero => simp
  | succ n ih =>
    rw [List.range_succ, List.foldl_append, ih, List.foldl_cons, List.foldl_nil,
      blockRound_eq, List.countP_append, List.countP_singleton]
    have hother : ∀ i : ℕ, i ≠ n → (i < n + 1 ↔ i < n) := fun i hi => by omega
    by_cases hm : fs.Marked f (fs.dbase c + (n : ℕ))
    · rw [if_pos hm, BlkMap.mk.injEq]
      constructor
      · funext i
        by_cases hi : i = n
        · subst hi
          simp [setbit, hm]
        · simp [setbit, Function.update_of_ne hi, hother i hi]
      · simp [hm]
    · rw [if_neg hm, BlkMap.mk.injEq]
      constructor
      · funext i
        by_cases hi : i = n
        · subst hi
          simp [hm]
        · simp [hother i hi]
      · simp [hm]

theorem blockMap_bbmap (fs : SbImage) (f : Found) (c i : ℕ) :
    (fs.blockMap f c).bbmap i = decide (i < fs.rounds c ∧ fs.Marked f (fs.dbase c + i)) := by
  simp only [blockMap, blockLoop_eq]

theorem blockMap_nbfree (fs : SbImage) (f : Found) (c : ℕ) :
    (fs.blockMap f c).nbfree =
      (List.range (fs.rounds c)).countP fun i : ℕ => !decide (fs.Marked f (fs.dbase c + i)) := by
  unfold blockMap
  rw [blockLoop_eq]

end SbImage

end Ext2fs.Fsck
