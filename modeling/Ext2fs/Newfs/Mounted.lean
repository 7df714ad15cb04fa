import Ext2fs.Newfs.Addresses
import Ext2fs.SbGeometry

/-!
# A new volume in the hands of the driver

`compute_sb_data` computes once more what `mke2fs` has computed, by formulas of its own, and reads the
descriptors from where they are to be.  `mke2fs` rounds up with `howmany`, which cannot wrap; the driver adds
first and divides then.  And `mke2fs` divides the place of the superblock by the size of a sector.

* `superblockOf`, `descsAt` — the superblock that is written, and what is read from a device block;
* `GeometryRight`, `NamesRight`, `MountedRight` — what the driver is to make of it;
* `make_addressed` — the descriptors keep their addresses in every run;
* `computed_gcount_iff` — the two ways to count the groups;
* **`mounted_right_iff`** — the driver takes the volume as it was laid out exactly when the sectors are not
  longer than the offset of the superblock and the sum does not wrap.
-/

namespace Ext2fs.Newfs

open Tracked Fsck Stopping

/-! ### What is on the volume -/

/-- The superblock that `mke2fs` writes. -/
def superblockOf (p : Params) (sb : Sb) : Superblock where
  e2fs_icount := .ofNat 32 sb.icount
  e2fs_bcount := .ofNat 32 sb.bcount
  e2fs_rbcount := .ofNat 32 sb.rbcount
  e2fs_first_dblock := .ofNat 32 sb.first_dblock
  e2fs_log_bsize := .ofNat 32 (p.bsize.log2 - 10)
  e2fs_log_fsize := .ofNat 32 (p.fsize.log2 - 10)
  e2fs_bpg := .ofNat 32 sb.bpg
  e2fs_fpg := .ofNat 32 sb.bpg
  e2fs_ipg := .ofNat 32 sb.ipg
  e2fs_magic := E2FS_MAGIC
  e2fs_rev := if p.oflag then E2FS_REV1 else E2FS_REV0
  e2fs_first_ino := EXT2_FIRSTINO
  e2fs_inode_size := .ofNat 16 p.inodesize
  e2fs_features_incompat := if p.oflag then EXT2F_INCOMPAT_FTYPE else 0
  e2fs_features_rocompat :=
    if p.oflag then EXT2F_ROCOMPAT_SPARSESUPER ||| EXT2F_ROCOMPAT_LARGEFILE else 0
  e3fs_desc_size := 0

/-- The byte that the superblock of the first group is written to. -/
def superByte (p : Params) (sb : Sb) : ℤ :=
  i32 (p.todb (cgbase sb 0).value + (sboff sb 0 / p.sectorsize : ℕ)) * p.sectorsize

/-- The byte that block `k` of the descriptors is written to: they come one block behind the start of the
buffer, whose first `sboff` bytes are not written. -/
def descByte (p : Params) (sb : Sb) (k : ℕ) : ℤ :=
  superByte p sb - sboff sb 0 + ((k + 1) * p.bsize : ℕ)

/-- The descriptors that fill block `k`. -/
def descChunk (p : Params) (gd : List Desc) (k : ℕ) : List Desc :=
  (gd.drop (k * (p.bsize / EXT2_MIN_GD_SIZE))).take (p.bsize / EXT2_MIN_GD_SIZE)

/-- What is read as descriptors from a block of the device, which has 512 bytes: what `mke2fs` wrote there, or
what is there otherwise. -/
def descsAt (p : Params) (sb : Sb) (gd : List Desc) (other : ℤ → List Desc) (dev : ℤ) : List Desc :=
  match (List.range sb.gdbcount).find? fun k => descByte p sb k = dev * 512 with
  | some k => descChunk p gd k
  | none => other dev

/-- The addresses in a descriptor. -/
def Desc.addresses (d : Desc) : ℕ × ℕ × ℕ := (d.b_bitmap, d.i_bitmap, d.i_tables)

/-- Descriptors with the addresses of the layout: their counts change while `mke2fs` runs. -/
def Addressed (t : Totals) (gd : List Desc) : Prop :=
  gd.map Desc.addresses = (blank t).gd.map Desc.addresses

/-! ### What the driver makes of it -/

/-- `EXT2_GD` of a mounted volume. -/
def mountedGd (mount : SbData (List Desc)) (cg : ℕ) : Option Desc :=
  descAt mount.gd.flatten mount.gdsize cg

/-- `ino_to_fsba` of a mounted volume. -/
def mountedFsba (es : Superblock) (mount : SbData (List Desc)) (x : ℕ) : Option ℕ :=
  (mountedGd mount (mount.inoToCg x)).map fun d =>
    u32 (d.i_tables + (x - 1) % es.e2fs_ipg.toNat / mount.ipb : ℕ)

/-- The geometry is the one the volume was laid out with. -/
structure GeometryRight (p : Params) (sb : Sb) (es : Superblock) (fs : Geometry) : Prop where
  bsize : fs.bsize = p.bsize
  gcount : fs.gcount = sb.gcount
  gdbcount : fs.gdbcount = sb.gdbcount
  gdsize : fs.gdsize = EXT2_MIN_GD_SIZE
  ipb : fs.ipb = p.ipb
  isize : fs.isize = p.inodesize
  itpg : fs.itpg = sb.itpg
  first_dblock : es.e2fs_first_dblock.toNat = sb.first_dblock

/-- The driver names the blocks that `mke2fs` names: the bitmaps of each group, and for each inode a block of
the table of its group. -/
structure NamesRight (p : Params) (sb : Sb) (gd : List Desc) (mount : SbData (List Desc)) : Prop where
  groups : ∀ c < sb.gcount, mountedGd mount c = gd[c]?
  inodes : ∀ x, 1 ≤ x → x ≤ sb.icount → (x - 1) / sb.ipg < sb.gcount ∧
    (x - 1) % sb.ipg / p.ipb < sb.itpg ∧
      mountedFsba (superblockOf p sb) mount x =
        gd[(x - 1) / sb.ipg]?.map fun d => u32 (d.i_tables + (x - 1) % sb.ipg / p.ipb : ℕ)

/-- **The driver takes the volume as it was laid out**, for writing: the superblock is found and accepted, and
whatever else is on the volume, the data computed from it are those of the layout. -/
structure MountedRight (p : Params) (sb : Sb) (t : Totals) : Prop where
  found : superByte p sb = SBLOCK * 512
  accepted : ext2CheckSbCompat (superblockOf p sb) false = 0
  computed : ∀ gd other, Addressed t gd → ∃ mount : SbData (List Desc),
    computeSbData (fun dev => .ok (descsAt p sb gd other dev)) (superblockOf p sb) = .ok mount ∧
      GeometryRight p sb (superblockOf p sb) mount.toGeometry ∧ NamesRight p sb gd mount

/-! ### The addresses stay -/

section

variable {raw : Data → Bitmap} {p : Params} {sb : Sb} {t : Totals} {gd : List Desc} {d : Desc} {c : ℕ}

theorem Addressed.get (hgd : Addressed t gd) (hd : gd[c]? = some d) :
    ((blank t).gd.map Desc.addresses)[c]? = some d.addresses := by
  rw [← hgd, List.getElem?_map, hd]
  rfl

theorem Addressed.set (hgd : Addressed t gd)
    (hd : ((blank t).gd.map Desc.addresses)[c]? = some d.addresses) : Addressed t (gd.set c d) := by
  obtain ⟨hlt, heq⟩ := List.getElem?_eq_some_iff.1 hd
  unfold Addressed at *
  rw [List.map_set, hgd, ← heq]
  exact List.set_getElem_self hlt

theorem wtfs_addressed (what : What) (bno : ℤ) (size : ℕ) (data : List Data) :
    Keeps (fun vol => Addressed t vol.gd) (wtfs p what bno size data) :=
  wtfs_meets (fun _ hvol _ => hvol) fun _ hvol _ => hvol

theorem wtfsBlock_addressed (b : ℕ) (data : Data) :
    Keeps (fun vol => Addressed t vol.gd) (wtfsBlock p b data) := wtfs_addressed _ _ _ _

/-- A descriptor that is taken from the memory has an address of the layout. -/
theorem desc_addressed {α : Type} {f : Desc → Making α} (hgd : Addressed t gd)
    (hf : ∀ d, ((blank t).gd.map Desc.addresses)[c]? = some d.addresses →
      Keeps (fun vol => Addressed t vol.gd) (f d)) :
    Keeps (fun vol => Addressed t vol.gd) (Stopping.ofOption gd[c]? >>= f) := by
  refine Meets.bind (Q := fun d vol => ((blank t).gd.map Desc.addresses)[c]? = some d.addresses ∧
    Addressed t vol.gd) ?_ fun d => Meets.fact (hf d)
  exact Meets.ofOption (fun _ _ hvol => hvol) fun d hd vol hvol => ⟨hgd.get hd, hvol⟩

/-- The memory as it is taken at the start of an operation. -/
theorem memory_addressed {α : Type} {f : Volume → Making α}
    (hf : ∀ vol, Addressed t vol.gd → Keeps (fun vol => Addressed t vol.gd) (f vol)) :
    Keeps (fun vol => Addressed t vol.gd) (Stopping.get >>= f) := by
  refine Meets.bind (Q := fun v vol => Addressed t v.gd ∧ Addressed t vol.gd) ?_
    fun v => Meets.fact (hf v)
  exact Meets.get fun vol hvol => ⟨hvol, hvol⟩

theorem alloc_addressed (size mode : ℕ) :
    Keeps (fun vol => Addressed t vol.gd) (alloc raw p sb size mode) := by
  unfold alloc
  refine memory_addressed fun vol hvol => desc_addressed hvol fun d hd => ?_
  refine .ite (.pure _) (.ite (.pure _) ((rdfsBlock_keeps _).bind fun data => ?_))
  cases firstClear (data.map raw) (sb.bpg / NBBY) with
  | none => exact .pure _
  | some bno =>
    refine (wtfsBlock_addressed _ _).bind fun _ => Keeps.bind ?_ fun _ => .pure _
    exact Keeps.modify fun vol hgd => hgd.set hd

theorem iput_addressed (ip : Node) (ino : ℕ) :
    Keeps (fun vol => Addressed t vol.gd) (iput raw p sb ip ino) := by
  have hmark : Keeps (fun vol => Addressed t vol.gd) (markInode raw p sb ino) := by
    unfold markInode
    refine memory_addressed fun vol hvol => desc_addressed hvol fun d hd => ?_
    refine (Keeps.ofOption _).bind fun first => (Keeps.assert _).bind fun _ => ?_
    refine (rdfsBlock_keeps _).bind fun data => ?_
    refine Keeps.bind ((Keeps.assert _).bind fun _ => wtfsBlock_addressed _ _) fun _ => ?_
    exact Keeps.modify fun vol hgd => hgd.set hd
  refine (Keeps.when hmark).bind fun _ => (Keeps.assert _).bind fun _ => ?_
  refine Keeps.get.bind fun vol => (Keeps.ofOption _).bind fun b => ?_
  exact (rdfsBlock_keeps b).bind fun _ => wtfsBlock_addressed _ _

/-- **The descriptors keep their addresses** in every run, wherever it ends. -/
theorem make_addressed : Addressed t (make raw p sb t).2.gd := by
  have hsuper : ∀ c, Keeps (fun vol => Addressed t vol.gd) (writeSuper p sb c) :=
    fun c => Keeps.get.bind fun _ => wtfs_addressed _ _ _ _
  have halloc : ∀ size mode, Keeps (fun vol => Addressed t vol.gd) (allocOrStop raw p sb size mode) :=
    fun size mode => (alloc_addressed size mode).bind fun _ => (Keeps.assert _).bind fun _ => Keeps.pure _
  have hrun : Keeps (fun vol => Addressed t vol.gd) (do
      validate p sb
      construct raw p sb) := by
    refine (validate_keeps (wtfs_addressed _ _ _ _) fun _ _ => wtfs_addressed _ _ _ _).bind fun _ => ?_
    refine (Keeps.each (initcg_keeps_of wtfsBlock_addressed hsuper) _).bind fun _ => ?_
    exact (fsinit_keeps_of wtfsBlock_addressed halloc iput_addressed).bind fun _ => hsuper 0
  have hstart : Addressed t (blank t).gd := rfl
  exact hrun.always hstart

end

/-! ### The fields are words -/

/-- What is written into the fields of the superblock fits them. -/
structure Words (p : Params) (sb : Sb) : Prop where
  icount : sb.icount = u32 (sb.ipg * sb.gcount : ℕ)
  ipg : sb.ipg < 2 ^ 32
  reserved_ngdb : sb.reserved_ngdb < 2 ^ 16
  resize : sb.resize = true → p.oflag = true

section

variable {p : Params} {sb : Sb} {t : Totals} {gd : List Desc}

theorem u32_natCast (x : ℕ) : u32 x = x % 2 ^ 32 := by
  unfold u32
  omega

theorem i32_natCast {x : ℕ} (h : x < 2 ^ 31) : i32 x = x := i32_of_lt (by omega) (by omega)

theorem conv_lt (w x : ℕ) : (conv w x).value < 2 ^ w := Nat.mod_lt _ (Nat.two_pow_pos w)

theorem inodesFor_lt {num most : ℕ} (hnum : num < 2 ^ 32) (hmost : most < 2 ^ 32) :
    inodesFor num most < 2 ^ 32 := by
  unfold inodesFor FIRSTINO
  dsimp only
  split_ifs <;> omega

/-- The number of inodes that `main` sorts out is a word. -/
theorem main_inodes_lt {o : Options} (hv : o.Valid) : (main o).value.num_inodes < 2 ^ 32 := by
  have hblocks := conv_lt 32 (o.fssize * o.sectorsize / o.sortedBsize)
  have hnum := hv.num_inodes
  show (o.sortedInodes (conv 32 (o.fssize * o.sectorsize / o.sortedBsize)).value).value < 2 ^ 32
  generalize (conv 32 (o.fssize * o.sectorsize / o.sortedBsize)).value = blocks at hblocks
  unfold Options.sortedInodes
  split
  · show o.num_inodes < 2 ^ 32
    omega
  split
  · exact conv_lt 32 _
  · show o.defaultInodes blocks < 2 ^ 32
    unfold Options.defaultInodes
    split_ifs <;> omega

theorem firstGroups_inodes (h : p.num_inodes < 2 ^ 32) :
    (firstGroups p).value.1.num_inodes < 2 ^ 32 ∧ (firstGroups p).value.1.inodes_per_cg < 2 ^ 32 := by
  have hnum : (firstGroups p).value.1.num_inodes < 2 ^ 32 := inodesFor_lt h (conv_lt 32 _)
  have hper : (firstGroups p).value.1.inodes_per_cg =
    (firstGroups p).value.1.num_inodes / (firstGroups p).value.1.ncg := rfl
  exact ⟨hnum, hper ▸ (Nat.div_le_self _ _).trans_lt hnum⟩

theorem dropLast_inodes {g : Groups} {m : ℕ} (h : g.num_inodes < 2 ^ 32 ∧ g.inodes_per_cg < 2 ^ 32) :
    (dropLast p g m).value.inodes_per_cg < 2 ^ 32 := by
  unfold dropLast
  split
  · exact (Nat.div_le_self g.num_inodes _).trans_lt h.1
  · exact h.2

theorem roundup_lt {x y : ℕ} (hx : x < 2 ^ 32) : (roundup x y).value < 2 ^ 32 := by
  unfold roundup
  split
  · exact hx
  · exact conv_lt 32 _

theorem reserve_words (h : sb.reserved_ngdb < 2 ^ 16) (hres : sb.resize = p.oflag) :
    (reserve p sb).value.reserved_ngdb < 2 ^ 16 ∧
      ((reserve p sb).value.resize = true → p.oflag = true) ∧
        (reserve p sb).value.icount = sb.icount := by
  unfold reserve
  split
  · next hO => exact ⟨conv_lt 16 _, fun _ => hO, rfl⟩
  · exact ⟨h, fun hr => hres ▸ hr, rfl⟩

/-- The inodes of all groups, in a word. -/
theorem wholeTables_icount (g : Groups) : (wholeTables p g).value.icount =
    (roundup g.inodes_per_cg p.ipb).value * g.ncg % 2 ^ 32 := rfl

/-- **The fields of an accepted call.** -/
theorem mke2fs_words (h : p.num_inodes < 2 ^ 32) : Words p (mke2fs p).value.1 := by
  have hper := @dropLast_inodes p _ (firstGroups p).value.2 (firstGroups_inodes h)
  generalize hg : (dropLast p (firstGroups p).value.1 (firstGroups p).value.2).value = g at hper
  have hsb : (mke2fs p).value.1 = (reserve p (wholeTables p g).value).value := by
    rw [← hg]
    rfl
  obtain ⟨hres, hflag, hicount⟩ := @reserve_words p (wholeTables p g).value
    (Nat.two_pow_pos 16) rfl
  obtain ⟨-, -, -, hgc, -, hipg, -⟩ := reserve_value p (wholeTables p g).value
  obtain ⟨-, -, -, hncg, -, hwhole, -⟩ := wholeTables_value (p := p) g
  rw [hsb]
  refine ⟨?_, ?_, hres, hflag⟩
  · rw [hicount, hipg, hgc, wholeTables_icount, hncg, hwhole, u32_natCast]
  · rw [hipg, hwhole]
    exact roundup_lt hper

/-! ### The geometry once more -/

theorem Sizes.log_le (h : Sizes p) : p.bsize.log2 - 10 ≤ 2 := by
  rcases h.bsize with hb | hb | hb <;> rw [hb] <;> decide

theorem Sizes.bsize_log (h : Sizes p) : 2 ^ (10 + (p.bsize.log2 - 10)) = p.bsize := by
  rcases h.bsize with hb | hb | hb <;> rw [hb] <;> decide

theorem ofNat_toNat {w n : ℕ} (h : n < 2 ^ w) : (BitVec.ofNat w n).toNat = n :=
  (BitVec.toNat_ofNat n w).trans (Nat.mod_eq_of_lt h)

theorem log_bsize_toNat (h : Sizes p) (sb : Sb) :
    (superblockOf p sb).e2fs_log_bsize.toNat = p.bsize.log2 - 10 :=
  ofNat_toNat (by have := h.log_le; omega)

/-- Rounding up by an addition. -/
theorem howmany_eq_div {x y : ℕ} (hy : 0 < y) : howmany x y = (x + y - 1) / y := by
  refine eq_of_forall_ge_iff fun n => ?_
  have hdiv : (x + y - 1) / y ≤ n ↔ x + y - 1 < (n + 1) * y := by
    rw [← Nat.lt_succ_iff, Nat.div_lt_iff_lt_mul hy]
  rw [howmany_le_iff hy, hdiv, Nat.succ_mul]
  omega

/-- A sum that wraps leaves no group. -/
theorem computed_gcount_wraps {x B : ℕ} (hx : x < 2 ^ 32) (hwrap : 2 ^ 32 < x + B) (hB' : B < 2 ^ 32) :
    u32 ((x : ℤ) + B - 1) / B = 0 := by
  refine Nat.div_eq_of_lt ?_
  unfold u32
  omega

/-- **The two ways to count the groups** agree exactly when the sum does not wrap. -/
theorem computed_gcount_iff {x B : ℕ} (hB : 0 < B) (hx : x < 2 ^ 32) (hB' : B < 2 ^ 32) :
    u32 ((x : ℤ) + B - 1) / B = howmany x B ↔ x + B ≤ 2 ^ 32 := by
  constructor
  · intro heq
    by_contra hwrap
    have hpos : 0 < howmany x B := howmany_pos hB (by omega)
    rw [computed_gcount_wraps hx (not_le.1 hwrap) hB'] at heq
    omega
  · intro hroom
    have hexact : u32 ((x : ℤ) + B - 1) = x + B - 1 := by
      unfold u32
      omega
    rw [hexact, howmany_eq_div hB]

/-- The blocks of the descriptors are counted in descriptors, or in bytes. -/
theorem howmany_descs {n k : ℕ} (hk : 0 < k) (hn : n + k < 2 ^ 32) :
    u32 (n + k - 1 : ℕ) / k = howmany (EXT2_MIN_GD_SIZE * n) (EXT2_MIN_GD_SIZE * k) := by
  have hsize : 0 < EXT2_MIN_GD_SIZE := by decide
  rw [u32_of_lt (by omega), ← howmany_eq_div hk]
  refine eq_of_forall_ge_iff fun m => ?_
  rw [howmany_le_iff hk, howmany_le_iff (Nat.mul_pos hsize hk), Nat.mul_left_comm]
  exact (Nat.mul_le_mul_left_iff hsize).symm

section

variable (h : Sizes p) (hi : p.oflag = false → p.inodesize = 128)

include h

/-- **The superblock is accepted**, for writing too. -/
theorem superblock_accepted (hbpg : sb.bpg = p.bsize * NBBY) :
    ext2CheckSbCompat (superblockOf p sb) false = 0 := by
  have hlog : ¬2 < (superblockOf p sb).e2fs_log_bsize.toNat := by
    rw [log_bsize_toNat h]
    exact not_lt.2 h.log_le
  have hgroups : (superblockOf p sb).e2fs_bpg ≠ 0 := by
    intro h0
    have hpos := h.bpg_pos
    have hle := h.bpg_le
    have htoNat : (superblockOf p sb).e2fs_bpg.toNat = sb.bpg := ofNat_toNat (by omega)
    rw [h0, hbpg] at htoNat
    exact absurd htoNat hpos.ne
  have hmagic : ¬(superblockOf p sb).e2fs_magic ≠ E2FS_MAGIC := not_not.2 rfl
  unfold ext2CheckSbCompat
  rw [if_neg hmagic, if_neg hlog, if_neg hgroups]
  cases hO : p.oflag with
  | false =>
    have hrev : (superblockOf p sb).e2fs_rev = E2FS_REV0 := by simp [superblockOf, hO]
    have hold : ¬E2FS_REV1.toNat < E2FS_REV0.toNat := by decide
    rw [hrev, if_neg hold, if_pos rfl]
  | true =>
    have hrev : (superblockOf p sb).e2fs_rev = E2FS_REV1 := by simp [superblockOf, hO]
    have hincompat : (superblockOf p sb).e2fs_features_incompat = EXT2F_INCOMPAT_FTYPE := by
      simp [superblockOf, hO]
    have hrocompat : (superblockOf p sb).e2fs_features_rocompat =
        EXT2F_ROCOMPAT_SPARSESUPER ||| EXT2F_ROCOMPAT_LARGEFILE := by
      simp [superblockOf, hO]
    rw [hrev, hincompat, hrocompat, show (superblockOf p sb).e2fs_first_ino = EXT2_FIRSTINO from rfl]
    decide

include hi in
/-- The inodes have the size that was asked for. -/
theorem superblock_inodeSize : inodeSize (superblockOf p sb) p.bsize = .ok p.inodesize := by
  unfold inodeSize
  cases hO : p.oflag with
  | false =>
    have hrev : (superblockOf p sb).e2fs_rev = E2FS_REV0 := by simp [superblockOf, hO]
    rw [if_pos hrev, hi hO]
    rfl
  | true =>
    have hrev : (superblockOf p sb).e2fs_rev ≠ E2FS_REV0 := by
      simp [superblockOf, hO, E2FS_REV0, E2FS_REV1]
    rw [if_neg hrev]
    have hsize : (superblockOf p sb).e2fs_inode_size.toNat = p.inodesize :=
      ofNat_toNat (by rcases h.inodesize with hs | hs <;> omega)
    have hgood : ¬(p.inodesize < E2FS_REV0_INODE_SIZE ∨ p.bsize < p.inodesize ∨
        p.inodesize &&& (p.inodesize - 1) ≠ 0) := by
      rcases h.bsize with hb | hb | hb <;> rcases h.inodesize with hs | hs <;> rw [hb, hs] <;> decide
    rw [hsize, if_neg hgood]

omit h in
/-- Neither kind of volume has descriptors of another size, or larger inodes. -/
theorem superblock_features : (superblockOf p sb).e2fs_features_incompat &&& EXT2F_INCOMPAT_64BIT = 0 ∧
    (superblockOf p sb).hasRoCompat EXT2F_ROCOMPAT_EXTRA_ISIZE = false := by
  cases hO : p.oflag <;> simp [superblockOf, Superblock.hasRoCompat, hO, EXT2F_INCOMPAT_FTYPE,
    EXT2F_INCOMPAT_64BIT, EXT2F_ROCOMPAT_EXTRA_ISIZE, EXT2F_ROCOMPAT_SPARSESUPER,
    EXT2F_ROCOMPAT_LARGEFILE]

theorem superblock_descSize : descSize (superblockOf p sb) p.bsize = .ok EXT2_MIN_GD_SIZE := by
  have hfields : ¬((superblockOf p sb).e2fs_rev ≠ E2FS_REV0 ∧
      (superblockOf p sb).e2fs_features_incompat &&& EXT2F_INCOMPAT_64BIT ≠ 0 ∧
        (superblockOf p sb).e3fs_desc_size ≠ 0) := fun hc => hc.2.2 rfl
  have hgood : ¬(EXT2_MIN_GD_SIZE < EXT2_MIN_GD_SIZE ∨
      EXT2_MIN_GD_SIZE &&& (EXT2_MIN_GD_SIZE - 1) ≠ 0 ∨ p.bsize < EXT2_MIN_GD_SIZE) := by
    rcases h.bsize with hb | hb | hb <;> rw [hb] <;> decide
  unfold descSize
  rw [if_neg hfields, if_neg hgood]

include hi in
/-- **What the driver computes** for a layout, whatever has become of the number of groups. -/
theorem superblock_geometry : ∃ fs, sbGeometry (superblockOf p sb) = .ok fs ∧ Derived (superblockOf p sb) fs ∧
    fs.bsize = p.bsize ∧ fs.gdsize = EXT2_MIN_GD_SIZE ∧ fs.isize = p.inodesize ∧ fs.ipb = p.ipb ∧
      fs.itpg = (superblockOf p sb).e2fs_ipg.toNat / p.ipb := by
  have hbsize : 2 ^ (10 + (superblockOf p sb).e2fs_log_bsize.toNat) = p.bsize := by
    rw [log_bsize_toNat h]
    exact h.bsize_log
  have hextra : ¬((superblockOf p sb).hasRoCompat EXT2F_ROCOMPAT_EXTRA_ISIZE = true ∧
      p.inodesize < SIZEOF_DINODE) := by
    rw [superblock_features.2]
    exact fun hc => Bool.false_ne_true hc.1
  obtain ⟨fs, hfs⟩ : ∃ fs, sbGeometry (superblockOf p sb) = .ok fs ∧ fs.bsize = p.bsize ∧
      fs.gdsize = EXT2_MIN_GD_SIZE ∧ fs.isize = p.inodesize ∧ fs.ipb = p.ipb ∧
        fs.itpg = (superblockOf p sb).e2fs_ipg.toNat / p.ipb := by
    unfold sbGeometry
    simp only [hbsize, superblock_inodeSize h hi, superblock_descSize h, bind, Except.bind, hextra, if_false]
    exact ⟨_, rfl, rfl, rfl, rfl, rfl, rfl⟩
  exact ⟨fs, hfs.1, sbGeometry_ok hfs.1, hfs.2⟩

end

/-! ### Where the superblock and the descriptors are -/

/-- The chunks of a table, one after the other, are its start. -/
theorem flatten_chunks (p : Params) (gd : List Desc) (n : ℕ) :
    ((List.range n).map (descChunk p gd)).flatten = gd.take (n * (p.bsize / EXT2_MIN_GD_SIZE)) := by
  generalize hk : p.bsize / EXT2_MIN_GD_SIZE = k
  induction n with
  | zero => simp
  | succ n ih =>
    rw [List.range_succ, List.map_append, List.flatten_append, ih, List.map_singleton,
      List.flatten_singleton, Nat.succ_mul, List.take_add]
    unfold descChunk
    rw [hk]

/-- The loop over the blocks of the descriptors, where no read fails. -/
theorem loadDescs_eq {D : Type} (read : ℤ → D) (fs : Geometry) (rounds i : ℕ) :
    loadDescs (fun dev => .ok (read dev)) fs rounds i =
      .ok ((List.range' i rounds).map fun k => read (fs.descReadAt k)) := by
  induction rounds generalizing i with
  | zero => rfl
  | succ rounds ih =>
    unfold loadDescs
    rw [ih (i + 1)]
    rfl

theorem cgbase_zero (hfirst : sb.first_dblock = p.first_dblock) :
    (cgbase sb 0).value = p.first_dblock := by
  have hone := first_le (p := p)
  show (sb.first_dblock + sb.bpg * 0 % 2 ^ 32) % 2 ^ 32 = _
  rw [hfirst]
  omega

section

variable (h : Sizes p) (hs : p.bsize = 2 ^ p.fsbtodb * p.sectorsize)
variable (hfirst : sb.first_dblock = p.first_dblock)

include h hs hfirst

/-- The byte of the superblock, for each of the two places that it can have. -/
theorem superByte_eq : superByte p sb =
    if p.bsize = 1024 then 1024 else (1024 / p.sectorsize * p.sectorsize : ℕ) := by
  have hbase := cgbase_zero hfirst
  unfold superByte sboff
  rw [hbase]
  by_cases hb : p.bsize = 1024
  · have hf : p.first_dblock = 1 := by
      unfold Params.first_dblock
      rw [hb]
      rfl
    have hle : 2 ^ p.fsbtodb ≤ 1024 := by
      rw [← hb, hs]
      refine Nat.le_mul_of_pos_right _ (Nat.pos_of_ne_zero fun h0 => ?_)
      rw [h0, Nat.mul_zero] at hs
      omega
    have hsec : p.todb 1 + ((0 / p.sectorsize : ℕ) : ℤ) = (2 ^ p.fsbtodb : ℕ) := by
      unfold Params.todb
      rw [Nat.zero_div]
      push_cast
      ring
    rw [hf, if_neg (by decide), hsec, i32_natCast (by omega), if_pos hb, ← Nat.cast_mul, ← hs, hb]
  · have hf : p.first_dblock = 0 := by
      unfold Params.first_dblock
      rcases h.bsize with h1 | h1 | h1
      · exact absurd h1 hb
      · rw [h1]
        rfl
      · rw [h1]
        rfl
    have hsec : p.todb 0 + ((SBOFF / p.sectorsize : ℕ) : ℤ) = (1024 / p.sectorsize : ℕ) := by
      unfold Params.todb SBOFF
      ring
    have hle : 1024 / p.sectorsize ≤ 1024 := Nat.div_le_self _ _
    rw [hf, if_pos rfl, hsec, i32_natCast (by omega), if_neg hb]
    push_cast
    rfl

/-- **The superblock** is written where the driver looks for it exactly when the sectors are not longer than
its offset. -/
theorem superByte_iff (hpow : powerof2 p.sectorsize) :
    superByte p sb = SBLOCK * 512 ↔ p.sectorsize ≤ 1024 := by
  have hpos : 0 < p.sectorsize := Nat.pos_of_ne_zero fun h0 => by
    have hB := h.bsize_pos
    rw [h0, Nat.mul_zero] at hs
    omega
  rw [superByte_eq h hs hfirst, show SBLOCK * 512 = 1024 from rfl]
  by_cases hb : p.bsize = 1024
  · rw [if_pos hb]
    refine iff_of_true rfl ?_
    rw [← hb]
    exact hs ▸ Nat.le_mul_of_pos_left _ (Nat.two_pow_pos _)
  rw [if_neg hb]
  constructor
  · intro heq
    by_contra hlong
    rw [Nat.div_eq_of_lt (not_le.1 hlong), Nat.zero_mul] at heq
    omega
  · intro hle
    have hlog := powerof2_log2 hpos.ne' hpow
    have hten : p.sectorsize.log2 ≤ 10 := by
      by_contra hc
      have hlt : 2 ^ 10 < 2 ^ p.sectorsize.log2 := Nat.pow_lt_pow_right (by decide) (by omega)
      omega
    have hdvd : p.sectorsize ∣ 1024 := by
      rw [hlog]
      exact Nat.pow_dvd_pow 2 hten
    rw [Nat.div_mul_cancel hdvd]
    rfl

omit hs in
/-- The blocks of the descriptors are then the ones behind the block of the superblock. -/
theorem descByte_eq (hfound : superByte p sb = SBLOCK * 512) (k : ℕ) :
    descByte p sb k = ((p.first_dblock + k + 1) * p.bsize : ℕ) := by
  have hstart : (1024 : ℤ) - sboff sb 0 = (p.first_dblock * p.bsize : ℕ) := by
    unfold sboff
    rw [cgbase_zero hfirst]
    unfold Params.first_dblock
    rcases h.bsize with hb | hb | hb <;> rw [hb] <;> rfl
  unfold descByte
  rw [hfound, show SBLOCK * 512 = 1024 from rfl, hstart, Nat.add_assoc, Nat.add_mul p.first_dblock]
  push_cast
  ring

omit hs in
/-- **The driver reads back** each block of the descriptors. -/
theorem descsAt_eq (hfound : superByte p sb = SBLOCK * 512) {fs : Geometry} (hbs : fs.bsize = p.bsize)
    (hdb : 2 ^ fs.fsbtodb * 512 = p.bsize) (other : ℤ → List Desc) {k : ℕ} (hk : k < sb.gdbcount) :
    descsAt p sb gd other (fs.descReadAt k) = descChunk p gd k := by
  have hlogic : fs.logicSbBlock = p.first_dblock := by
    unfold Geometry.logicSbBlock Params.first_dblock SBSIZE
    rw [hbs]
  have hread : fs.descReadAt k * 512 = ((p.first_dblock + k + 1) * p.bsize : ℕ) := by
    unfold Geometry.descReadAt Geometry.toDb
    rw [hlogic, ← hdb]
    push_cast
    ring
  have hfind : (List.range sb.gdbcount).find?
      (fun j => decide (descByte p sb j = fs.descReadAt k * 512)) = some k := by
    rw [List.find?_range_eq_some]
    refine ⟨?_, List.mem_range.2 hk, fun j hj => ?_⟩
    · rw [decide_eq_true_iff, descByte_eq h hfirst hfound, hread]
    · rw [Bool.not_eq_true', decide_eq_false_iff_not, descByte_eq h hfirst hfound, hread]
      intro heq
      have hsame := Nat.eq_of_mul_eq_mul_right h.bsize_pos (Int.ofNat.inj heq)
      omega
  unfold descsAt
  rw [hfind]

end

/-! ### The driver takes the volume -/

section

variable (h : Sizes p) (hl : Laid p sb t) (hw : Words p sb)

include h hl

omit h in
theorem Laid.first_lt : sb.first_dblock < 2 ^ 32 := by
  have hone := first_le (p := p)
  have hfirst := hl.first_dblock
  omega

/-- The number of groups is small. -/
theorem Laid.gcount_le : sb.gcount ≤ 2 ^ 19 := by
  rw [hl.gcount]
  have hB := hl.bpg
  refine (howmany_le_iff (hl.bpg ▸ h.bpg_pos)).2 ?_
  have hx := u32_lt ((sb.bcount : ℤ) - sb.first_dblock)
  unfold NBBY at hB
  rcases h.bsize with hb | hb | hb <;> omega

theorem Laid.gdbcount_le : sb.gdbcount ≤ 2 ^ 19 := by
  have hle := hl.gcount_le h
  rw [hl.gdbcount]
  refine (howmany_le_iff h.bsize_pos).2 ?_
  unfold EXT2_MIN_GD_SIZE
  rcases h.bsize with hb | hb | hb <;> omega

theorem Laid.bpg_toNat : (superblockOf p sb).e2fs_bpg.toNat = sb.bpg :=
  ofNat_toNat (by have := h.bpg_le; have := hl.bpg; omega)

/-- The blocks that are grouped, as the driver computes them. -/
theorem Laid.computed {fs : Geometry} (hd : Derived (superblockOf p sb) fs) : fs.gcount =
    u32 ((u32 ((sb.bcount : ℤ) - sb.first_dblock) : ℤ) + sb.bpg - 1) / sb.bpg := by
  have hbcount : (superblockOf p sb).e2fs_bcount.toNat = sb.bcount := ofNat_toNat hl.bcount
  have hfirst : (superblockOf p sb).e2fs_first_dblock.toNat = sb.first_dblock :=
    ofNat_toNat hl.first_lt
  have hsum : u32 ((sb.bcount : ℤ) - sb.first_dblock + sb.bpg - 1) =
      u32 ((u32 ((sb.bcount : ℤ) - sb.first_dblock) : ℤ) + sb.bpg - 1) := by
    unfold u32
    omega
  rw [hd.gcount, hbcount, hfirst, hl.bpg_toNat h, hsum]

theorem Laid.bpg_lt : 0 < sb.bpg ∧ sb.bpg < 2 ^ 32 := by
  have hpos := h.bpg_pos
  have hle := h.bpg_le
  rw [hl.bpg]
  omega

theorem Laid.computed_gcount {fs : Geometry} (hd : Derived (superblockOf p sb) fs) :
    fs.gcount = sb.gcount ↔ u32 (sb.bcount - sb.first_dblock) + sb.bpg ≤ 2 ^ 32 := by
  obtain ⟨hpos, hlt⟩ := hl.bpg_lt h
  rw [hl.computed h hd, hl.gcount]
  exact computed_gcount_iff hpos (u32_lt _) hlt

/-- The descriptors fill as many blocks. -/
theorem Laid.computed_gdbcount {fs : Geometry} (hd : Derived (superblockOf p sb) fs)
    (hbs : fs.bsize = p.bsize) (hgd : fs.gdsize = EXT2_MIN_GD_SIZE) (hgc : fs.gcount = sb.gcount) :
    fs.gdbcount = sb.gdbcount := by
  have hsplit : EXT2_MIN_GD_SIZE * (p.bsize / EXT2_MIN_GD_SIZE) = p.bsize ∧
      0 < p.bsize / EXT2_MIN_GD_SIZE ∧ p.bsize / EXT2_MIN_GD_SIZE ≤ 128 := by
    rcases h.bsize with hb | hb | hb <;> rw [hb] <;> decide
  have hle := hl.gcount_le h
  rw [hd.gdbcount, hl.gdbcount, hbs, hgd, hgc, howmany_descs hsplit.2.1 (by omega), hsplit.1]

/-- All descriptors fit into their blocks. -/
theorem Laid.length_le (hgd : Addressed t gd) :
    gd.length ≤ sb.gdbcount * (p.bsize / EXT2_MIN_GD_SIZE) := by
  have hlen : gd.length = sb.gcount := by
    have hmap := congrArg List.length hgd
    rw [List.length_map, List.length_map] at hmap
    rw [hmap]
    show (t.gd.map _).length = _
    rw [List.length_map, hl.gd, List.length_map, List.length_range]
  have hbytes := (howmany_le_iff h.bsize_pos).1 hl.gdbcount.ge
  rw [hlen]
  unfold EXT2_MIN_GD_SIZE at *
  rcases h.bsize with hb | hb | hb <;> rw [hb] at hbytes ⊢ <;> omega

include hw

/-- The geometry, once the groups are counted right. -/
theorem Laid.geometry (hi : p.oflag = false → p.inodesize = 128)
    (hroom : u32 (sb.bcount - sb.first_dblock) + sb.bpg ≤ 2 ^ 32) :
    ∃ fs, sbGeometry (superblockOf p sb) = .ok fs ∧ Derived (superblockOf p sb) fs ∧
      GeometryRight p sb (superblockOf p sb) fs := by
  obtain ⟨fs, hfs, hd, hbs, hgds, his, hipb, hitpg⟩ := @superblock_geometry p sb h hi
  have hgc := (hl.computed_gcount h hd).2 hroom
  have hipg : (superblockOf p sb).e2fs_ipg.toNat = sb.ipg := ofNat_toNat hw.ipg
  exact ⟨fs, hfs, hd, hbs, hgc, hl.computed_gdbcount h hd hbs hgds hgc, hgds, hipb, his,
    by rw [hitpg, hipg, hl.tables.1], ofNat_toNat hl.first_lt⟩

/-- **The data of the mount**, once the superblock is found and the groups are counted right. -/
theorem Laid.mounted (hi : p.oflag = false → p.inodesize = 128) (hfound : superByte p sb = SBLOCK * 512)
    (hroom : u32 (sb.bcount - sb.first_dblock) + sb.bpg ≤ 2 ^ 32) (hgd : Addressed t gd)
    (other : ℤ → List Desc) : ∃ mount : SbData (List Desc),
      computeSbData (fun dev => .ok (descsAt p sb gd other dev)) (superblockOf p sb) = .ok mount ∧
        GeometryRight p sb (superblockOf p sb) mount.toGeometry ∧ NamesRight p sb gd mount := by
  obtain ⟨fs, hfs, hd, hright⟩ := hl.geometry h hw hi hroom
  have hipg : (superblockOf p sb).e2fs_ipg.toNat = sb.ipg := ofNat_toNat hw.ipg
  -- every block of the descriptors is read from where it was written
  have hdb : 2 ^ fs.fsbtodb * 512 = p.bsize := by
    rw [hd.fsbtodb, log_bsize_toNat h]
    refine Eq.trans ?_ h.bsize_log
    ring
  have hrounds : fs.descRounds = sb.gdbcount := by
    have hsmall := hl.gdbcount_le h
    unfold Geometry.descRounds
    rw [hright.gdbcount, i32_natCast (by omega), Int.toNat_natCast]
  have hload : loadDescs (fun dev => .ok (descsAt p sb gd other dev)) fs fs.descRounds 0 =
      .ok ((List.range sb.gdbcount).map (descChunk p gd)) := by
    rw [loadDescs_eq, hrounds, ← List.range_eq_range']
    refine congrArg Except.ok (List.map_congr_left fun k hk => ?_)
    exact descsAt_eq h hl.first_dblock hfound hright.bsize hdb other (List.mem_range.1 hk)
  refine ⟨{ fs with gd := (List.range sb.gdbcount).map (descChunk p gd) }, ?_, hright, ?_⟩
  · exact except_bind_eq_ok.2 ⟨fs, hfs, except_bind_eq_ok.2 ⟨_, hload, rfl⟩⟩
  have htable : ∀ c, mountedGd { fs with gd := (List.range sb.gdbcount).map (descChunk p gd) } c = gd[c]? := by
    intro c
    unfold mountedGd descAt
    rw [flatten_chunks, List.take_of_length_le (hl.length_le h hgd), hright.gdsize,
      Nat.mul_div_cancel c (by decide)]
  refine ⟨fun c _ => htable c, fun x hx hx' => ?_⟩
  have hcount : sb.icount ≤ sb.ipg * sb.gcount := by
    rw [hw.icount, u32_natCast]
    exact Nat.mod_le _ _
  have hgroup : (x - 1) / sb.ipg < sb.gcount := Nat.div_lt_of_lt_mul (by omega)
  have hipgpos : 0 < sb.ipg := Nat.pos_of_ne_zero fun h0 => by
    rw [h0, Nat.zero_mul] at hcount
    omega
  refine ⟨hgroup, ?_, ?_⟩
  · rw [hl.tables.1]
    exact Nat.div_lt_div_of_lt_of_dvd hl.tables.2 (Nat.mod_lt _ hipgpos)
  · have hcg : fs.inoToCg x = (x - 1) / sb.ipg := by
      unfold Geometry.inoToCg
      rw [hd.ipg, hipg]
    unfold mountedFsba
    rw [htable, hcg, hipg, hright.ipb]

end

/-! ### When the driver takes a new volume -/

/-- **The driver takes a new volume as it was laid out**, for every accepted call, exactly when the sectors
are not longer than the offset of the superblock, and the blocks of the volume, with those of one group
added, are not too many for a word. -/
theorem mounted_right_iff (o : Options) (hv : o.Valid) (ha : Accepts (main o).value) :
    MountedRight (main o).value (newfs o).value.1 (newfs o).value.2 ↔
      o.sectorsize ≤ 1024 ∧
        u32 ((newfs o).value.1.bcount - (newfs o).value.1.first_dblock) + (newfs o).value.1.bpg ≤ 2 ^ 32 := by
  have h : Sizes (main o).value := ha.sizes hv.inodesize hv.minfree
  have hl := mke2fs_laid h
  have hw := mke2fs_words (main_inodes_lt hv)
  have hplace := superByte_iff h ha.sectors hl.first_dblock ha.sectorsize_pow.2
  rw [newfs_value]
  generalize (mke2fs (main o).value).value = r at hl hw hplace ⊢
  constructor
  · intro hr
    refine ⟨hplace.1 hr.found, ?_⟩
    obtain ⟨mount, hmount, hright, -⟩ := hr.computed (blank r.2).gd (fun _ => []) rfl
    exact (hl.computed_gcount h (sbGeometry_ok (computeSbData_ok hmount).1)).1 hright.gcount
  · rintro ⟨hsec, hroom⟩
    exact ⟨hplace.2 hsec, superblock_accepted h hl.bpg,
      fun gd other hgd => hl.mounted h hw ha.inodesize (hplace.2 hsec) hroom hgd other⟩

end

/-- The driver takes the image of 64 MiB as it was laid out. -/
theorem smallImage_mounted :
    MountedRight (main smallImage).value (newfs smallImage).value.1 (newfs smallImage).value.2 :=
  (mounted_right_iff smallImage smallImage_valid smallImage_accepted).2 ⟨by decide, by decide +kernel⟩

/-- A volume of 2^32 - 1 blocks of 1 KiB. -/
def fullWord : Options := { smallImage with fssize := 2 ^ 33 - 2 }

/-- **Two accepted calls** that the driver does not take as they were laid out: with sectors of 2 KiB the
superblock is at the start of the volume, and of 2^32 - 1 blocks the driver makes no group at all. -/
theorem mounted_wrong :
    ((longSectors.Valid ∧ Accepts (main longSectors).value) ∧
      superByte (main longSectors).value (newfs longSectors).value.1 = 0 ∧
        ¬MountedRight (main longSectors).value (newfs longSectors).value.1 (newfs longSectors).value.2) ∧
    (fullWord.Valid ∧ Accepts (main fullWord).value) ∧
      (newfs fullWord).value.1.gcount = 524288 ∧
        (sbGeometry (superblockOf (main fullWord).value (newfs fullWord).value.1)).map (·.gcount) = .ok 0 ∧
          ¬MountedRight (main fullWord).value (newfs fullWord).value.1 (newfs fullWord).value.2 := by
  have hvl : longSectors.Valid := ⟨by decide, .inl rfl, by decide, by decide, by decide⟩
  have hal : Accepts (main longSectors).value :=
    ⟨by decide, by decide, by decide, by decide, by decide, by decide, by decide, by decide +kernel⟩
  have hvf : fullWord.Valid := ⟨by decide, .inl rfl, by decide, by decide, by decide⟩
  have haf : Accepts (main fullWord).value :=
    ⟨by decide, by decide, by decide, by decide, by decide, by decide, by decide +kernel,
      by decide +kernel⟩
  have hstart : superByte (main longSectors).value (newfs longSectors).value.1 = 0 := by decide +kernel
  have hnone : (sbGeometry (superblockOf (main fullWord).value (newfs fullWord).value.1)).map (·.gcount) =
      .ok 0 := by decide +kernel
  have hgroups : (newfs fullWord).value.1.gcount = 524288 := by decide +kernel
  refine ⟨⟨⟨hvl, hal⟩, hstart, fun hr => ?_⟩, ⟨hvf, haf⟩, hgroups, hnone, fun hr => ?_⟩
  · have hfound := hr.found
    rw [hstart] at hfound
    exact absurd hfound (by decide)
  · obtain ⟨mount, hmount, hright, -⟩ :=
      hr.computed (blank (newfs fullWord).value.2).gd (fun _ => []) rfl
    rw [(computeSbData_ok hmount).1] at hnone
    have hzero : mount.gcount = 0 := Except.ok.inj hnone
    rw [hright.gcount, hgroups] at hzero
    cases hzero

end Ext2fs.Newfs
