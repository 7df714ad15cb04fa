import Ext2fs.Fsck.Ckinode
import Ext2fs.Fsck.Divisors
import Ext2fs.Lib.Tracked

/-!
# The layout that `newfs_ext2fs` computes

`main` sorts out the options, and `mke2fs` computes the groups, the inodes in each, the reserve and the
descriptors, one adjustment after the other, in unsigned arithmetic of 32 bits.

* `Options`, `Params` — what is asked for, and what `mke2fs` is called with;
* `Accepts` — `mke2fs` does not reject it;
* `firstGroups`, `dropLast`, `wholeTables`, `reserve`, `descriptors` — the steps of the computation;
* `mke2fs` — all of it.
-/

namespace Ext2fs.Newfs

open Tracked Fsck

/-! ### The options -/

/-- The options of `newfs_ext2fs`; 0 where an option is not given, but for the reserve. -/
structure Options where
  /-- the size in sectors, `-s` or that of the device -/
  fssize : ℕ
  sectorsize : ℕ
  bsize : ℕ
  fsize : ℕ
  inodesize : ℕ
  num_inodes : ℕ
  density : ℕ
  minfree : ℕ
  /-- format 1 -/
  oflag : Bool
  deriving DecidableEq, Repr

/-- What `main` lets pass. -/
structure Options.Valid (o : Options) : Prop where
  fssize : 0 < o.fssize ∧ o.fssize < 2 ^ 63
  inodesize : o.inodesize = 128 ∨ o.inodesize = 256
  num_inodes : o.num_inodes < 2 ^ 31
  density : o.density < 2 ^ 31
  minfree : o.minfree ≤ 99

/-- What `mke2fs` is called with. -/
structure Params where
  fssize : ℕ
  sectorsize : ℕ
  bsize : ℕ
  fsize : ℕ
  inodesize : ℕ
  num_inodes : ℕ
  minfree : ℕ
  oflag : Bool
  deriving DecidableEq, Repr

/-- The block size, where none is given. -/
def Options.defaultBsize (o : Options) : ℕ :=
  if o.fssize < 4 * 1024 * 1024 / o.sectorsize then 1024
  else if o.fssize < 512 * 1024 * 1024 / o.sectorsize then 1024 else 4096

/-- The number of inodes, where neither it nor a density is given. -/
def Options.defaultInodes (o : Options) (blocks : ℕ) : ℕ :=
  if o.fssize < 4 * 1024 * 1024 / o.sectorsize then blocks / 8
  else if o.fssize < 512 * 1024 * 1024 / o.sectorsize then blocks / 4 else blocks / 2

/-- `bsize` as it is sorted out. -/
def Options.sortedBsize (o : Options) : ℕ :=
  if o.bsize = 0 then if o.fsize = 0 then o.defaultBsize else o.fsize else o.bsize

/-- `num_inodes` as it is sorted out. -/
def Options.sortedInodes (o : Options) (blocks : ℕ) : Tracked ℕ :=
  if o.num_inodes ≠ 0 then pure o.num_inodes
  else if o.density ≠ 0 then conv 32 (o.fssize / o.density)
  else pure (o.defaultInodes blocks)

/-- The end of `main`. -/
def main (o : Options) : Tracked Params := do
  let bsize := o.sortedBsize
  let blocks ← conv 32 (o.fssize * o.sectorsize / bsize)
  let num_inodes ← o.sortedInodes blocks
  return {
    fssize := o.fssize
    sectorsize := o.sectorsize
    bsize := bsize
    fsize := if o.fsize = 0 then bsize else o.fsize
    inodesize := o.inodesize
    num_inodes := num_inodes
    minfree := o.minfree
    oflag := o.oflag }

/-! ### The checks of `mke2fs` -/

/-- `powerof2` -/
def powerof2 (x : ℕ) : Prop := x &&& (x - 1) = 0

instance (x : ℕ) : Decidable (powerof2 x) := inferInstanceAs (Decidable (_ = _))

namespace Params

variable (p : Params)

/-- `e2fs_fsbtodb` -/
def fsbtodb : ℕ := p.bsize.log2 - p.sectorsize.log2

/-- `e2fs_first_dblock` -/
def first_dblock : ℕ := if 1024 < p.bsize then 0 else 1

/-- `minfssize` -/
def minfssize : ℕ := (p.first_dblock + 1 + 1 + 1 + 1 + 1 + 1 + 1) * 2 ^ p.fsbtodb

/-- `e2fs_ipb` -/
def ipb : ℕ := p.bsize / p.inodesize

/-- `NINDIR` -/
def nindir : ℕ := p.bsize / 4

/-- The copies of the superblock, and the descriptors, are in this group. -/
def hasSb (c : ℕ) : Bool := !p.oflag || cgHasSb c

end Params

/-- `mke2fs` does not end with an error; `ilog2` rejects a sector size that is no power of 2. -/
structure Accepts (p : Params) : Prop where
  bsize_pow : powerof2 p.bsize
  sectorsize_pow : p.sectorsize ≠ 0 ∧ powerof2 p.sectorsize
  sectorsize_le : p.sectorsize ≤ p.fsize
  bsize_ge : 1024 ≤ p.bsize
  bsize_le : p.bsize ≤ 4096
  fsize_eq : p.bsize = p.fsize
  inodesize : p.oflag = false → p.inodesize = 128
  fssize : p.minfssize ≤ p.fssize

/-! ### The computation -/

/-- The variables `bcount`, `ncg`, `blocks_gd`, `num_inodes`, `inodes_per_cg` and `blocks_lastcg`. -/
structure Groups where
  bcount : ℕ
  ncg : ℕ
  blocks_gd : ℕ
  num_inodes : ℕ
  inodes_per_cg : ℕ
  blocks_lastcg : ℕ
  deriving DecidableEq, Repr

/-- The number of inodes, in its range. -/
def inodesFor (num most : ℕ) : ℕ :=
  let num := if num < FIRSTINO then FIRSTINO else num
  if most < num then most else num

/-- `howmany`, with the divisor looked at. -/
def howmany' (x y : ℕ) : Tracked ℕ := ⟨howmany x y, decide (y ≠ 0)⟩

/-- The blocks that a group needs at least, `minblocks_per_cg`. -/
def minblocks (p : Params) (ncg blocks_gd inodes_per_cg : ℕ) : Tracked ℕ := do
  let bytes ← mul 32 p.inodesize inodes_per_cg
  let iblocks_per_cg := howmany bytes p.bsize
  let minblocks_per_cg ← add 32 (1 + 1 + 1) iblocks_per_cg
  let last ← sub 32 ncg 1
  if p.hasSb last then add 32 minblocks_per_cg (1 + blocks_gd) else pure minblocks_per_cg

/-- From `bcount` to `blocks_lastcg`, with `minblocks_per_cg`. -/
def firstGroups (p : Params) : Tracked (Groups × ℕ) := do
  let bcount ← conv 32 (p.fssize / 2 ^ p.fsbtodb)
  let blocks_per_cg ← mul 32 p.bsize NBBY
  let blocks ← sub 32 bcount p.first_dblock
  let ncg ← howmany' blocks blocks_per_cg
  let blocks_gd := howmany (EXT2_MIN_GD_SIZE * ncg) p.bsize
  let most ← mul 32 65535 ncg
  let num_inodes := inodesFor p.num_inodes most
  let inodes_per_cg ← div num_inodes ncg
  let minblocks_per_cg ← minblocks p ncg blocks_gd inodes_per_cg
  let last ← sub 32 ncg 1
  let before ← mul 32 blocks_per_cg last
  let blocks_lastcg ← sub 32 blocks before
  return (⟨bcount, ncg, blocks_gd, num_inodes, inodes_per_cg, blocks_lastcg⟩, minblocks_per_cg)

/-- A last group that is too small is dropped. -/
def dropLast (p : Params) (g : Groups) (minblocks_per_cg : ℕ) : Tracked Groups :=
  if g.blocks_lastcg < minblocks_per_cg then do
    let bcount ← sub 32 g.bcount g.blocks_lastcg
    let ncg ← sub 32 g.ncg 1
    let inodes_per_cg ← div g.num_inodes ncg
    return { g with
      bcount := bcount
      ncg := ncg
      blocks_lastcg := p.bsize * NBBY
      blocks_gd := howmany (EXT2_MIN_GD_SIZE * ncg) p.bsize
      inodes_per_cg := inodes_per_cg }
  else pure g

/-- The superblock, as far as the layout goes, and the size of the last group. -/
structure Sb where
  bcount : ℕ
  icount : ℕ
  rbcount : ℕ
  first_dblock : ℕ
  bpg : ℕ
  ipg : ℕ
  gcount : ℕ
  gdbcount : ℕ
  itpg : ℕ
  /-- `EXT2F_COMPAT_RESIZE` -/
  resize : Bool
  reserved_ngdb : ℕ
  blocks_lastcg : ℕ
  deriving DecidableEq, Repr

/-- `roundup` -/
def roundup (x y : ℕ) : Tracked ℕ := if x % y = 0 then pure x else add 32 x (y - x % y)

/-- The inodes of a group fill whole blocks; the reserve. -/
def wholeTables (p : Params) (g : Groups) : Tracked Sb := do
  let inodes_per_cg ← roundup g.inodes_per_cg p.ipb
  let num_inodes ← mul 32 inodes_per_cg g.ncg
  let iblocks_per_cg ← div inodes_per_cg p.ipb
  let percent ← mul 32 g.bcount p.minfree
  return {
    bcount := g.bcount
    icount := num_inodes
    rbcount := percent / 100
    first_dblock := p.first_dblock
    bpg := p.bsize * NBBY
    ipg := inodes_per_cg
    gcount := g.ncg
    gdbcount := g.blocks_gd
    itpg := iblocks_per_cg
    resize := p.oflag
    reserved_ngdb := 0
    blocks_lastcg := g.blocks_lastcg }

/-- `cgoverhead` -/
def cgoverhead (p : Params) (sb : Sb) (c : ℕ) : Tracked ℕ := do
  let overh ← add 32 (1 + 1) sb.itpg
  if p.hasSb c then
    let overh ← add 32 overh (1 + sb.gdbcount)
    if sb.resize then add 32 overh sb.reserved_ngdb else pure overh
  else pure overh

/-- The descriptors that are reserved for growth. -/
def reserve (p : Params) (sb : Sb) : Tracked Sb :=
  if p.oflag then do
    let blocks ← sub 32 sb.bcount sb.first_dblock
    let target_blocks := min (blocks * 1024) (2 ^ 32 - 1)
    let target_ncg ← conv 32 (howmany target_blocks sb.bpg)
    let target_ngdb ← conv 32 (howmany (EXT2_MIN_GD_SIZE * target_ncg) p.bsize)
    let reserved_ngdb ← sub 32 (min target_ngdb p.nindir) sb.gdbcount
    let last ← sub 32 sb.gcount 1
    let overh ← cgoverhead p sb last
    let space ← sub 32 sb.blocks_lastcg overh
    let reserved_ngdb := if space ≤ reserved_ngdb then space else reserved_ngdb
    let stored ← conv 16 reserved_ngdb
    return { sb with resize := decide (reserved_ngdb ≠ 0), reserved_ngdb := stored }
  else pure sb

/-- A group descriptor. -/
structure Gd where
  b_bitmap : ℕ
  i_bitmap : ℕ
  i_tables : ℕ
  nbfree : ℕ
  nifree : ℕ
  deriving DecidableEq, Repr

/-- `cgbase` -/
def cgbase (sb : Sb) (c : ℕ) : Tracked ℕ := do
  let before ← mul 32 sb.bpg c
  add 32 sb.first_dblock before

/-- The first block after the superblock, the descriptors and the reserved ones of a group. -/
def bitmapBlock (p : Params) (sb : Sb) (c : ℕ) : Tracked ℕ := do
  let boffset ← cgbase sb c
  if p.hasSb c then
    let boffset ← add 32 boffset (1 + sb.gdbcount)
    if sb.resize then add 32 boffset sb.reserved_ngdb else pure boffset
  else pure boffset

/-- The descriptor of a group. -/
def descriptor (p : Params) (sb : Sb) (c : ℕ) : Tracked Gd := do
  let b_bitmap ← bitmapBlock p sb c
  let i_bitmap ← add 32 b_bitmap 1
  let i_tables ← add 32 i_bitmap 1
  let overh ← cgoverhead p sb c
  let last ← sub 32 sb.gcount 1
  let free ← sub 32 (if c = last then sb.blocks_lastcg else sb.bpg) overh
  let nbfree ← conv 16 free
  let nifree ← conv 16 sb.ipg
  let nifree ← if c = 0 then sub 16 nifree (FIRSTINO - 1) else pure nifree
  return ⟨b_bitmap, i_bitmap, i_tables, nbfree, nifree⟩

/-- The descriptors so far, `fbcount` and `ficount`. -/
structure Totals where
  gd : List Gd
  fbcount : ℕ
  ficount : ℕ
  deriving DecidableEq, Repr

/-- One round of the loop over the groups. -/
def addDescriptor (p : Params) (sb : Sb) (t : Totals) (c : ℕ) : Tracked Totals := do
  let gd ← descriptor p sb c
  let fbcount ← add 32 t.fbcount gd.nbfree
  let ficount ← add 32 t.ficount gd.nifree
  return ⟨t.gd ++ [gd], fbcount, ficount⟩

/-- The loop over the groups. -/
def descriptors (p : Params) (sb : Sb) : Tracked Totals :=
  Tracked.fold (addDescriptor p sb) (List.range sb.gcount) ⟨[], 0, 0⟩

/-- The layout that `mke2fs` computes. -/
def mke2fs (p : Params) : Tracked (Sb × Totals) := do
  let (g, minblocks_per_cg) ← firstGroups p
  let g ← dropLast p g minblocks_per_cg
  let sb ← wholeTables p g
  let sb ← reserve p sb
  let totals ← descriptors p sb
  return (sb, totals)

/-- `newfs_ext2fs`, up to the first write. -/
def newfs (o : Options) : Tracked (Sb × Totals) := do
  let p ← main o
  mke2fs p

end Ext2fs.Newfs
