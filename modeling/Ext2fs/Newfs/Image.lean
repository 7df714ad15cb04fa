import Ext2fs.Newfs.LayoutRight
import Ext2fs.Bitmap
import Ext2fs.Lib.Stopping

/-!
# What `newfs_ext2fs` writes

With the layout computed, `mke2fs` checks the last sector and wipes old superblocks, writes the groups
one after the other, makes the first inodes and directories, and writes the superblock once more.  Every
address goes through `wtfs`, which takes a sector in 32 bits with a sign; a write that fails ends the
program.

* `Volume` — the blocks of the volume, the writes that were asked for, the descriptors in memory;
* `wtfs`, `rdfs` — one write and one read;
* `initcg` — a group;
* `alloc`, `iput` — a block and an inode of the first group;
* `fsinit` — the inodes and directories of a new file system;
* `make` — all of it.
-/

namespace Ext2fs

namespace Bitmap

/-- `memset` of `n` bytes -/
def fill (map : Bitmap) (start n : ℕ) (v : BitVec 8) : Bitmap :=
  fun k => if start ≤ k ∧ k < start + n then v else map k

/-- `setbit` for `n` bits, one after the other -/
def setbits (map : Bitmap) (start : ℕ) : ℕ → Bitmap
  | 0 => map
  | n + 1 => (map.setbits start n).setbit (start + n)

end Bitmap

namespace Newfs

open Tracked Fsck

/-! ### The volume -/

/-- The inodes that `fsinit` makes. -/
structure Node where
  e2di_mode : ℕ
  e2di_size : ℕ
  e2di_nlink : ℕ
  e2di_nblock : ℕ
  e2di_blocks : ℕ → ℕ

/-- A group descriptor, with the directories that were made. -/
structure Desc extends Gd where
  ndirs : ℕ
  deriving DecidableEq, Repr

/-- What is in a block. -/
inductive Data where
  /-- nothing that was written here -/
  | old
  /-- the superblock, with the number of the group and the totals -/
  | super (block_group_nr fbcount ficount : ℕ)
  /-- a block of the descriptors -/
  | descs (k : ℕ) (gd : List Desc)
  | bitmap (map : Bitmap)
  /-- a block of an inode table, by its slots; a slot without a node has a generation number only -/
  | inodes (slots : ℕ → Option Node)
  /-- block numbers -/
  | refs (entries : ℕ → ℕ)
  /-- a block of a directory -/
  | entries

/-- What a write is for. -/
inductive What where
  /-- the check of the last sector -/
  | lastSector
  /-- the place of an old superblock -/
  | zap
  /-- superblock and descriptors of a group -/
  | super (c : ℕ)
  | block (b : ℕ)
  deriving DecidableEq, Repr

/-- A write that `wtfs` was asked for, with its sector as `daddr32_t`. -/
structure Request where
  what : What
  bno : ℤ
  size : ℕ
  deriving DecidableEq, Repr

/-- The volume, the writes so far, the last one first, and what is in memory. -/
structure Volume where
  disk : ℕ → Data
  asked : List Request
  gd : List Desc
  fbcount : ℕ
  ficount : ℕ

/-- A part of the program. -/
abbrev Making : Type → Type := Stopping Volume

/-- `data` in the blocks from `b` on. -/
def putBlocks (b : ℕ) (data : List Data) (disk : ℕ → Data) : ℕ → Data :=
  fun k => if b ≤ k then (data[k - b]?).getD (disk k) else disk k

/-- `EXT2_GD`, as far as the stride goes that is in use. -/
def descAt (gd : List Desc) (gdsize cg : ℕ) : Option Desc := gd[cg * gdsize / EXT2_MIN_GD_SIZE]?

/-! ### `sblock` -/

/-- `sblock`, which is static: what is not assigned is 0. -/
structure Sblock where
  e2fs_bsize : ℕ := 0
  e2fs_fsize : ℕ := 0
  e2fs_bshift : ℕ := 0
  e2fs_fsbtodb : ℕ := 0
  e2fs_ipb : ℕ := 0
  e2fs_ipg : ℕ := 0
  e2fs_gcount : ℕ := 0
  e2fs_gdbcount : ℕ := 0
  e2fs_itpg : ℕ := 0
  e2fs_gdsize : ℕ := 0
  /-- `e2fs_ipg` of the superblock on disk -/
  disk_ipg : ℕ := 0
  deriving DecidableEq, Repr

/-- The members that `mke2fs` assigns. -/
def sblock (p : Params) (sb : Sb) : Sblock where
  e2fs_bsize := p.bsize
  e2fs_fsize := p.fsize
  e2fs_bshift := p.bsize.log2
  e2fs_fsbtodb := p.fsbtodb
  e2fs_ipb := p.ipb
  e2fs_gcount := sb.gcount
  e2fs_gdbcount := sb.gdbcount
  e2fs_itpg := sb.itpg
  disk_ipg := sb.ipg

namespace Sblock

variable (fs : Sblock)

/-- `ino_to_cg`; on the machines the tool is built for the quotient by 0 is 0. -/
def ino_to_cg (x : ℕ) : ℕ := (x - 1) / fs.e2fs_ipg

/-- `ino_to_fsba` -/
def ino_to_fsba (gd : List Desc) (x : ℕ) : Option ℕ :=
  (descAt gd fs.e2fs_gdsize (fs.ino_to_cg x)).map fun d =>
    d.i_tables + (x - 1) % fs.disk_ipg / fs.e2fs_ipb

/-- `ino_to_fsbo` -/
def ino_to_fsbo (x : ℕ) : ℕ := (x - 1) % fs.e2fs_ipb

end Sblock

section

variable (raw : Data → Bitmap) (p : Params) (sb : Sb)

/-! ### One write and one read -/

/-- `wtfs`: a sector that is negative makes `pwrite` fail, and the program ends. -/
def wtfs (what : What) (bno : ℤ) (size : ℕ) (data : List Data) : Making Unit := do
  Stopping.modify fun vol => { vol with asked := ⟨what, i32 bno, size⟩ :: vol.asked }
  Stopping.assert (0 ≤ i32 bno)
  Stopping.modify fun vol => { vol with
    disk := putBlocks ((i32 bno).toNat / 2 ^ p.fsbtodb) data vol.disk }

/-- `fsbtodb` -/
def Params.todb (b : ℕ) : ℤ := b * 2 ^ p.fsbtodb

/-- `wtfs` of one block -/
def wtfsBlock (b : ℕ) (data : Data) : Making Unit := wtfs p (.block b) (p.todb b) p.bsize [data]

/-- `rdfs` of one block -/
def rdfsBlock (b : ℕ) : Making Data := do
  Stopping.assert (0 ≤ i32 (p.todb b))
  let vol ← Stopping.get
  return vol.disk ((i32 (p.todb b)).toNat / 2 ^ p.fsbtodb)

/-- A block as it is looked at as a bitmap. -/
def Data.map : Data → Bitmap
  | .bitmap map => map
  | data => raw data

/-- A block as it is looked at as a part of an inode table. -/
def Data.slots : Data → ℕ → Option Node
  | .inodes slots => slots
  | _ => fun _ => none

/-! ### The check of the last sector, and old superblocks -/

/-- Where the superblock is in the first block. -/
def SBOFF : ℕ := 1024

/-- `cg0_data`: the first sector that `initcg` does not write in the first group. -/
def cg0_data : ℕ := u32 ((sb.first_dblock + (cgoverhead p sb 0).value : ℕ) * p.bsize) / p.sectorsize

/-- `zap_old_sblock`.  No sector lies behind `SBOFF` and before the first block, so its search for
magic numbers is not reached. -/
def zap_old_sblock (sec : ℤ) : Making Unit :=
  if sec < (SBOFF / p.sectorsize : ℕ) then pure ()
  else if (p.fssize : ℤ) ≤ sec then pure ()
  else if (sb.first_dblock * p.bsize / p.sectorsize : ℕ) ≤ sec then
    if (cg0_data p sb : ℤ) ≤ sec then wtfs p .zap sec (roundup SBSIZE p.sectorsize).value []
    else pure ()
  else pure ()

/-- The values of `pblock` in the loop from `pblock` on; none where it comes round for ever. -/
def pblocks (epblock step : ℕ) : ℕ → ℕ → Option (List ℕ)
  | 0, _ => none
  | fuel + 1, pblock =>
    if pblock < epblock then (pblock :: ·) <$> pblocks epblock step fuel (u32 (pblock + step : ℕ))
    else some []

/-- One size of blocks that an old file system can have had. -/
def zapAll (pbsize : ℕ) : Making Unit := do
  let epblock := u32 (sb.bcount * p.bsize / pbsize : ℕ)
  let blocks ← Stopping.ofOption
    (pblocks epblock (pbsize * NBBY) (2 ^ 20) (if pbsize = SBSIZE then 1 else 0))
  Stopping.each (fun pblock => zap_old_sblock p sb (u32 (pblock * pbsize : ℕ) / p.sectorsize : ℕ)) blocks

/-- What comes before the groups. -/
def validate : Making Unit := do
  wtfs p .lastSector (p.fssize - 1) p.sectorsize []
  Stopping.each (zapAll p sb) [1024, 2048, 4096]

/-! ### A group -/

/-- The room for a boot block in the first block of a group, `sboff`. -/
def sboff (c : ℕ) : ℕ := if (cgbase sb c).value = 0 then SBOFF else 0

/-- Superblock and descriptors of a group. -/
def writeSuper (c : ℕ) : Making Unit := do
  let vol ← Stopping.get
  wtfs p (.super c) (p.todb (cgbase sb c).value + (sboff sb c / p.sectorsize : ℕ))
    ((1 + sb.gdbcount) * p.bsize - sboff sb c)
    (.super c vol.fbcount vol.ficount :: (List.range sb.gdbcount).map fun k => .descs k vol.gd)

/-- The copy of them that a group has. -/
def writeCopy (c : ℕ) : Making Unit := Stopping.when (p.hasSb c) (writeSuper p sb c)

/-- The block bitmap of a group. -/
def blockMap (c : ℕ) : Bitmap :=
  let buf : Bitmap := fun _ => 0
  -- the last group can have fewer blocks
  let buf :=
    if c = sb.gcount - 1 then
      let nblcg := u32 (sb.bcount - (cgbase sb (sb.gcount - 1)).value)
      let i := (roundup nblcg NBBY).value
      (buf.setbits nblcg (i - nblcg)).fill (i / NBBY) (u32 (sb.bpg - i)) 0xff
    else buf
  let overh := (cgoverhead p sb c).value
  (buf.fill 0 (overh / NBBY) 0xff).setbits (overh / NBBY * NBBY) (overh - overh / NBBY * NBBY)

/-- The inode bitmap of a group: `e2fs_ipg` is taken to be a multiple of `NBBY`. -/
def inodeMap (c : ℕ) : Bitmap :=
  let i := sb.ipg / NBBY
  let buf := (Bitmap.fill (fun _ => 0) 0 i 0).fill i (p.bsize - i) 0xff
  if c = 0 then buf.setbits 0 (FIRSTINO - 1) else buf

/-- The inode bitmap is written.  With more inodes than it has room for the second `memset` runs past
all memory. -/
def writeInodeMap (d : Desc) (c : ℕ) : Making Unit := do
  Stopping.assert (sb.ipg / NBBY ≤ p.bsize)
  wtfsBlock p d.i_bitmap (.bitmap (inodeMap p sb c))

/-- `initcg` -/
def initcg (c : ℕ) : Making Unit := do
  writeCopy p sb c
  let vol ← Stopping.get
  let d ← Stopping.ofOption vol.gd[c]?
  wtfsBlock p d.b_bitmap (.bitmap (blockMap p sb c))
  writeInodeMap p sb d c
  Stopping.each (fun i => wtfsBlock p (u32 (d.i_tables + i : ℕ)) (.inodes fun _ => none))
    (List.range sb.itpg)

/-! ### A block and an inode -/

/-- The first clear bit: `skpc` finds its byte, and a loop the bit. -/
def firstClear (bbp : Bitmap) (len : ℕ) : Option ℕ := do
  let loc ← memcchr bbp 0xff 0 len
  let i ← (List.range NBBY).find? fun i => bbp loc &&& (1#8 <<< i) == 0#8
  return loc * NBBY + i

/-- The block at `bno` is taken. -/
def takeBlock (d : Desc) (map : Bitmap) (mode bno : ℕ) : Making ℕ := do
  wtfsBlock p d.b_bitmap (.bitmap (map.setbit bno))
  Stopping.modify fun vol => { vol with
    gd := vol.gd.set 0 { d with
      nbfree := (d.nbfree - 1) % 2 ^ 16
      ndirs := if mode &&& IFDIR ≠ 0 then (d.ndirs + 1) % 2 ^ 16 else d.ndirs }
    fbcount := u32 (vol.fbcount - 1) }
  return u32 (sb.first_dblock + bno : ℕ)

/-- The bitmap is searched for a block. -/
def searchBlock (d : Desc) (mode : ℕ) : Making ℕ := do
  let data ← rdfsBlock p d.b_bitmap
  match firstClear (data.map raw) (sb.bpg / NBBY) with
  | none => return 0
  | some bno => takeBlock p sb d (data.map raw) mode bno

/-- `alloc`: a block of the first group, or 0. -/
def alloc (size mode : ℕ) : Making ℕ := do
  let vol ← Stopping.get
  let d ← Stopping.ofOption vol.gd[0]?
  if d.nbfree = 0 then return 0
  else if p.bsize < size then return 0
  else searchBlock raw p sb d mode

/-- A block, where the program ends when there is none. -/
def allocOrStop (size mode : ℕ) : Making ℕ := do
  let b ← alloc raw p sb size mode
  Stopping.assert (b ≠ 0)
  return b

/-- The bit of an inode is set, unless it is set already. -/
def setInodeBit (first : Desc) (map : Bitmap) (ino : ℕ) : Making Unit := do
  Stopping.assert (map.isclr (ino - 1))
  wtfsBlock p first.i_bitmap (.bitmap (map.setbit (ino - 1)))

/-- The part of `iput` for an inode that is not reserved. -/
def markInode (ino : ℕ) : Making Unit := do
  let c := (sblock p sb).ino_to_cg ino
  let vol ← Stopping.get
  let d ← Stopping.ofOption vol.gd[c]?
  let first ← Stopping.ofOption vol.gd[0]?
  Stopping.assert (d.nifree ≠ 0)
  let data ← rdfsBlock p first.i_bitmap
  setInodeBit p first (data.map raw) ino
  Stopping.modify fun vol => { vol with
    gd := vol.gd.set c { d with nifree := (d.nifree - 1) % 2 ^ 16 }
    ficount := u32 (vol.ficount - 1) }

/-- The inode goes to its place in the table. -/
def putInode (ip : Node) (ino : ℕ) : Making Unit := do
  let vol ← Stopping.get
  let b ← Stopping.ofOption ((sblock p sb).ino_to_fsba vol.gd ino)
  let data ← rdfsBlock p b
  wtfsBlock p b (.inodes
    (Function.update data.slots ((sblock p sb).ino_to_fsbo ino) (some ip)))

/-- `iput` -/
def iput (ip : Node) (ino : ℕ) : Making Unit := do
  Stopping.when (FIRSTINO ≤ ino) (markInode raw p sb ino)
  Stopping.assert (ino < u32 (sb.ipg * sb.gcount : ℕ))
  putInode p sb ip ino

/-! ### The first inodes and directories -/

/-- `EXT2_RESIZEINO` -/
def RESIZEINO : ℕ := 7

/-- `EXT2_LOSTFOUNDINO` -/
def LOSTFOUNDINO : ℕ := FIRSTINO

def LOSTFOUNDSIZE : ℕ := 16384

def IFREG : ℕ := 0x8000

/-- The copies of reserved descriptor block `i` in the other groups. -/
def backups (i : ℕ) : List ℕ :=
  ((List.range' 1 (sb.gcount - 1)).filter fun c => p.hasSb c).map fun c =>
    u32 ((cgbase sb c).value + 1 + i : ℕ)

/-- One round of the loop of `init_resizeino` over the reserved descriptor blocks. -/
def reserveBlock (i : ℕ) : Making Unit := do
  Stopping.assert (i < p.nindir)
  Stopping.assert ((backups p sb i).length ≤ p.nindir)
  wtfsBlock p (u32 ((cgbase sb 0).value + 1 + i : ℕ)) (.refs fun n => (backups p sb i).getD n 0)

/-- `init_resizeino` -/
def init_resizeino : Making Unit := do
  let mode := IFREG ||| 0o600
  let dindir ← allocOrStop raw p sb p.bsize mode
  Stopping.each (reserveBlock p sb) (List.range' sb.gdbcount sb.reserved_ngdb)
  wtfsBlock p dindir (.refs fun i =>
    if sb.gdbcount ≤ i ∧ i < sb.gdbcount + sb.reserved_ngdb then
      u32 ((cgbase sb 0).value + 1 + i : ℕ) else 0)
  iput raw p sb {
    e2di_mode := mode
    e2di_size := p.bsize * NDADDR + p.bsize * p.nindir + p.bsize * p.nindir * p.nindir
    e2di_nlink := 1
    e2di_nblock := u32 (2 ^ p.fsbtodb * (1 + ((List.range' sb.gdbcount sb.reserved_ngdb).map fun i =>
      1 + (backups p sb i).length).sum) : ℕ)
    e2di_blocks := fun k => if k = NDADDR + 1 then dindir else 0 } RESIZEINO

/-- The blocks of `lost+found`. -/
def nblks_lostfound : ℕ := min (LOSTFOUNDSIZE / p.bsize) NDADDR

/-- The part of `fsinit` for `lost+found`. -/
def init_lostfound : Making Unit := do
  let mode := IFDIR ||| 0o700
  let blk ← allocOrStop raw p sb p.bsize mode
  let blks ← Stopping.gather (allocOrStop raw p sb p.bsize 0) (nblks_lostfound p - 1)
  wtfsBlock p blk .entries
  Stopping.each (fun b => wtfsBlock p b .entries) blks
  iput raw p sb {
    e2di_mode := mode
    e2di_size := p.bsize * nblks_lostfound p
    e2di_nlink := 2
    e2di_nblock := 2 ^ p.fsbtodb * nblks_lostfound p
    e2di_blocks := fun k => (blk :: blks).getD k 0 } LOSTFOUNDINO

/-- The part of `fsinit` for the root directory. -/
def init_root : Making Unit := do
  let mode := IFDIR ||| 0o755
  let blk ← allocOrStop raw p sb p.bsize mode
  wtfsBlock p blk .entries
  iput raw p sb {
    e2di_mode := mode
    e2di_size := p.bsize
    e2di_nlink := 3
    e2di_nblock := 2 ^ p.fsbtodb
    e2di_blocks := fun k => if k = 0 then blk else 0 } Fsck.ROOTINO

/-- `fsinit` -/
def fsinit : Making Unit := do
  Stopping.when sb.resize (init_resizeino raw p sb)
  init_lostfound raw p sb
  init_root raw p sb

/-! ### All of it -/

/-- What `mke2fs` writes, once the last sector and old superblocks are seen to. -/
def construct : Making Unit := do
  Stopping.each (initcg p sb) (List.range sb.gcount)
  fsinit raw p sb
  writeSuper p sb 0

/-- The volume before the first write. -/
def blank (t : Totals) : Volume where
  disk := fun _ => .old
  asked := []
  gd := t.gd.map fun d => { d with ndirs := 0 }
  fbcount := t.fbcount
  ficount := t.ficount

/-- The writing part of `mke2fs`, with how far it came. -/
def make (t : Totals) : Option Unit × Volume :=
  (do
    validate p sb
    construct raw p sb : Making Unit) (blank t)

end

end Newfs

end Ext2fs
