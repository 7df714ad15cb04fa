import Ext2fs.Superblock
import Ext2fs.Fsck.Inodes

/-!
# The superblock buffers of the checker

The checker keeps the superblock three times: as `struct ext2fs` in memory, in the buffer `sblk` it was
read through, and, with more than one group, in `asblk`, the copy of the first alternate.  Changes are
made in memory, `sbdirty` copies some fields into `sblk`, and `flush` writes a buffer to the sector in
its `b_bno`.

* `readsb`, `setup` — the superblock is read, from an alternate when the primary is bad;
* `Step` — what the passes do with the buffers;
* `ckfini` — everything is written at the end;
* `checkfilesys` — a run, with a log of the reads and writes;
* `InPlace` — the writes of a log go where their contents were read.
-/

namespace Ext2fs.Fsck

/-! ### The superblock on disk -/

/-- `struct ext2fs`: the fields that a mount reads, the others that the checker looks at, and the rest of
its bytes. -/
structure SbImage extends Superblock where
  /-- free blocks count -/
  e2fs_fbcount : BitVec 32
  /-- free inodes count -/
  e2fs_ficount : BitVec 32
  /-- mount time -/
  e2fs_mtime : BitVec 32
  /-- write time -/
  e2fs_wtime : BitVec 32
  /-- mount count -/
  e2fs_mnt_count : BitVec 16
  /-- max mount count -/
  e2fs_max_mnt_count : BitVec 16
  /-- file system state -/
  e2fs_state : BitVec 16
  /-- behavior on errors -/
  e2fs_beh : BitVec 16
  /-- time of last fsck -/
  e2fs_lastfsck : BitVec 32
  /-- max time between fscks -/
  e2fs_fsckintv : BitVec 32
  /-- creator OS -/
  e2fs_creator : BitVec 32
  /-- default uid for reserved blocks -/
  e2fs_ruid : BitVec 16
  /-- default gid for reserved blocks -/
  e2fs_rgid : BitVec 16
  /-- block grp number of this sblk -/
  e2fs_block_group_nr : BitVec 16
  /-- name mounted on -/
  e2fs_fsmnt : List (BitVec 8)
  /-- KiB written over the fs lifetime -/
  e4fs_kbytes_written : BitVec 64
  rest : List (BitVec 8)
  deriving DecidableEq, Repr

/-- Unmounted cleanly -/
def E2FS_ISCLEAN : BitVec 16 := 0x0001

/-- The sector of the primary superblock, `SBOFF / DEV_BSIZE`. -/
def SBSECTOR : ℤ := 2

/-- `howmany` -/
def howmany (x y : ℕ) : ℕ := if x % y = 0 then x / y else x / y + 1

namespace SbImage

variable (fs : SbImage)

/-- `e2fs_bsize` -/
def bsize : ℕ := 1024 * 2 ^ fs.e2fs_log_bsize.toNat

/-- `e2fs_gcount` -/
def gcount : ℕ :=
  howmany (u32 ((fs.e2fs_bcount.toNat : ℤ) - fs.e2fs_first_dblock.toNat)) fs.e2fs_bpg.toNat

/-- `e2fs_gdsize` -/
def gdsize : ℕ :=
  if E2FS_REV0.toNat < fs.e2fs_rev.toNat ∧ fs.e2fs_features_incompat &&& EXT2F_INCOMPAT_64BIT ≠ 0 ∧
      fs.e3fs_desc_size ≠ 0 then fs.e3fs_desc_size.toNat
  else EXT2_MIN_GD_SIZE

/-- `e2fs_gdbcount` -/
def gdbcount : ℕ := howmany fs.gcount (fs.bsize / fs.gdsize)

/-- `fsbtodb`, kept in a `daddr32_t`. -/
def fsbtodb (b : ℤ) : ℤ := i32 (b * 2 ^ (fs.e2fs_log_bsize.toNat + 1))

/-- The sector of block `i` of the descriptor table. -/
def gdSector (i : ℕ) : ℤ := fs.fsbtodb ((if fs.bsize > 1024 then 0 else 1) + i + 1)

/-- The sector of the first alternate, in group 1. -/
def altSector : ℤ := fs.fsbtodb (i32 (u32 (fs.e2fs_bpg.toNat + fs.e2fs_first_dblock.toNat : ℕ)))

end SbImage

/-- `copyback_sb`: the fields that are copied from memory into a buffer. -/
def copybackSb (buf fs : SbImage) : SbImage :=
  { buf with
    e2fs_icount := fs.e2fs_icount
    e2fs_bcount := fs.e2fs_bcount
    e2fs_rbcount := fs.e2fs_rbcount
    e2fs_fbcount := fs.e2fs_fbcount
    e2fs_ficount := fs.e2fs_ficount
    e2fs_first_dblock := fs.e2fs_first_dblock
    e2fs_log_bsize := fs.e2fs_log_bsize
    e2fs_log_fsize := fs.e2fs_log_fsize
    e2fs_bpg := fs.e2fs_bpg
    e2fs_fpg := fs.e2fs_fpg
    e2fs_ipg := fs.e2fs_ipg
    e2fs_mtime := fs.e2fs_mtime
    e2fs_wtime := fs.e2fs_wtime
    e2fs_lastfsck := fs.e2fs_lastfsck
    e2fs_fsckintv := fs.e2fs_fsckintv
    e2fs_creator := fs.e2fs_creator
    e2fs_rev := fs.e2fs_rev
    e2fs_mnt_count := fs.e2fs_mnt_count
    e2fs_max_mnt_count := fs.e2fs_max_mnt_count
    e2fs_magic := fs.e2fs_magic
    e2fs_state := fs.e2fs_state
    e2fs_beh := fs.e2fs_beh
    e2fs_ruid := fs.e2fs_ruid
    e2fs_rgid := fs.e2fs_rgid }

/-- What `readsb` takes over from the superblock before it compares the alternate with it. -/
def maskAlternate (alt sb : SbImage) : SbImage :=
  { alt with
    e2fs_rbcount := sb.e2fs_rbcount
    e2fs_fbcount := sb.e2fs_fbcount
    e2fs_ficount := sb.e2fs_ficount
    e2fs_mtime := sb.e2fs_mtime
    e2fs_wtime := sb.e2fs_wtime
    e2fs_mnt_count := sb.e2fs_mnt_count
    e2fs_max_mnt_count := sb.e2fs_max_mnt_count
    e2fs_state := sb.e2fs_state
    e2fs_beh := sb.e2fs_beh
    e2fs_lastfsck := sb.e2fs_lastfsck
    e2fs_fsckintv := sb.e2fs_fsckintv
    e2fs_ruid := sb.e2fs_ruid
    e2fs_rgid := sb.e2fs_rgid
    e2fs_block_group_nr := sb.e2fs_block_group_nr
    e2fs_features_rocompat := alt.e2fs_features_rocompat &&& ~~~EXT2F_ROCOMPAT_LARGEFILE |||
      sb.e2fs_features_rocompat &&& EXT2F_ROCOMPAT_LARGEFILE
    e2fs_fsmnt := sb.e2fs_fsmnt
    e4fs_kbytes_written := sb.e4fs_kbytes_written }

/-! ### Buffers and the log -/

/-- The buffers, and the blocks of the descriptor table, which are written from memory. -/
inductive Buf where
  | sblk
  | asblk
  | gd (i : ℕ)
  | pool (n : ℕ)
  deriving DecidableEq, Repr

/-- A read or a write of the device; that of a superblock has its contents. -/
inductive Io where
  | read (b : Buf) (sector : ℤ)
  | write (b : Buf) (sector : ℤ) (img : Option SbImage)
  deriving DecidableEq, Repr

/-- `struct bufarea`, without its contents. -/
structure BufArea where
  b_bno : ℤ
  b_errs : Bool
  b_dirty : Bool
  deriving DecidableEq, Repr

/-- `initbarea` -/
def BufArea.init : BufArea := ⟨-1, false, false⟩

/-- A buffer that has been written. -/
def BufArea.flushed (bp : BufArea) : BufArea := { bp with b_dirty := false, b_errs := false }

/-- The options, the device, and the answers that `setup` gets. -/
structure Env where
  /-- `-b` -/
  bflag : ℤ
  preen : Bool
  skipclean : Bool
  /-- `fswritefd` is open -/
  writable : Bool
  /-- what a sector reads as; the read may fail -/
  disk : ℕ → Option SbImage
  /-- the size of the device in blocks of 1 KiB, where it is known -/
  devBlocks : Option ℕ
  /-- LOOK FOR ALTERNATE SUPERBLOCKS, and SET TO DEFAULT -/
  lookForAlternates : Bool
  setToDefault : Bool
  /-- the buffers of the pool -/
  nbufs : ℕ

/-- The variables; a log has its newest entry first. -/
structure St where
  /-- `sblock.e2fs` -/
  sblock : SbImage
  sblk : BufArea
  asblk : BufArea
  /-- the contents of `sblk` and `asblk` -/
  img : SbImage
  aimg : SbImage
  pool : ℕ → BufArea
  bflag : ℤ
  havesb : Bool
  fsmodified : Bool
  log : List Io

/-- The sector that `readsb` takes the superblock from. -/
def St.super (s : St) : ℤ := if s.bflag ≠ 0 then s.bflag else SBSECTOR

section

variable (env : Env)

/-- `bwrite`; a write in front of the device fails. -/
def bwrite (b : Buf) (blk : ℤ) (img : Option SbImage) (s : St) : St :=
  if env.writable ∧ 0 ≤ blk then { s with fsmodified := true, log := .write b blk img :: s.log }
  else s

/-- The descriptor table is written behind the superblock. -/
def bwriteGd (s : St) : St :=
  (List.range s.sblock.gdbcount).foldl
    (fun s' i => bwrite env (.gd i) (s.sblock.gdSector i) none s') s

/-- `flush` -/
def flush (b : Buf) (s : St) : St :=
  match b with
  | .sblk =>
      if s.sblk.b_dirty then
        bwriteGd env <| bwrite env .sblk s.sblk.b_bno (some s.img)
          { s with sblk := s.sblk.flushed }
      else s
  | .asblk =>
      if s.asblk.b_dirty then
        bwrite env .asblk s.asblk.b_bno (some s.aimg)
          { s with asblk := s.asblk.flushed }
      else s
  | .pool n =>
      if (s.pool n).b_dirty then
        bwrite env (.pool n) (s.pool n).b_bno none
          { s with pool := Function.update s.pool n (s.pool n).flushed }
      else s
  | .gd _ => s

/-- `sbdirty` -/
def sbdirty (s : St) : St :=
  { s with img := copybackSb s.img s.sblock, sblk := { s.sblk with b_dirty := true } }

/-- `bread` of a superblock. -/
def breadSb (blk : ℤ) : Option SbImage := if 0 ≤ blk then env.disk blk.toNat else none

/-- `getblk` of the first alternate, whose sector is `dblk`. -/
def getblkAlt (dblk : ℤ) (s : St) : St :=
  if s.asblk.b_bno = dblk then s
  else
    let s := flush env .asblk s
    { s with
      aimg := (breadSb env dblk).getD s.aimg
      asblk := { s.asblk with b_bno := dblk, b_errs := (breadSb env dblk).isNone }
      log := .read .asblk dblk :: s.log }

/-- `getblk` of a buffer of the pool, for the block at a sector. -/
def getblk (n : ℕ) (dblk : ℤ) (s : St) : St :=
  if (s.pool n).b_bno = dblk then s
  else
    let s := flush env (.pool n) s
    { s with
      pool := Function.update s.pool n { s.pool n with b_bno := dblk }
      log := .read (.pool n) dblk :: s.log }

/-! ### `setup` -/

/-- A superblock that was read is taken to memory. -/
def St.load (s : St) (img : SbImage) : St :=
  { s with
    img := img
    sblock := img
    sblk := { s.sblk with b_bno := s.super }
    log := .read .sblk s.super :: s.log }

/-- The consistency checks of `readsb`. -/
def SbImage.Bad (fs : SbImage) : Prop :=
  fs.e2fs_magic ≠ E2FS_MAGIC ∨ 2 < fs.e2fs_log_bsize.toNat ∨ fs.e2fs_bpg = 0 ∨
    fs.gdsize < EXT2_MIN_GD_SIZE ∨ fs.gdsize &&& (fs.gdsize - 1) ≠ 0 ∨ fs.bsize < fs.gdsize

/-- The volume has features that the checker does not know. -/
def SbImage.Unknown (fs : SbImage) : Prop :=
  E2FS_REV0.toNat < fs.e2fs_rev.toNat ∧
    (fs.e2fs_features_incompat &&& ~~~EXT2F_INCOMPAT_SUPP ≠ 0 ∨
      fs.e2fs_features_rocompat &&& ~~~EXT2F_ROCOMPAT_SUPP ≠ 0)

instance (fs : SbImage) : Decidable fs.Bad := inferInstanceAs (Decidable (_ ∨ _))

instance (fs : SbImage) : Decidable fs.Unknown := inferInstanceAs (Decidable (_ ∧ _))

/-- The superblock is compared with the first alternate, unless `-b` named it or there is none. -/
def compareAlternate (s : St) : Bool × St :=
  if s.sblock.gcount = 1 then (true, { s with havesb := true })
  else
    let s := getblkAlt env s.sblock.altSector s
    if s.asblk.b_errs then (false, s)
    else if s.bflag ≠ 0 then (true, { s with havesb := true })
    else
      let s := { s with aimg := maskAlternate s.aimg s.img }
      if s.sblock.Unknown then (false, s)
      else if s.img ≠ s.aimg then (false, s)
      else (true, { s with havesb := true })

/-- `readsb`; the result says whether the superblock is taken. -/
def readsb (s : St) : Bool × St :=
  match breadSb env s.super with
  | none => (false, s)
  | some img =>
      let s := s.load img
      if img.Bad then (false, s)
      else compareAlternate env
        { s with sblk := { s.sblk with b_bno := s.super.tdiv DEV_BSIZE } }

/-- The sector of the alternate in a group, on a volume with blocks of 1 KiB. -/
def protoSector (cg : ℕ) : ℤ := i32 ((cg * 8192 + 1) * 2 : ℕ)

/-- Alternates are tried. -/
def tryAlternates : List ℤ → St → Bool × St
  | [], s => (false, s)
  | sector :: sectors, s =>
      let r := readsb env { s with bflag := sector }
      if r.1 then r else tryAlternates sectors r.2

/-- `calcsb`: the groups of such a volume. -/
def protoGcount (blocks : ℕ) : ℕ := howmany (u32 ((u32 blocks : ℤ) - 1)) 8192

/-- The sectors that are tried. -/
def protoSectors (blocks : ℕ) : List ℤ := (List.range' 1 (protoGcount blocks - 1)).map protoSector

/-- Nothing has been read. -/
def St.init (fs : SbImage) : St where
  sblock := fs
  sblk := .init
  asblk := .init
  img := fs
  aimg := fs
  pool _ := .init
  bflag := env.bflag
  havesb := false
  fsmodified := false
  log := []

/-- The reserved block count is corrected; under `-p` the program ends instead. -/
def fixReserved (s : St) : Option St :=
  if s.sblock.e2fs_rbcount.toNat ≤ s.sblock.e2fs_bcount.toNat then some s
  else if env.preen then none
  else if env.setToDefault ∧ env.writable then
    -- the C multiplies with 0.1 in floating point and cuts the fraction off
    let s := sbdirty { s with
      sblock := { s.sblock with e2fs_rbcount := .ofNat 32 (s.sblock.e2fs_bcount.toNat / 10) } }
    some { s with asblk := { s.asblk with b_dirty := true } }
  else some s

/-- The copy of the alternate is written, unless an alternate is in use. -/
def writeAlt (s : St) : St :=
  if s.asblk.b_dirty ∧ s.bflag = 0 then
    flush env .asblk { s with aimg := copybackSb s.aimg s.sblock }
  else s

/-- The descriptor table is read. -/
def readGd (s : St) : St :=
  let add (log : List Io) (i : ℕ) := .read (.gd i) (s.sblock.gdSector i) :: log
  { s with log := (List.range s.sblock.gdbcount).foldl add s.log }

/-- The superblock is looked for; a volume that was found through an alternate is checked even when it
is clean. -/
def findSb (s : St) : Option (St × Bool) :=
  let r := readsb env s
  if r.1 then some (r.2, env.skipclean)
  else if r.2.bflag ≠ 0 ∨ env.preen ∨ !env.lookForAlternates ∨ !env.writable then none
  else env.devBlocks.bind fun blocks =>
    let r := tryAlternates env (protoSectors blocks) r.2
    if r.1 then some (r.2, false) else none

/-- `setup` up to the tables it allocates; nothing when the volume is not checked. -/
def setup (fs : SbImage) : Option St :=
  if env.preen ∧ !env.writable then none
  else (findSb env (St.init env fs)).bind fun r =>
    if r.1.sblock.e2fs_state = E2FS_ISCLEAN ∧ r.2 then none
    else (fixReserved env r.1).bind fun s =>
      if s.sblock.e2fs_bpg ≠ s.sblock.e2fs_fpg then none
      else some (readGd (writeAlt env s))

/-! ### The passes -/

/-- What the passes do with the buffers. -/
inductive Step where
  /-- `inosize`, `inossize`: a size of 2 GiB sets the large file flag, if the answer is yes -/
  | inosize (size : ℕ) (set : Bool)
  /-- a directory entry or a descriptor was changed -/
  | altered
  /-- `pass5` has the totals, and puts them right if the answer is yes -/
  | totals (nbfree nifree : BitVec 32) (fix : Bool)
  | dirty (n : ℕ)
  | getblk (n : ℕ) (dblk : ℤ)
  | flush (b : Buf)
  deriving DecidableEq, Repr

/-- `setlarge` -/
def setlarge (set : Bool) (s : St) : St :=
  if s.sblock.e2fs_rev.toNat < E2FS_REV1.toNat then s
  else if s.sblock.e2fs_features_rocompat &&& EXT2F_ROCOMPAT_LARGEFILE ≠ 0 then s
  else if env.preen ∨ set ∧ env.writable then
    sbdirty { s with sblock := { s.sblock with
      e2fs_features_rocompat := s.sblock.e2fs_features_rocompat ||| EXT2F_ROCOMPAT_LARGEFILE } }
  else s

/-- One step of a pass. -/
def step (s : St) : Step → St
  | .inosize size set => if 0x80000000 ≤ size then setlarge env set s else s
  | .altered => sbdirty s
  | .totals nbfree nifree fix =>
      if (s.sblock.e2fs_fbcount ≠ nbfree ∨ s.sblock.e2fs_ficount ≠ nifree) ∧
          (env.preen ∨ fix ∧ env.writable) then
        sbdirty { s with sblock := { s.sblock with e2fs_fbcount := nbfree, e2fs_ficount := nifree } }
      else s
  | .dirty n => { s with pool := Function.update s.pool n { s.pool n with b_dirty := true } }
  | .getblk n dblk => getblk env n dblk s
  | .flush b => flush env b s

/-! ### The end -/

/-- How a run ends: `checkfilesys` comes to its end, or a signal arrives; and the answers it gets. -/
structure Fini where
  /-- the end of `checkfilesys` -/
  done : Bool
  time : BitVec 32
  /-- UPDATE STANDARD SUPERBLOCKS, and MARK FILE SYSTEM CLEAN -/
  update : Bool
  mark : Bool
  deriving DecidableEq, Repr

/-- The times are entered, if anything was written. -/
def stamp (time : BitVec 32) (s : St) : St :=
  if s.fsmodified then
    sbdirty { s with sblock := { s.sblock with e2fs_wtime := time, e2fs_lastfsck := time } }
  else s

/-- The standard superblocks are updated, where the superblock is not the standard one. -/
def updateStandard (update : Bool) (s : St) : St :=
  if s.havesb ∧ s.sblk.b_bno ≠ SBSECTOR ∧ !env.preen ∧ update then
    let s := flush env .sblk (sbdirty { s with sblk := { s.sblk with b_bno := SBSECTOR } })
    flush env .asblk
      { s with aimg := copybackSb s.aimg s.sblock, asblk := { s.asblk with b_dirty := true } }
  else s

/-- The volume is marked clean. -/
def markClean (mark : Bool) (s : St) : St :=
  if s.sblock.e2fs_state &&& E2FS_ISCLEAN = 0 ∧ (env.preen ∨ mark) then
    flush env .sblk (sbdirty { s with sblock := { s.sblock with e2fs_state := E2FS_ISCLEAN } })
  else s

/-- `ckfini`; a refused CONTINUE after a failed write ends the program earlier. -/
def ckfini (markclean : Bool) (f : Fini) (s : St) : St :=
  if env.writable then
    let s := updateStandard env f.update (flush env .sblk s)
    let s := (List.range env.nbufs).foldl (fun s n => flush env (.pool n) s) s
    if markclean then markClean env f.mark s else s
  else s

/-- The end of a run; without one the program ends after the last step. -/
def finish : Option Fini → St → St
  | none, s => s
  | some f, s => if f.done then ckfini env true f (stamp f.time s) else ckfini env false f s

/-- A run over a volume that `setup` accepts. -/
def run (steps : List Step) (f : Option Fini) (s : St) : St := finish env f (steps.foldl (step env) s)

/-- `checkfilesys`: the log of a run. -/
def checkfilesys (fs : SbImage) (steps : List Step) (f : Option Fini) : List Io :=
  ((setup env fs).elim [] fun s => (run env steps f s).log)

end

/-! ### Writes in place -/

/-- The sector a buffer was read from last. -/
def lastRead (b : Buf) : List Io → Option ℤ
  | [] => none
  | .read b' sector :: log => if b' = b then some sector else lastRead b log
  | .write .. :: log => lastRead b log

/-- What is written of the superblock last. -/
def lastSb : List Io → Option SbImage
  | [] => none
  | .write .sblk _ img :: _ => img
  | _ :: log => lastSb log

/-- Every write goes to the sector that the buffer was read from, or is one of the superblock to the
sector of the primary. -/
def InPlace : List Io → Prop
  | [] => True
  | .read .. :: log => InPlace log
  | .write b sector _ :: log =>
      (lastRead b log = some sector ∨ b = .sblk ∧ sector = SBSECTOR) ∧ InPlace log

instance InPlace.decidable : (log : List Io) → Decidable (InPlace log)
  | [] => .isTrue trivial
  | .read .. :: log => InPlace.decidable log
  | .write b sector _ :: log =>
      have := InPlace.decidable log
      inferInstanceAs (Decidable ((lastRead b log = some sector ∨ b = .sblk ∧ sector = SBSECTOR) ∧ _))

end Ext2fs.Fsck
