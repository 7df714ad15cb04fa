import Ext2fs.Balloc

/-!
# Truncation: `ext2_update`, `ext2_indirtrunc` and `ext2_truncate`

The functions of `ext2_inode.c` for a block-mapped regular file or directory.  What may fail is named
by device address in a `TruncEnv`; the metadata reads and writes of one call touch every indirect
block at most once, so an answer for each address is an answer for each operation.

`ext2Truncate` is cut where the source is: the partial block (`truncPartial`), the pointers that go
(`cutSlots`), the update of the inode, the three levels of indirect blocks (`truncLevels`) and the
direct blocks (`truncDirect`).
-/

namespace Ext2fs

/-- What the rest of the kernel answers during one call of `ext2_update`. -/
structure UpdateEnv where
  /-- `DOINGASYNC` -/
  async : Bool
  /-- the read of the inode's block in `ext2_update` -/
  inodeRead : Bool
  /-- the synchronous write of the inode's block -/
  inodeWrite : Bool

/-- What the rest of the kernel answers during one call of `ext2_truncate`. -/
structure TruncEnv extends UpdateEnv where
  /-- the call of `ext2_balloc` for a partial block -/
  balloc : BallocEnv
  /-- the read of the indirect block at a device address -/
  read : ℤ → Bool
  /-- the synchronous write of the indirect block at a device address -/
  write : ℤ → Bool
  /-- a write of a buffer that was marked invalid reaches the device -/
  invalid : ℤ → Bool
  /-- `buf_invalidateblks` -/
  invalidate : Option Errno
  /-- the read of the block bitmap in `ext2_blkfree` -/
  bitmapOk : ℤ → Bool

/-- The later of two errors, if there is one. -/
def laterError : Option Errno → Option Errno → Option Errno
  | allerror, none => allerror
  | _, some e => some e

/-- The earlier of two errors, if there is one. -/
def earlierError : Option Errno → Option Errno → Option Errno
  | some e, _ => some e
  | none, error => error

namespace World

/-- `ext2_itimes`: the times are taken over, and the inode has been modified. -/
def itimes (w : World) : World :=
  let f := w.ip.flag
  if f.access ∨ f.change ∨ f.update then
    { w with ip := { w.ip with
        flag := { f with access := false, change := false, update := false, modified := true } } }
  else w

/-- The pointers and the size as `ext2_i2ei` copies them. -/
def takeImage (w : World) : World := { w with image := some ⟨w.ip.size, w.ip.db, w.ip.ib⟩ }

/-- `oip->i_size = length` -/
def setSize (w : World) (length : ℕ) : World := { w with ip := { w.ip with size := length } }

/-- A write of a block of pointers at a device address. -/
def setDev (w : World) (dbn : ℤ) (bap : ℕ → ℕ) : World :=
  { w with dev := fun a => if a = dbn then bap else w.dev a }

end World

/-- `ext2_update`: the inode is written back, unless nothing asks for it. -/
def ext2Update (fs : MExt2fs) (env : UpdateEnv) (waitfor : Bool) (w : World) :
    Option Errno × World :=
  let w := w.itimes
  if w.ip.flag.modified = false ∧ waitfor = false then (none, w)
  else if fs.ronly then (none, w)
  else
    let w := { w with ip := { w.ip with
      flag := { w.ip.flag with lazyaccess := false, lazymod := false, modified := false } } }
    if env.inodeRead = false then (some .eio, w)
    else if waitfor = true ∧ env.async = false then
      if env.inodeWrite then (none, w.takeImage) else (some .eio, w)
    else (none, w.takeImage)

/-! ### The indirect blocks -/

/-- The block of pointers without the entries from `last + 1` on is written back; with no entry left
the buffer is marked invalid first. -/
def writeIndir (env : TruncEnv) (dbn last : ℤ) (bap : ℕ → ℕ) (w : World) :
    Option Errno × World :=
  let w' := w.setDev dbn fun i => if last < i then 0 else bap i
  let done := if last = -1 ∧ env.invalid dbn = false then w else w'
  if env.async then (none, done)
  else if env.write dbn then (none, done) else (some .eio, w)

/-- The state of the loops of `ext2_indirtrunc` and `ext2_truncate`. -/
structure Freeing where
  allerror : Option Errno
  blocksreleased : ℕ
  world : World

/-- A call of `ext2_indirtrunc`, by the block it is for and the last block it keeps. -/
abbrev Indirtrunc := ℤ → ℤ → World → Freeing

/-- The effect of a call on the state of the loop that makes it. -/
def Freeing.call (s : Freeing) (f : World → Freeing) : Freeing :=
  let r := f s.world
  ⟨laterError s.allerror r.allerror, s.blocksreleased + r.blocksreleased, r.world⟩

/-- A block is freed. -/
def Freeing.free (s : Freeing) (fs : MExt2fs) (env : TruncEnv) (bno : ℤ) : Freeing :=
  { s with
    blocksreleased := s.blocksreleased + btodb fs.bsize
    world := s.world.blkfree fs env.bitmapOk bno }

/-- One block that goes, with the tree below it; `sub` is the recursive call, absent in a single
indirect block. -/
def releaseTree (fs : MExt2fs) (env : TruncEnv) (sub : Option Indirtrunc) (nb : ℕ)
    (s : Freeing) : Freeing :=
  let s := match sub with
    | some f => s.call (f (fs.fsbtodb nb) (-1))
    | none => s
  s.free fs env nb

/-- The loop of `ext2_indirtrunc` over the blocks that go, from slot `kept + n - 1` down to slot
`kept`. -/
def indirLoop (fs : MExt2fs) (env : TruncEnv) (sub : Option Indirtrunc) (bap : ℕ → ℕ) (kept : ℕ) :
    ℕ → Freeing → Freeing
  | 0, s => s
  | n + 1, s =>
      let nb := bap (kept + n)
      if nb = 0 then indirLoop fs env sub bap kept n s
      else indirLoop fs env sub bap kept n (releaseTree fs env sub nb s)

/-- The body of `ext2_indirtrunc` for an indirect block whose pointers lead to trees of `factor`
blocks. -/
def indirtruncBody (fs : MExt2fs) (env : TruncEnv) (factor : ℕ) (sub : Option Indirtrunc) :
    Indirtrunc := fun dbn lastbn w =>
  let last : ℤ := if 0 < lastbn then lastbn / factor else lastbn
  if env.read dbn = false then ⟨some .eio, 0, w⟩
  else
    let copy := w.dev dbn
    let (error, w) := writeIndir env dbn last copy w
    let kept := (last + 1).toNat
    let s := indirLoop fs env sub copy kept (fs.nindir - kept) ⟨error, 0, w⟩
    -- the last partial block
    match sub with
    | some f =>
        if 0 ≤ lastbn ∧ copy last.toNat ≠ 0 then
          s.call (f (fs.fsbtodb (copy last.toNat)) (lastbn % factor))
        else s
    | none => s

/-- `ext2_indirtrunc`: the blocks behind the `lastbn`-th one of an indirect block of the given level
are released. -/
def ext2Indirtrunc (fs : MExt2fs) (env : TruncEnv) : ℕ → Indirtrunc
  | 0 => indirtruncBody fs env 1 none
  | level + 1 =>
      indirtruncBody fs env (fs.nindir ^ (level + 1)) (some (ext2Indirtrunc fs env level))

/-! ### The inode -/

/-- `lastblock`, the last block that is kept; `-1` when the file is truncated to 0. -/
def lastblock (fs : MExt2fs) (length : ℕ) : ℤ := i32 ((fs.coveredBlocks length : ℤ) - 1)

/-- `lastiblock`, the last block that is kept of an indirect level, before it is normalized. -/
def rawLastiblock (fs : MExt2fs) (lastblock : ℤ) : ℕ → ℤ
  | 0 => i32 (lastblock - NDADDR)
  | level + 1 => i32 (rawLastiblock fs lastblock level - (fs.nindir : ℤ) ^ (level + 1))

/-- `lastiblock` as the calls of `ext2_indirtrunc` see it. -/
def lastiblock (fs : MExt2fs) (lastblock : ℤ) (level : ℕ) : ℤ :=
  if rawLastiblock fs lastblock level < 0 then -1 else rawLastiblock fs lastblock level

/-- The pointers behind the last block are cleared. -/
def cutSlots (fs : MExt2fs) (lastblock : ℤ) (w : World) : World :=
  { w with ip := { w.ip with
      ib := fun level =>
        if rawLastiblock fs lastblock level < 0 ∧ level < NIADDR then 0 else w.ip.ib level
      db := fun i => if lastblock < i ∧ i < NDADDR then 0 else w.ip.db i } }

/-- A pointer of the inode that goes: it is cleared, in `w`, before its block is freed. -/
def Freeing.freeSlot (s : Freeing) (fs : MExt2fs) (env : TruncEnv) (w : World) (bn : ℤ) : Freeing :=
  Freeing.free { s with world := w } fs env bn

/-- One level of indirect blocks. -/
def truncLevel (fs : MExt2fs) (env : TruncEnv) (lastblock : ℤ) (level : ℕ) (s : Freeing) :
    Freeing :=
  let bn := i32 (s.world.ip.ib level)
  let last := lastiblock fs lastblock level
  if bn = 0 then s
  else
    let s := s.call (ext2Indirtrunc fs env level (fs.fsbtodb bn) last)
    if last < 0 then s.freeSlot fs env (s.world.setIb level 0) bn else s

/-- The loop over the levels, from `level - 1` down to `SINGLE`; the result says whether it left for
`done`. -/
def truncLevels (fs : MExt2fs) (env : TruncEnv) (lastblock : ℤ) : ℕ → Freeing → Bool × Freeing
  | 0, s => (false, s)
  | level + 1, s =>
      let s := truncLevel fs env lastblock level s
      if 0 ≤ lastiblock fs lastblock level then (true, s)
      else truncLevels fs env lastblock level s

/-- One direct block. -/
def truncBlock (fs : MExt2fs) (env : TruncEnv) (i : ℕ) (s : Freeing) : Freeing :=
  let bn := i32 (s.world.ip.db i)
  if bn = 0 then s else s.freeSlot fs env (s.world.setDb i 0) bn

/-- The loop over the direct blocks, from `i - 1` down to the last block. -/
def truncDirect (fs : MExt2fs) (env : TruncEnv) (lastblock : ℤ) : ℕ → Freeing → Freeing
  | 0, s => s
  | i + 1, s =>
      if lastblock < i then truncDirect fs env lastblock i (truncBlock fs env i s) else s

/-- `i_blocks` after a release. -/
def World.release (w : World) (blocksreleased length : ℕ) : World :=
  { w with ip := { w.ip with
      size := length
      blocks := w.ip.blocks - blocksreleased
      flag := { w.ip.flag with change := true } } }

/-- The blocks of a file are released once the inode that no longer has them was written. -/
def truncRelease (fs : MExt2fs) (env : TruncEnv) (osize length : ℕ) (w : World) :
    Option Errno × World :=
  let last := lastblock fs length
  let old := w.ip
  let (allerror, w) := ext2Update fs env.toUpdateEnv (!env.async) (cutSlots fs last w).mark
  -- the old pointers are put back long enough to process them; the last direct block never shrinks
  let w := { w with ip := { w.ip with db := old.db, ib := old.ib, size := osize } }
  let s : Freeing := ⟨earlierError allerror env.invalidate, 0, w⟩
  let (done, s) := truncLevels fs env last NIADDR s
  let s := if done then s else truncDirect fs env last NDADDR s
  (s.allerror, s.world.release s.blocksreleased length)

/-- A partial block behind the end is fetched, so that it can be cleared, and `i_size` set. -/
def truncPartial (fs : MExt2fs) (env : TruncEnv) (sync : Bool) (length : ℕ) (w : World) :
    Option Errno × World :=
  let offset := fs.blkoff length
  if offset = 0 then (none, w.setSize length)
  else match ext2Balloc fs env.balloc sync (i32 (fs.lblkno length)) offset w with
    | (some e, w) => (some e, w)
    | (none, w) => (none, w.setSize length)

/-- The end of the file moves away: its last block has to be there. -/
def truncExtend (fs : MExt2fs) (env : TruncEnv) (sync : Bool) (length : ℕ) (w : World) :
    Option Errno × World :=
  if fs.maxfilesize < length then (some .efbig, w)
  else
    let offset := fs.blkoff (length - 1)
    match ext2Balloc fs env.balloc sync (i32 (fs.lblkno (length - 1))) (offset + 1) w with
    | (some e, w) => (some e, w)
    | (none, w) => ext2Update fs env.toUpdateEnv (!env.async) (w.setSize length).mark

/-- `ext2_truncate` for a block-mapped regular file or directory; `sync` is `flags & IO_SYNC`. -/
def ext2Truncate (fs : MExt2fs) (env : TruncEnv) (sync : Bool) (length : ℤ) (w : World) :
    Option Errno × World :=
  if length < 0 then (some .einval, w)
  else
    let length := length.toNat
    if w.ip.size = length then ext2Update fs env.toUpdateEnv false w.mark
    else if w.ip.size < length then truncExtend fs env sync length w
    else match truncPartial fs env sync length w with
      | (some e, w) => (some e, w)
      | (none, w') => truncRelease fs env w.ip.size length w'

end Ext2fs
