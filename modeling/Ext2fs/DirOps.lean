import Ext2fs.Dirent

/-!
# Searching and changing a directory

`ext2_lookup_ino` for the last component of a path, and the functions that change a directory at the
place a lookup has left in its inode: `ext2_direnter`, `ext2_dirremove` and `ext2_dirrewrite`.  The
contents of a directory are bytes by offset; the buffer of a block shows what was written last, and a
write that fails drops the buffer.

* `scan` — the search through the records, with the slot for a new entry;
* `ext2Lookup` — what a lookup returns, and `i_offset`, `i_count`, `i_endoff`, `i_diroff` afterwards;
* `compactLoop` — the records of a slot moved together;
* `ext2Direnter`, `ext2Dirremove`, `ext2Dirrewrite`.

The two tests behind `dirchk` are not compiled in, and a record of length 0 is a panic, as on every
volume that is mounted for writing.
-/

namespace Ext2fs

open Bytes

/-- The conversion to `uint64_t`. -/
def u64 (x : ℤ) : ℕ := (x % 2 ^ 64).toNat

/-- `roundup2` -/
def roundup2 (x m : ℤ) : ℤ := (x + (m - 1)) / m * m

/-- A directory: its contents, and the fields of its inode that searches and changes use. -/
structure Directory where
  data : Mem
  /-- `IN_E4EXTENTS`: extents map the blocks -/
  extents : Bool := false
  /-- `i_size` -/
  size : ℕ
  /-- `i_nlink` -/
  nlink : ℤ
  /-- `i_number` -/
  number : ℕ
  /-- `i_count`, `i_offset`, `i_endoff` and `i_diroff` -/
  count : ℤ
  offset : ℤ
  endoff : ℤ
  diroff : ℤ

/-! ### The lookup -/

/-- `cn_nameiop` -/
inductive NameiOp where
  | lookup | create | delete | rename
  deriving DecidableEq, Repr

/-- `CREATE` and `RENAME`: a place for a new entry is looked for. -/
def NameiOp.wantsSlot : NameiOp → Bool
  | create | rename => true
  | lookup | delete => false

/-- `slotstatus` -/
inductive SlotStatus where
  | none | compact | found
  deriving DecidableEq, Repr

/-- The variables of the search. -/
structure Scan where
  /-- the first byte of the block in `bp` -/
  base : ℕ
  /-- `entryoffsetinblock` -/
  entry : ℕ
  /-- `i_offset`, `prevoff`, `enduseful` -/
  offset : ℕ
  prevoff : ℕ
  enduseful : ℕ
  /-- `slotstatus`, `slotoffset`, `slotsize`, `slotfreespace` -/
  status : SlotStatus
  slotoffset : ℤ
  slotsize : ℤ
  slotfree : ℤ

/-- How a pass of the search ends. -/
inductive ScanEnd where
  | found (s : Scan)
  | notfound (s : Scan)
  | failed (e : Errno)
  | panic

/-- The record at the place of the search. -/
def Scan.ep (s : Scan) : ℕ := s.base + s.entry

/-- A record is taken into account in the search for a slot of `needed` bytes. -/
def Scan.slot (s : Scan) (m : Mem) (needed : ℤ) : Scan :=
  if s.status = .found then s
  else
    let size : ℤ := if e2dIno m s.ep ≠ 0 then
        (e2dReclen m s.ep : ℤ) - dirRecLen (e2dNamlen m s.ep) else e2dReclen m s.ep
    if 0 < size then
      if needed ≤ size then
        { s with status := .found, slotoffset := s.offset, slotsize := e2dReclen m s.ep }
      else if s.status = .none then
        let slotfree := s.slotfree + size
        let slotoffset := if s.slotoffset = -1 then (s.offset : ℤ) else s.slotoffset
        if needed ≤ slotfree then
          { s with
            slotfree := slotfree
            slotoffset := slotoffset
            status := .compact
            slotsize := s.offset + e2dReclen m s.ep - slotoffset }
        else { s with slotfree := slotfree, slotoffset := slotoffset }
      else s
    else s

/-- The next block is read at its start. -/
def Scan.atBlock (s : Scan) (bsize : ℕ) : Scan :=
  if s.offset % bsize = 0 then { s with base := s.offset, entry := 0 } else s

/-- The search for free space starts again in each block. -/
def Scan.restart (s : Scan) (bsize : ℕ) : Scan :=
  if s.status = .none ∧ s.entry % bsize = 0 then { s with slotoffset := -1, slotfree := 0 } else s

/-- The search goes on behind a record. -/
def Scan.next (s : Scan) (m : Mem) : Scan :=
  let offset := s.offset + e2dReclen m s.ep
  { s with
    prevoff := s.offset
    offset := offset
    entry := s.entry + e2dReclen m s.ep
    enduseful := if e2dIno m s.ep ≠ 0 then offset else s.enduseful }

/-- `searchloop`, at most `fuel` rounds of it. -/
def scan (bsize : ℕ) (read : ℕ → Bool) (m : Mem) (name : List UInt8) (needed endsearch : ℤ) :
    ℕ → Scan → ScanEnd
  | 0, s => .notfound s
  | fuel + 1, s =>
      if (s.offset : ℤ) < endsearch then
        if s.offset % bsize = 0 ∧ read (s.offset / bsize) = false then .failed .eio
        else
          let s := (s.atBlock bsize).restart bsize
          if e2dReclen m s.ep = 0 then .panic
          else
            let s := s.slot m needed
            if e2dIno m s.ep ≠ 0 ∧ e2dName m s.ep = name then .found s
            else scan bsize read m name needed endsearch fuel (s.next m)
      else .notfound s

/-- What the rest of the kernel answers during a lookup. -/
structure LookupEnv where
  /-- the reads of the blocks -/
  read : ℕ → Bool
  /-- `ext2_vget` of the inode that was found -/
  vget : ℕ → Option Errno
  /-- the directory is sticky, and the caller may not remove the entry -/
  sticky : Bool

/-- What a lookup returns. -/
inductive LookupRes where
  | found (ino : ℕ)
  | failed (e : Errno)
  | justReturn
  | panic
  deriving DecidableEq, Repr

/-- The vnode of the inode that was found. -/
def lookupVget (env : LookupEnv) (d : Directory) (ino : ℕ) : LookupRes :=
  if d.number = ino then .found ino
  else match env.vget ino with
    | some e => .failed e
    | none => .found ino

/-- The name was found: what is left in the inode of the directory depends on the operation. -/
def lookupFound (bsize : ℕ) (env : LookupEnv) (op : NameiOp) (s : Scan) (d : Directory) :
    LookupRes × Directory :=
  let ino := e2dIno d.data s.ep
  match op with
  | .lookup => (lookupVget env d ino, { d with diroff := (s.offset / bsize * bsize : ℕ) })
  | .create => (lookupVget env d ino, d)
  | .delete =>
      let d := { d with
        offset := s.offset
        count := if s.offset % bsize = 0 then 0 else (s.offset : ℤ) - s.prevoff }
      if d.number ≠ ino ∧ env.vget ino = none ∧ env.sticky then (.failed .eperm, d)
      else (lookupVget env d ino, d)
  | .rename =>
      let d := { d with offset := s.offset }
      if d.number = ino then (.failed .eisdir, d) else (lookupVget env d ino, d)

/-- The name was not found: the slot for a new entry is left in the inode of the directory. -/
def lookupNotFound (bsize : ℕ) (op : NameiOp) (s : Scan) (d : Directory) :
    LookupRes × Directory :=
  if op.wantsSlot ∧ d.nlink ≠ 0 then
    if s.status = .none then
      let offset := i32 (roundup2 d.size bsize)
      (.justReturn, { d with
        offset := offset
        count := 0
        endoff := i32 (roundup2 offset bsize) })
    else
      let enduseful := if s.enduseful < s.slotoffset + s.slotsize then s.slotoffset + s.slotsize
        else s.enduseful
      (.justReturn, { d with
        offset := s.slotoffset
        count := s.slotsize
        endoff := i32 (roundup2 enduseful bsize) })
  else (.failed .enoent, d)

/-- The search starts where the last lookup was successful. -/
def Directory.resumes (d : Directory) (op : NameiOp) : Prop :=
  op = .lookup ∧ d.diroff ≠ 0 ∧ u64 d.diroff ≤ d.size

instance (d : Directory) (op : NameiOp) : Decidable (d.resumes op) :=
  inferInstanceAs (Decidable (_ ∧ _))

/-- The variables at the start of the search. -/
def startScan (bsize : ℕ) (op : NameiOp) (offset : ℕ) : Scan where
  base := offset / bsize * bsize
  entry := offset % bsize
  offset := offset
  prevoff := offset
  enduseful := 0
  status := if op.wantsSlot then .none else .found
  slotoffset := -1
  slotsize := 0
  slotfree := 0

/-- `slotneeded` -/
def slotNeeded (op : NameiOp) (name : List UInt8) : ℤ :=
  if op.wantsSlot then dirRecLen name.length else 0

/-- `ext2_lookup_ino` for the last component of a path. -/
def ext2Lookup (fs : MExt2fs) (env : LookupEnv) (op : NameiOp) (name : List UInt8)
    (d : Directory) : LookupRes × Directory :=
  let needed := slotNeeded op name
  let endsearch := i32 (roundup2 d.size fs.bsize)
  let pass := fun (stop : ℤ) (s : Scan) =>
    scan fs.bsize env.read d.data name needed stop (stop - s.offset).toNat s
  if d.resumes op then
    let start := d.diroff.toNat
    if start % fs.bsize ≠ 0 ∧ env.read (start / fs.bsize) = false then (.failed .eio, d)
    else match pass endsearch (startScan fs.bsize op start) with
      | .failed e => (.failed e, d)
      | .panic => (.panic, d)
      | .found s =>
          if (d.size : ℤ) < s.entry + dirRecLen (e2dNamlen d.data s.ep) then (.panic, d)
          else lookupFound fs.bsize env op s d
      | .notfound s =>
          match pass d.diroff { s with offset := 0 } with
          | .failed e => (.failed e, d)
          | .panic => (.panic, d)
          | .found s => lookupFound fs.bsize env op s d
          | .notfound s => lookupNotFound fs.bsize op s d
  else match pass endsearch (startScan fs.bsize op 0) with
    | .failed e => (.failed e, d)
    | .panic => (.panic, d)
    | .found s => lookupFound fs.bsize env op s d
    | .notfound s => lookupNotFound fs.bsize op s d

/-! ### A new entry -/

/-- What a change of a directory comes to. -/
inductive DirRes where
  | done (e : Option Errno)
  | panic
  | hang
  deriving DecidableEq, Repr

/-- What `ext2_truncate` comes to; a failed one may have cut the directory. -/
inductive TruncRes where
  | done
  | failed (e : Errno) (cut : Bool)
  deriving DecidableEq, Repr

/-- What the rest of the kernel answers while a directory is changed. -/
structure EnterEnv where
  /-- `EXT2F_INCOMPAT_FTYPE` -/
  filetype : Bool
  /-- `DOINGASYNC` -/
  async : Bool
  /-- the reads of the blocks -/
  read : ℕ → Bool
  /-- `ext2_balloc` for a new block of a block-mapped directory: its error, or the block is there -/
  balloc : Option Errno
  /-- the synchronous write of the changed block -/
  write : Bool
  /-- `ext2_truncate` of the unused end of a block-mapped directory -/
  truncate : TruncRes
  /-- the bytes of `newdir` that are not set -/
  junk : Mem
  /-- what a new block shows when its first write has failed -/
  lost : Mem

/-- The inode a new entry refers to. -/
structure EntryIno where
  number : ℕ
  mode : ℕ

/-- `DTTOFT(IFTODT(mode))` -/
def modeToFt (mode : ℕ) : ℕ :=
  [0, 5, 3, 0, 2, 0, 4, 0, 1, 0, 7, 0, 6, 0, 0].getD (mode / 2 ^ 12 % 16) 0

/-- The file type of an entry. -/
def entryType (filetype : Bool) (ip : EntryIno) : ℕ := if filetype then modeToFt ip.mode else 0

/-- `newdir`, but for its `e2d_reclen`. -/
def newdir (env : EnterEnv) (ip : EntryIno) (name : List UInt8) : Mem :=
  let m := put 4 env.junk 0 ip.number
  let m := put 1 m 6 name.length
  let m := put 1 m 7 (entryType env.filetype ip)
  paste m 8 (fun i => name.getD i 0) 0 (name.length + 1)

namespace Directory

variable (fs : MExt2fs) (d : Directory)

/-- The block at an offset, as `ext2_blkatoff` finds it; there is none before the start. -/
def atoff (read : ℕ → Bool) (offset : ℤ) : Prop :=
  0 ≤ offset ∧ read (offset.toNat / fs.bsize) = true

instance (read : ℕ → Bool) (offset : ℤ) : Decidable (atoff fs read offset) :=
  inferInstanceAs (Decidable (_ ∧ _))

/-- The blocks from an offset on are released. -/
def cut (endoff : ℕ) : Directory :=
  { d with data := fun i => if i < endoff then d.data i else 0, size := endoff }

end Directory

/-- A new entry in a new block: `vn_rdwr`, which comes to `ext2_meta_write`.  The `ext2_balloc` of a
directory with extents ends in `ext4_ext_drop_refs`, which does not come back. -/
def enterFresh (fs : MExt2fs) (env : EnterEnv) (newdir : Mem) (newentrysize : ℕ) (d : Directory) :
    DirRes × Directory :=
  let newdir := put 2 newdir 4 fs.bsize
  let r : Option Errno × Directory :=
    if d.offset < 0 then (some .einval, d)
    else match env.balloc with
      | some e => (some e, d)
      | none =>
          let off := d.offset.toNat
          -- a block behind the end is a new one
          let fresh := roundup2 d.size fs.bsize ≤ off
          let size := max d.size (off + newentrysize)
          if env.write then
            let m := if fresh then zero d.data off (off + fs.bsize) else d.data
            (none, { d with data := paste m off newdir 0 newentrysize, size := size })
          else
            (some .eio, { d with
              data := if fresh then paste d.data off env.lost off fs.bsize else d.data
              size := size })
  if 0 ≤ d.offset ∧ d.extents then (.hang, d)
  -- `f_bsize` of the mount is the fragment size
  else if fs.fsize < fs.bsize then (.panic, r.2)
  else match r with
    | (some e, d) => (.done (some e), d)
    | (none, d) => (.done none, { d with size := (roundup2 d.size fs.bsize).toNat })

/-- The loop that moves the records of a slot together, at most `fuel` rounds of it.  It returns the
contents, the last record, the space that record needs and the space that is left. -/
def compactLoop (count : ℤ) (base : ℕ) : ℕ → Mem → ℕ → ℕ → ℕ → ℤ → Option (Mem × ℕ × ℕ × ℤ)
  | fuel, m, ep, loc, dsize, spacefree =>
      if (loc : ℤ) < count then
        match fuel with
        | 0 => none
        | fuel + 1 =>
            let nep := base + loc
            -- trim the existing slot, or overwrite; nothing there
            let r := if e2dIno m ep ≠ 0 then (put 2 m (ep + 4) dsize, ep + dsize, spacefree)
              else (m, ep, spacefree + dsize)
            let dsize' := dirRecLen (e2dNamlen r.1 nep)
            compactLoop count base fuel (paste r.1 r.2.1 r.1 nep dsize') r.2.1
              (loc + e2dReclen r.1 nep) dsize' (r.2.2 + e2dReclen r.1 nep - dsize')
      else some (m, ep, dsize, spacefree)

/-- The new entry is copied behind the last record of a slot, or over it; `none` is one of the two
panics. -/
def placeEntry (newdir : Mem) (newentrysize : ℕ) : Mem × ℕ × ℕ × ℤ → Option Mem
  | (m, ep, dsize, spacefree) =>
      if e2dIno m ep = 0 then
        if u32 (spacefree + dsize) < newentrysize then none
        else some (paste m ep (put 2 newdir 4 (u32 (spacefree + dsize))) 0 newentrysize)
      else if spacefree < newentrysize then none
      else
        some (paste (put 2 m (ep + 4) dsize) (ep + dsize) (put 2 newdir 4 (u32 spacefree)) 0
          newentrysize)

/-- The unused end of the directory is released after an entry was made.  The `ext2_truncate` of a
directory with extents ends in `ext4_ext_drop_refs` as well; that of the others releases the blocks from
`i_endoff` on. -/
def truncateTail (env : EnterEnv) (d : Directory) : DirRes × Directory :=
  if d.endoff ≠ 0 ∧ u64 d.endoff < d.size then
    if d.extents then (.hang, d)
    else match env.truncate with
    | .done => (.done none, d.cut (u64 d.endoff))
    | .failed e cut => (.done (some e), if cut then d.cut (u64 d.endoff) else d)
  else (.done none, d)

/-- A new entry in the slot a lookup has found. -/
def enterSlot (fs : MExt2fs) (env : EnterEnv) (newdir : Mem) (newentrysize : ℕ) (d : Directory) :
    DirRes × Directory :=
  let d := if d.size < u64 (d.offset + d.count) then { d with size := u64 (d.offset + d.count) }
    else d
  if Directory.atoff fs env.read d.offset then
    let ep := d.offset.toNat
    let dsize := dirRecLen (e2dNamlen d.data ep)
    match compactLoop d.count ep d.count.toNat d.data ep (e2dReclen d.data ep) dsize
        ((e2dReclen d.data ep : ℤ) - dsize) with
    | none => (.hang, d)
    | some r =>
        match placeEntry newdir newentrysize r with
        | none => (.panic, d)
        | some m =>
            if env.async ∨ env.write then truncateTail env { d with data := m }
            else (.done (some .eio), d)
  else (.done (some .eio), d)

/-- `ext2_direnter` -/
def ext2Direnter (fs : MExt2fs) (env : EnterEnv) (ip : EntryIno) (name : List UInt8)
    (d : Directory) : DirRes × Directory :=
  let newdir := newdir env ip name
  let newentrysize := dirRecLen (e2dNamlen newdir 0)
  if d.count = 0 then
    if d.offset % fs.bsize ≠ 0 then (.panic, d) else enterFresh fs env newdir newentrysize d
  else enterSlot fs env newdir newentrysize d

/-! ### An entry that goes or changes -/

/-- The changed contents are written; a write that fails leaves the old ones. -/
def writeDir (write : Bool) (m : Mem) (d : Directory) : DirRes × Directory :=
  if write then (.done none, { d with data := m }) else (.done (some .eio), d)

/-- `ext2_dirremove` -/
def ext2Dirremove (fs : MExt2fs) (env : EnterEnv) (d : Directory) : DirRes × Directory :=
  if d.count = 0 then
    if Directory.atoff fs env.read d.offset then
      writeDir env.write (put 4 d.data d.offset.toNat 0) d
    else (.done (some .eio), d)
  else if Directory.atoff fs env.read (d.offset - d.count) then
    let ep := (d.offset - d.count).toNat
    let rep := ep + e2dReclen d.data ep
    writeDir (env.async || env.write)
      (put 2 d.data (ep + 4) (e2dReclen d.data ep + e2dReclen d.data rep)) d
  else (.done (some .eio), d)

/-- `ext2_dirrewrite` -/
def ext2Dirrewrite (fs : MExt2fs) (env : EnterEnv) (ip : EntryIno) (d : Directory) :
    DirRes × Directory :=
  if Directory.atoff fs env.read d.offset then
    let ep := d.offset.toNat
    writeDir env.write (put 1 (put 4 d.data ep ip.number) (ep + 7) (entryType env.filetype ip)) d
  else (.done (some .eio), d)

end Ext2fs
