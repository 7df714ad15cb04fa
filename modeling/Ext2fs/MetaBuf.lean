import Ext2fs.BallocSpec
import Ext2fs.ExtentInsert
import Ext2fs.Lib.BufCache
import Ext2fs.Lib.Runs

/-!
# Directory and link blocks in the buffer cache

The contents of directories and long symbolic links are metadata: `ext2_balloc` and `ext2_blkatoff`
hand out buffers of them, and their callers store into these and write them at once or delayed.  The
cache finds a buffer by vnode and block number.  `ext2_balloc` uses the vnode of the file throughout;
so does `ext2_blkatoff` for a block-mapped inode, but for an extent-mapped one it goes to the vnode of
the device, and then changes the block number of the buffer.  A call of `ext2_balloc` for an
extent-mapped inode gives up its path and does not come back: the machine stops there.

* `ext2BlkatoffBuf`, `ballocBuf` — the buffers the two functions return;
* `MetaState.At` — the device address of a logical block.

What a sequence of stores and reads comes to is the subject of `MetaRuns`.
-/

namespace Ext2fs

open BufCache PtrTree

/-- The vnode a buffer belongs to. -/
inductive Vnode where
  | file | dev
  deriving DecidableEq, Repr

/-- A buffer is found by its vnode and its block number. -/
abbrev BufKey := Vnode × ℤ

/-- A block-mapped or extent-mapped inode with the buffers of its contents; `last` is what was stored
to a logical block last. -/
structure MetaState (D : Type) where
  extents : Bool
  w : World
  cache : Cache BufKey ℤ D
  last : ℕ → D

/-- What a caller of `ext2_balloc` stores: a whole block, or a part of one, for which it passes
`BA_CLRBUF`. -/
inductive Fill (D : Type) where
  | whole (d : D)
  | part (f : D → D)

namespace Fill

variable {D : Type}

/-- `flags & BA_CLRBUF` -/
def clrbuf : Fill D → Bool
  | whole _ => false
  | part _ => true

/-- The contents of the buffer afterwards. -/
def apply : Fill D → D → D
  | whole d, _ => d
  | part f, old => f old

end Fill

/-- A step: a store through one of the two functions, a read through `ext2_blkatoff`, or a write or a
reuse of a buffer by the cache.  `sync` says that the buffer is written at once; `junk` is what a new
buffer holds before it is filled. -/
inductive MetaOp (D : Type) where
  | ballocStore (env : BallocEnv) (ext : ExtEnv) (lbn size : ℕ) (fill : Fill D) (sync : Bool)
      (junk : D)
  | atoffStore (read : ℤ → Bool) (lbn : ℕ) (sync : Bool) (f : D → D)
  | atoffRead (read : ℤ → Bool) (lbn : ℕ)
  | flush (i : ℕ)
  | evict (i : ℕ)

/-- The blocks of pointers as `ext2_bmaparray` reads them. -/
def World.bread (read : ℤ → Bool) (w : World) : Bread := fun a =>
  if read a then .ok (w.dev a) else .error .eio

/-- The device block the buffer layer asks `ext2_bmaparray` for; none for a hole. -/
def fileAddr (fs : MExt2fs) (read : ℤ → Bool) (w : World) (lbn : ℕ) : Except Errno (Option ℤ) :=
  (ext2Bmaparray fs (w.bread read) w.ip none lbn).map fun r => if r.1 = -1 then none else some r.1

/-- The device block the buffer layer asks `ext4_bmapext` for. -/
def extAddr (fs : MExt2fs) (read : ℤ → Bool) (w : World) (lbn : ℕ) : Except Errno (Option ℤ) :=
  (ext4Bmapext fs read w lbn).map fun bn => if bn < 0 then none else some bn

section

variable {D : Type} [Zero D]

/-- What `buf_meta_bread` gives a new buffer: the contents of the device block, zeros for a hole. -/
def missRead (read : ℤ → Bool) (c : Cache BufKey ℤ D) :
    Except Errno (Option ℤ) → Option (Option ℤ × D)
  | .error _ => none
  | .ok none => some (none, 0)
  | .ok (some a) => if read a then some (some a, c.disk a) else none

/-- What `buf_getblk` gives a new buffer. -/
def missGet (junk : D) : Except Errno (Option ℤ) → Option (Option ℤ × D)
  | .error _ => none
  | .ok addr => some (addr, junk)

/-- `ext2_blkatoff`: the buffer of a logical block.  In the extent branch `buf_setlblkno` changes the
block number the buffer is found by. -/
def ext2BlkatoffBuf (fs : MExt2fs) (read : ℤ → Bool) (s : MetaState D) (lbn : ℕ) :
    Option (Buf BufKey ℤ D × Cache BufKey ℤ D) :=
  if s.extents then
    match ext4ExtFindExtent fs read s.w lbn with
    | some ⟨header, some ep⟩ =>
        let dbn := fs.fsbtodb (extBlock (s.w.node fs header) ep lbn)
        (s.cache.get (.dev, dbn) (missRead read s.cache (.ok (some dbn)))).map fun r =>
          ({ r.1 with key := (.dev, lbn) }, r.2)
    | _ => s.cache.get (.file, lbn) (missRead read s.cache (extAddr fs read s.w lbn))
  else s.cache.get (.file, lbn) (missRead read s.cache (fileAddr fs read s.w lbn))

/-- A hole that has become a block: the buffer gets its address. -/
def atAddr (addr : Except Errno (Option ℤ)) (b : Buf BufKey ℤ D) : Buf BufKey ℤ D :=
  match b.addr, addr with
  | none, .ok (some a) => { b with addr := some a }
  | _, _ => b

/-- The buffer `ext2_balloc` returns, if it succeeds; `w'` is the state it leaves. -/
def ballocBuf (fs : MExt2fs) (env : BallocEnv) (ext : ExtEnv) (lbn size : ℕ) (clrbuf : Bool)
    (junk : D) (s : MetaState D) : Option (Buf BufKey ℤ D × Cache BufKey ℤ D) × World :=
  if s.extents then
    match ext2BallocExtents fs ext clrbuf lbn s.w with
    | .returned (_, w') => (none, w')
    | .dropRefs _ now _ => (none, { now with panicked := true })
  else
    match ext2Balloc fs env false lbn size s.w with
    | (some _, w') => (none, w')
    | (none, w') =>
        if w'.panicked then (none, w')
        else
          let addr := fileAddr fs (fun _ => true) w' lbn
          if s.w.map fs lbn = 0 then
            -- a new block
            ((s.cache.get (.file, lbn) (missGet junk addr)).map fun r =>
              (atAddr addr (if clrbuf then { r.1 with data := 0 } else r.1), r.2), w')
          else if lbn < NDADDR ∨ clrbuf then
            (s.cache.get (.file, lbn) (missRead (fun _ => true) s.cache addr), w')
          else (s.cache.get (.file, lbn) (missGet junk addr), w')

/-- A changed buffer is given back. -/
def giveBuf (sync : Bool) (r : Buf BufKey ℤ D × Cache BufKey ℤ D) (data : D) : Cache BufKey ℤ D :=
  if sync then r.2.giveWritten { r.1 with data := data }
  else r.2.giveDelayed { r.1 with data := data }

/-- One step of a running kernel. -/
def MetaOp.run (fs : MExt2fs) : MetaOp D → MetaState D → MetaState D
  | ballocStore env ext lbn size fill sync junk, s =>
      match ballocBuf fs env ext lbn size fill.clrbuf junk s with
      | (none, w') => { s with w := w' }
      | (some r, w') =>
          { s with
            w := w'
            cache := giveBuf sync r (fill.apply r.1.data)
            last := Function.update s.last lbn (fill.apply (s.last lbn)) }
  | atoffStore read lbn sync f, s =>
      match ext2BlkatoffBuf fs read s lbn with
      | none => s
      | some r =>
          { s with
            cache := giveBuf sync r (f r.1.data)
            last := Function.update s.last lbn (f (s.last lbn)) }
  | atoffRead read lbn, s =>
      match ext2BlkatoffBuf fs read s lbn with
      | none => s
      | some r => { s with cache := r.2.give r.1 }
  | flush i, s => { s with cache := s.cache.flush i }
  | evict i, s => { s with cache := s.cache.evict i }

/-- One step. -/
def MetaOp.step (fs : MExt2fs) (op : MetaOp D) (s : MetaState D) : MetaState D :=
  if s.w.panicked then s else op.run fs s

/-- What a read returns, and the block it is of. -/
def MetaOp.result (fs : MExt2fs) : MetaOp D → MetaState D → Option (ℕ × D)
  | atoffRead read lbn, s =>
      if s.w.panicked then none
      else (ext2BlkatoffBuf fs read s lbn).map fun r => (lbn, r.1.data)
  | _, _ => none

end

/-- The device address of a logical block. -/
def MetaState.At {D : Type} (fs : MExt2fs) (s : MetaState D) (lbn : ℕ) (a : ℤ) : Prop :=
  if s.extents then ∃ p : ℕ, s.w.ExtMaps fs lbn p ∧ a = fs.fsbtodb p
  else s.w.map fs lbn ≠ 0 ∧ a = fs.fsbtodb (s.w.map fs lbn)

end Ext2fs
