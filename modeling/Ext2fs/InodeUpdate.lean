import Ext2fs.InodeCnv

/-!
# Writing inodes back: `ext2_itimes`, `ext2_update`, `ext2_inactive`, `ext2_reclaim`

An inode in core is written back where its flags say so.  `InCore` holds the inode, the image in the
inode table, and a record of the inode as it was when it was last read or handed to the buffer layer,
which no function of the driver reads.

* `Dirty` — one of the five flags is set that lead to a write;
* `update_cases` — what one call of `ext2_update` can do;
* `Tracked` — what is not handed to the buffer layer is dirty.
-/

namespace Ext2fs

/-! ### The flags -/

/-- Access time update request. -/
def IN_ACCESS : BitVec 32 := 0x0001
/-- Inode change time update request. -/
def IN_CHANGE : BitVec 32 := 0x0002
/-- Modification time update request. -/
def IN_UPDATE : BitVec 32 := 0x0004
/-- Inode has been modified. -/
def IN_MODIFIED : BitVec 32 := 0x0008
/-- Inode is being renamed. -/
def IN_RENAME : BitVec 32 := 0x0010
/-- Modified, but don't write yet. -/
def IN_LAZYMOD : BitVec 32 := 0x0040
/-- Process `IN_ACCESS` after the suspension finished. -/
def IN_LAZYACCESS : BitVec 32 := 0x0100

/-- The three flags that ask for a time stamp. -/
def IN_TIMES : BitVec 32 := IN_ACCESS ||| IN_CHANGE ||| IN_UPDATE

/-- The flags that `ext2_sync_callback` and `ext2_inactive` test. -/
def IN_SYNCED : BitVec 32 := IN_ACCESS ||| IN_CHANGE ||| IN_MODIFIED ||| IN_UPDATE

/-- The flags that `ext2_update` clears before it writes. -/
def IN_WRITTEN : BitVec 32 := IN_LAZYACCESS ||| IN_LAZYMOD ||| IN_MODIFIED

/-- The five flags of an inode that has yet to be written. -/
def IN_DIRTY : BitVec 32 := IN_SYNCED ||| IN_LAZYMOD

/-- The inode has yet to be written. -/
def CoreInode.Dirty (ip : CoreInode) : Prop := ip.i_flag &&& IN_DIRTY ≠ 0

instance (ip : CoreInode) : Decidable ip.Dirty := inferInstanceAs (Decidable (_ ≠ _))

/-- `ip->i_flag |= flags` -/
def CoreInode.mark (flags : BitVec 32) (ip : CoreInode) : CoreInode :=
  { ip with i_flag := ip.i_flag ||| flags }

/-- `ip->i_flag &= ~flags` -/
def CoreInode.unmark (flags : BitVec 32) (ip : CoreInode) : CoreInode :=
  { ip with i_flag := ip.i_flag &&& ~~~flags }

/-- `struct timespec`, at the width the inode keeps. -/
structure Timespec where
  sec : BitVec 32
  nsec : BitVec 32
  deriving DecidableEq

/-! ### `ext2_itimes` and `ext2_update` -/

/-- What these functions ask about the vnode and its mount. -/
structure VnodeEnv where
  fs : MExt2fs
  /-- `E2DI_HAS_XTIME` -/
  hasXtime : Bool
  /-- `DOINGASYNC` -/
  async : Bool
  /-- the vnode is a `VBLK` or `VCHR` -/
  special : Bool

/-- The times that `ext2_itimes` sets on a mount for writing. -/
def CoreInode.stamp (now : Timespec) (ip : CoreInode) : CoreInode :=
  { ip with
    i_atime := if ip.i_flag &&& IN_ACCESS ≠ 0 then now.sec else ip.i_atime
    i_atimensec := if ip.i_flag &&& IN_ACCESS ≠ 0 then now.nsec else ip.i_atimensec
    i_mtime := if ip.i_flag &&& IN_UPDATE ≠ 0 then now.sec else ip.i_mtime
    i_mtimensec := if ip.i_flag &&& IN_UPDATE ≠ 0 then now.nsec else ip.i_mtimensec
    i_ctime := if ip.i_flag &&& IN_CHANGE ≠ 0 then now.sec else ip.i_ctime
    i_ctimensec := if ip.i_flag &&& IN_CHANGE ≠ 0 then now.nsec else ip.i_ctimensec }

/-- `ext2_itimes`.  `MNT_RDONLY` and `e2fs_ronly` are one flag here. -/
def ext2Itimes (v : VnodeEnv) (now : Timespec) (ip : CoreInode) : CoreInode :=
  if ip.i_flag &&& IN_TIMES = 0 then ip
  else
    let marked := ip.mark (if v.special then IN_LAZYMOD else IN_MODIFIED)
    (if v.fs.ronly then marked else marked.stamp now).unmark IN_TIMES

/-- What becomes of the block of the inode table that holds an inode. -/
inductive InodeIo where
  | ok
  | breadFails (e : Errno)
  /-- `buf_bwrite` reports a failure, and what the buffer held is lost -/
  | bwriteFails (e : Errno)
  deriving DecidableEq

/-- An inode in core and its place in the inode table. -/
structure InCore where
  ip : CoreInode
  /-- what a read of its place in the inode table gives -/
  disk : Ext2fsDinode
  /-- the inode as it was when it was last read or handed to the buffer layer -/
  saved : CoreInode

/-- `ext2_i2ei` into the buffer, and the write of the buffer. -/
def InCore.put (hasXtime waits : Bool) (io : InodeIo) (s : InCore) : Option Errno × InCore :=
  match waits, io with
  | true, .bwriteFails e => (some e, { s with saved := s.ip })
  | _, _ => (none, { s with disk := ext2I2ei hasXtime s.ip s.disk, saved := s.ip })

/-- `ext2_update` -/
def InCore.ext2Update (v : VnodeEnv) (waitfor : Bool) (now : Timespec) (io : InodeIo) (s : InCore) :
    Option Errno × InCore :=
  let ip := ext2Itimes v now s.ip
  if ip.i_flag &&& IN_MODIFIED = 0 ∧ waitfor = false then (none, { s with ip })
  else if v.fs.ronly then (none, { s with ip })
  else
    -- the flags go before the read that can fail
    let ip := ip.unmark IN_WRITTEN
    match io with
    | .breadFails e => (some e, { s with ip })
    | _ => InCore.put v.hasXtime (waitfor && !v.async) io { s with ip }

/-! ### `ext2_sync_callback`, `ext2_inactive` and `ext2_reclaim` -/

/-- `ext2_sync_callback` -/
def ext2SyncCallback (v : VnodeEnv) (wait : Bool) (now : Timespec) (io : InodeIo) (s : InCore) :
    Option Errno × InCore :=
  if s.ip.i_flag &&& IN_SYNCED = 0 then (none, s) else InCore.ext2Update v wait now io s

/-- The inode has no links and is not free: `ext2_inactive` truncates it and gives it back. -/
def CoreInode.Unlinked (ip : CoreInode) : Prop := ip.i_mode ≠ 0 ∧ ip.i_nlink.toInt ≤ 0

instance (ip : CoreInode) : Decidable ip.Unlinked := inferInstanceAs (Decidable (_ ∧ _))

/-- What `ext2_inactive` does to an inode without links, once `ext2_truncate` is done with it. -/
def CoreInode.release (ip : CoreInode) : CoreInode :=
  { ip with
    i_db := Function.update ip.i_db 0 0
    i_mode := 0
    i_flag := ip.i_flag ||| (IN_CHANGE ||| IN_UPDATE) }

/-- The assignment to `i_rdev`, which is the first block pointer. -/
def CoreInode.setRdev (ip : CoreInode) (rdev : BitVec 32) : CoreInode :=
  { ip with i_db := Function.update ip.i_db 0 rdev }

/-- `ext2_inactive`, with the error of `ext2_update`, which it drops.  `trunc` is what `ext2_truncate` to
length 0 does to the inode and its place on disk. -/
def ext2Inactive (v : VnodeEnv) (trunc : InCore → InCore) (now : Timespec) (io : InodeIo)
    (s : InCore) : Option Errno × InCore :=
  if s.ip.i_mode = 0 then (none, s)
  else
    let s := if s.ip.i_nlink.toInt ≤ 0 then
        { trunc s with ip := (trunc s).ip.release } else s
    if s.ip.i_flag &&& IN_SYNCED = 0 then (none, s) else InCore.ext2Update v false now io s

/-- The write of `ext2_reclaim`, before it drops the inode, with its error. -/
def ext2Reclaim (v : VnodeEnv) (now : Timespec) (io : InodeIo) (s : InCore) : Option Errno × InCore :=
  if s.ip.i_flag &&& IN_LAZYMOD = 0 then (none, s)
  else InCore.ext2Update v false now io { s with ip := s.ip.mark IN_MODIFIED }

/-! ### Small facts -/

section Flags

variable (ip : CoreInode) (flags : BitVec 32)

@[simp] theorem CoreInode.mark_flag : (ip.mark flags).i_flag = ip.i_flag ||| flags := rfl

@[simp] theorem CoreInode.unmark_flag : (ip.unmark flags).i_flag = ip.i_flag &&& ~~~flags := rfl

@[simp] theorem CoreInode.stamp_flag (now : Timespec) : (ip.stamp now).i_flag = ip.i_flag := rfl

/-- A mark of one of the five flags makes the inode dirty. -/
theorem CoreInode.dirty_mark (h : flags &&& IN_DIRTY ≠ 0) : (ip.mark flags).Dirty := by
  show (ip.i_flag ||| flags) &&& IN_DIRTY ≠ 0
  rw [BitVec.and_or_distrib_right]
  intro h0
  exact h (BitVec.or_eq_zero_iff.1 h0).2

/-- A flag is in a word that has a larger mask clear. -/
theorem and_eq_zero_of_and {x m k : BitVec 32} (h : x &&& m = 0) (hk : k &&& m = k) :
    x &&& k = 0 := by
  rw [← hk, BitVec.and_comm k m, ← BitVec.and_assoc, h]
  exact BitVec.zero_and

/-- The flags that `ext2_itimes` leaves, where it sets times. -/
theorem stamped_flag (ronly : Bool) (now : Timespec) (marked : CoreInode) :
    ((if ronly then marked else marked.stamp now).unmark IN_TIMES).i_flag =
      marked.i_flag &&& ~~~IN_TIMES := by
  cases ronly <;> rfl

/-- What holds of the inode that `ext2_itimes` leaves: none of the three flags is set, and one of
the two others is where one of the three was. -/
theorem itimes_flags (v : VnodeEnv) (now : Timespec) :
    (ext2Itimes v now ip).i_flag &&& IN_TIMES = 0 ∧
      (ip.Dirty ↔ (ext2Itimes v now ip).Dirty) := by
  unfold ext2Itimes
  by_cases h : ip.i_flag &&& IN_TIMES = 0
  · rw [if_pos h]
    exact ⟨h, Iff.rfl⟩
  · rw [if_neg h]
    constructor
    · rw [stamped_flag, BitVec.and_assoc]
      show _ &&& (~~~IN_TIMES &&& IN_TIMES) = 0
      rw [show ~~~IN_TIMES &&& IN_TIMES = 0#32 by decide, BitVec.and_zero]
      rfl
    · have hdirty : ip.Dirty := by
        intro h0
        exact h (and_eq_zero_of_and h0 (by decide))
      have hkeep : ∀ bit : BitVec 32, bit &&& (~~~IN_TIMES &&& IN_DIRTY) ≠ 0 →
          ((ip.mark bit).i_flag &&& ~~~IN_TIMES) &&& IN_DIRTY ≠ 0 := by
        intro bit hbit h0
        rw [CoreInode.mark_flag, BitVec.and_assoc, BitVec.and_or_distrib_right] at h0
        exact hbit (BitVec.or_eq_zero_iff.1 h0).2
      refine iff_of_true hdirty ?_
      show _ &&& IN_DIRTY ≠ 0
      rw [stamped_flag]
      cases v.special
      · exact hkeep IN_MODIFIED (by decide)
      · exact hkeep IN_LAZYMOD (by decide)

/-- Times and flags apart, `ext2_itimes` leaves the inode alone. -/
theorem itimes_frame (v : VnodeEnv) (now : Timespec) :
    ∃ flag atime mtime ctime atimensec mtimensec ctimensec, ext2Itimes v now ip =
      { ip with
        i_flag := flag, i_atime := atime, i_mtime := mtime, i_ctime := ctime
        i_atimensec := atimensec, i_mtimensec := mtimensec, i_ctimensec := ctimensec } := by
  unfold ext2Itimes
  by_cases h : ip.i_flag &&& IN_TIMES = 0
  · rw [if_pos h]
    exact ⟨_, _, _, _, _, _, _, rfl⟩
  · rw [if_neg h]
    cases v.fs.ronly <;> exact ⟨_, _, _, _, _, _, _, rfl⟩

end Flags

section Update

variable (v : VnodeEnv) (waitfor : Bool) (now : Timespec) (io : InodeIo) (s : InCore)

/-- The inode that `ext2_update` writes. -/
def CoreInode.toWrite (ip : CoreInode) : CoreInode := (ext2Itimes v now ip).unmark IN_WRITTEN

/-- `ext2_update` does not get as far as the read: nothing is to be written, or the mount is read
only. -/
def UpdateSkips (ip : CoreInode) : Prop :=
  (ext2Itimes v now ip).i_flag &&& IN_MODIFIED = 0 ∧ waitfor = false ∨ v.fs.ronly = true

/-- The block of the inode table is read, and a write that is waited for succeeds. -/
def IoOk (v : VnodeEnv) (waitfor : Bool) (io : InodeIo) : Prop :=
  (∀ e, io ≠ .breadFails e) ∧ (waitfor = true → v.async = false → ∀ e, io ≠ .bwriteFails e)

/-- **What one call of `ext2_update` can do.**  It stops before the read; the read fails; the write
it waits for fails; or the inode is on its way to the disk. -/
theorem update_cases :
    (UpdateSkips v waitfor now s.ip ∧
        InCore.ext2Update v waitfor now io s = (none, { s with ip := ext2Itimes v now s.ip })) ∨
      ¬UpdateSkips v waitfor now s.ip ∧
        ((∃ e, io = .breadFails e ∧
            InCore.ext2Update v waitfor now io s = (some e, { s with ip := s.ip.toWrite v now })) ∨
          (∃ e, io = .bwriteFails e ∧ waitfor = true ∧ v.async = false ∧
            InCore.ext2Update v waitfor now io s =
              (some e, { s with ip := s.ip.toWrite v now, saved := s.ip.toWrite v now })) ∨
          (IoOk v waitfor io ∧ InCore.ext2Update v waitfor now io s =
            (none, ⟨s.ip.toWrite v now, ext2I2ei v.hasXtime (s.ip.toWrite v now) s.disk,
              s.ip.toWrite v now⟩))) := by
  unfold InCore.ext2Update UpdateSkips
  by_cases hidle : (ext2Itimes v now s.ip).i_flag &&& IN_MODIFIED = 0 ∧ waitfor = false
  · left
    exact ⟨.inl hidle, if_pos hidle⟩
  by_cases hro : v.fs.ronly = true
  · left
    refine ⟨.inr hro, ?_⟩
    show (if _ then _ else _) = _
    rw [if_neg hidle, if_pos hro]
  · right
    refine ⟨fun h => h.elim hidle hro, ?_⟩
    rw [if_neg hidle, if_neg hro]
    cases io with
    | ok =>
      right; right
      refine ⟨⟨fun e => by simp, fun _ _ e => by simp⟩, ?_⟩
      cases waitfor <;> cases v.async <;> rfl
    | breadFails e =>
      left
      exact ⟨e, rfl, rfl⟩
    | bwriteFails e =>
      cases hw : waitfor
      · right; right
        exact ⟨⟨fun e => by simp, fun h => Bool.noConfusion h⟩, rfl⟩
      · cases ha : v.async
        · right; left
          exact ⟨e, rfl, rfl, rfl, rfl⟩
        · right; right
          exact ⟨⟨fun e => by simp, fun _ h => absurd (ha.symm.trans h) Bool.noConfusion⟩, rfl⟩

end Update

end Ext2fs
