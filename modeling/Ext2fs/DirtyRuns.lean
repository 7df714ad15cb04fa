import Ext2fs.InodeLife

/-!
# Runs of the driver over one inode: what is changed is dirty

Every place of the driver that changes an inode in core is a step, between the calls of
`ext2_update`, and every call of `ext2_update` is one; an operation of the driver is a sequence of
them.  The blocks of the inode table may fail to be read or written.

* `FlagSite` — the places that set a flag with what they change, `dirty_of_site`;
* `flagKeeps_iff` — where what is changed is dirty, a step keeps it so exactly when `FlagSafe` holds;
* `flag_runs` — so it is in every run of such steps, and no reclaim loses a change.
-/

namespace Ext2fs

open Runs

/-! ### The places that set a flag -/

/-- The places of the driver that change an inode, or ask for a time stamp, and set a flag. -/
inductive FlagSite where
  /-- `ext2_read` -/
  | read
  /-- `ext2_write`, `ext2_meta_write` -/
  | write (eof : BitVec 64)
  /-- `ext2_alloc`: a block is counted -/
  | alloc
  /-- `ext2_balloc`: a block pointer is set -/
  | direct (i : Fin 12) (newb : BitVec 32)
  | indirect (i : Fin 3) (newb : BitVec 32)
  /-- `ext2_balloc_extents` -/
  | ballocExtents
  /-- `ext4_ext_grow_depth0`, `ext4_ext_split_leaf`, `ext4_ext_insert_extent` and
  `ext4_ext_rm_extent`: the root in the inode and the count change -/
  | extents (db : Fin 12 → BitVec 32) (ib : Fin 3 → BitVec 32) (blocks : BitVec 64)
  /-- `ext2_lookup`: a directory that is too short -/
  | lookupSize (size : BitVec 64)
  /-- `ext2_direnter`: an entry in a new block, and one in the free space of a block -/
  | enterFresh
  | enterSlot (stop : BitVec 64)
  /-- `ext2_dirremove`, `ext2_dirrewrite` -/
  | entry
  /-- `ext2_truncate` and `ext2_ext_truncate`: a short symbolic link, a file that keeps its size, the
  new size and pointers, and what is left when the blocks are free -/
  | truncSymlink (db : Fin 12 → BitVec 32) (ib : Fin 3 → BitVec 32)
  | truncSame
  | truncate (length : BitVec 64) (db : Fin 12 → BitVec 32) (ib : Fin 3 → BitVec 32)
  | truncated (length blocks : BitVec 64) (db : Fin 12 → BitVec 32) (ib : Fin 3 → BitVec 32)
  /-- `ext2_setattr`, `ext2_chmod`, `ext2_chown` -/
  | setFlags (flags : BitVec 32)
  | chmod (mode : BitVec 16)
  | chown (uid gid : BitVec 32)
  /-- `ext2_mknod` -/
  | mknod (rdev : Option (BitVec 32))
  /-- the counts of `ext2_link`, `ext2_remove`, `ext2_rename`, `ext2_mkdir` and `ext2_rmdir` -/
  | links (d : BitVec 16)
  /-- a directory that `ext2_rename` replaces -/
  | replaceDir
  /-- `ext2_mkdir` -/
  | mkdirSize (size : BitVec 64)
  /-- `ext2_symlink`, of a short one -/
  | symlink (db : Fin 12 → BitVec 32) (ib : Fin 3 → BitVec 32) (len : BitVec 64)
  /-- `ext2_valloc` with `ext2_makeinode` or `ext2_mkdir`, and their error path -/
  | create (now : Timespec) (rand uid gid : BitVec 32) (mode nlink : BitVec 16)
  | abandon

/-- `ALLPERMS` -/
def ALLPERMS : BitVec 16 := 0x0fff

/-- `ISUID | ISGID` -/
def SETID : BitVec 16 := 0x0c00

/-- The change. -/
def FlagSite.set (fs : MExt2fs) (site : FlagSite) (ip : CoreInode) : CoreInode :=
  match site with
  | .read | .ballocExtents | .entry | .truncSame => ip
  | .write eof => { ip with i_size := if ip.i_size < eof then eof else ip.i_size }
  | .alloc => { ip with i_blocks := ip.i_blocks + BitVec.ofNat 64 (btodb fs.bsize) }
  | .direct i newb => { ip with i_db := Function.update ip.i_db i newb }
  | .indirect i newb => { ip with i_ib := Function.update ip.i_ib i newb }
  | .extents db ib blocks => { ip with i_db := db, i_ib := ib, i_blocks := blocks }
  | .lookupSize size => { ip with i_size := size }
  | .enterFresh => { ip with i_size := BitVec.ofNat 64 (fs.coveredBlocks ip.i_size.toNat * fs.bsize) }
  | .enterSlot stop => { ip with i_size := if ip.i_size < stop then stop else ip.i_size }
  | .truncSymlink db ib => { ip with i_db := db, i_ib := ib, i_size := 0 }
  | .truncate length db ib => { ip with i_size := length, i_db := db, i_ib := ib }
  | .truncated length blocks db ib =>
      { ip with i_size := length, i_blocks := blocks, i_db := db, i_ib := ib }
  | .setFlags flags => { ip with i_flags := flags }
  | .chmod mode => { ip with i_mode := (ip.i_mode &&& ~~~ALLPERMS) ||| (mode &&& ALLPERMS) }
  | .chown uid gid =>
      { ip with
        i_uid := uid
        i_gid := gid
        i_mode :=
          if ip.i_mode &&& SETID ≠ 0 ∧ (ip.i_uid ≠ uid ∨ ip.i_gid ≠ gid) then ip.i_mode &&& ~~~SETID
          else ip.i_mode }
  | .mknod rdev =>
      match rdev with
      | some rdev => ip.setRdev rdev
      | none => ip
  | .links d => { ip with i_nlink := ip.i_nlink + d }
  | .replaceDir => ip.dropDirLinks
  | .mkdirSize size => { ip with i_size := size }
  | .symlink db ib len => { ip with i_db := db, i_ib := ib, i_size := len }
  | .create now rand uid gid mode nlink =>
      { vallocPatch now rand ip with i_uid := uid, i_gid := gid, i_mode := mode, i_nlink := nlink }
  | .abandon => { ip with i_nlink := 0 }

/-- The flags that are set with it. -/
def FlagSite.flags (site : FlagSite) : BitVec 32 :=
  match site with
  | .read => IN_ACCESS
  | .mknod _ | .create .. => IN_TIMES
  | .enterFresh | .truncated .. | .setFlags _ | .chmod _ | .chown .. | .links _ | .replaceDir |
      .abandon => IN_CHANGE
  | _ => IN_CHANGE ||| IN_UPDATE

/-- What a place does. -/
def FlagSite.apply (fs : MExt2fs) (site : FlagSite) (ip : CoreInode) : CoreInode :=
  (site.set fs ip).mark site.flags

/-- Each of them leaves the inode dirty. -/
theorem dirty_of_site (fs : MExt2fs) (site : FlagSite) (ip : CoreInode) :
    (site.apply fs ip).Dirty := by
  apply CoreInode.dirty_mark
  cases site <;> simp only [FlagSite.flags] <;> decide

/-! ### The steps -/

/-- The steps of the driver on an inode. -/
inductive FlagOp where
  /-- `ext2_vget_typed` reads the inode -/
  | load (rand : BitVec 32)
  | site (site : FlagSite)
  /-- `ext2_setattr` of the access, modification and creation time, as far as `ext2_update` -/
  | setTimes (now : Timespec) (access modify create : Option Timespec)
  /-- `ext2_rename` marks a directory, and takes the mark back -/
  | renameMark (on : Bool)
  /-- `ext2_direnter` where the block of the free space cannot be read -/
  | enterFails (stop : BitVec 64)
  /-- `ext2_rmdir` where `ext2_truncate` sets no flag: `ext2_ext_truncate` has no block to free -/
  | rmdirBare
  /-- `ext2_itimes` by itself, as in `ext2_getattr` -/
  | itimes (now : Timespec)
  | update (waitfor : Bool) (now : Timespec) (io : InodeIo)
  | sync (wait : Bool) (now : Timespec) (io : InodeIo)
  /-- `ext2_inactive`, after `ext2_truncate` -/
  | inactive (now : Timespec) (io : InodeIo)
  | reclaim (now : Timespec) (io : InodeIo)

/-- One inode number. -/
structure FlagSys where
  slot : InCore
  loaded : Bool
  /-- `ext2_inactive` was the last step, but for updates -/
  idle : Bool

/-- The times that `ext2_setattr` sets itself. -/
def CoreInode.setTimes (hasXtime : Bool) (access modify create : Option Timespec) (ip : CoreInode) :
    CoreInode :=
  { ip with
    i_atime := (access.map Timespec.sec).getD ip.i_atime
    i_atimensec := (access.map Timespec.nsec).getD ip.i_atimensec
    i_mtime := (modify.map Timespec.sec).getD ip.i_mtime
    i_mtimensec := (modify.map Timespec.nsec).getD ip.i_mtimensec
    i_birthtime := if hasXtime then (create.map Timespec.sec).getD ip.i_birthtime else ip.i_birthtime
    i_birthnsec :=
      if hasXtime then (create.map Timespec.nsec).getD ip.i_birthnsec else ip.i_birthnsec }

/-- The flags that `ext2_setattr` sets before it. -/
def setTimesFlags (access modify : Option Timespec) : BitVec 32 :=
  (if access.isSome then IN_ACCESS else 0) ||| (if modify.isSome then IN_CHANGE ||| IN_UPDATE else 0)

section Steps

variable (v : VnodeEnv)

/-- What a step does to the inode and its slot, with the error of its call of `ext2_update`. -/
def flagMove (op : FlagOp) (s : InCore) : Option Errno × InCore :=
  match op with
  | .load rand =>
      (none, { s with
        ip := vgetFill v.fs v.hasXtime rand s.disk
        saved := ext2Ei2i v.fs v.hasXtime s.disk CoreInode.zero })
  | .site site => (none, s.modify (site.apply v.fs))
  | .setTimes now access modify create =>
      (none, s.modify fun ip =>
        (ext2Itimes v now (ip.mark (setTimesFlags access modify))).setTimes v.hasXtime access modify
          create)
  | .renameMark on => (none, s.modify (if on then .mark IN_RENAME else .unmark IN_RENAME))
  | .enterFails stop =>
      (none, s.modify fun ip => { ip with i_size := if ip.i_size < stop then stop else ip.i_size })
  | .rmdirBare => (none, s.modify .dropDirLinks)
  | .itimes now => (none, s.modify (ext2Itimes v now))
  | .update waitfor now io => InCore.ext2Update v waitfor now io s
  | .sync wait now io => ext2SyncCallback v wait now io s
  | .inactive now io => ext2Inactive v id now io s
  | .reclaim now io => ext2Reclaim v now io s

/-- An inode is loaded where it is not there, and reclaimed after `ext2_inactive`; everything else is
done to an inode that is there. -/
def FlagOp.Enabled (op : FlagOp) (s : FlagSys) : Prop :=
  match op with
  | .load _ => s.loaded = false
  | .reclaim .. => s.loaded = true ∧ s.idle = true
  | _ => s.loaded = true

instance (op : FlagOp) (s : FlagSys) : Decidable (op.Enabled s) := by
  cases op <;> unfold FlagOp.Enabled <;> infer_instance

/-- Whether the inode is idle after a step. -/
def FlagOp.idles (op : FlagOp) (idle : Bool) : Bool :=
  match op with
  | .inactive .. => true
  | .update .. | .sync .. => idle
  | _ => false

/-- Whether it is there. -/
def FlagOp.leaves (op : FlagOp) : Bool :=
  match op with
  | .reclaim .. => false
  | _ => true

/-- One step. -/
def flagStep (op : FlagOp) (s : FlagSys) : FlagSys :=
  if op.Enabled s then ⟨(flagMove v op s.slot).2, op.leaves, op.idles s.idle⟩ else s

end Steps

/-! ### What is promised, and the condition -/

/-- The fields that `ext2_i2ei` reads: all, but of `i_flag` the two that stand for flags on disk. -/
def CoreInode.stored (ip : CoreInode) : CoreInode :=
  { ip with i_flag := ip.i_flag &&& (IN_E4INDEX ||| IN_E4EXTENTS) }

/-- They are all that the image is made of. -/
theorem i2ei_stored (hasXtime : Bool) (ip : CoreInode) (ei : Ext2fsDinode) :
    ext2I2ei hasXtime ip.stored ei = ext2I2ei hasXtime ip ei := by
  have hindex : ip.stored.i_flag &&& IN_E4INDEX = ip.i_flag &&& IN_E4INDEX := by
    show ip.i_flag &&& (IN_E4INDEX ||| IN_E4EXTENTS) &&& IN_E4INDEX = _
    rw [BitVec.and_assoc]
    rfl
  have hextents : ip.stored.i_flag &&& IN_E4EXTENTS = ip.i_flag &&& IN_E4EXTENTS := by
    show ip.i_flag &&& (IN_E4INDEX ||| IN_E4EXTENTS) &&& IN_E4EXTENTS = _
    rw [BitVec.and_assoc]
    rfl
  unfold ext2I2ei
  rw [hindex, hextents]
  rfl

/-- The inode is as it was handed to the buffer layer, or read. -/
def Saved (r : InCore) : Prop := r.ip.stored = r.saved.stored

instance (r : InCore) : Decidable (Saved r) := inferInstanceAs (Decidable (_ = _))

/-- What is not saved is dirty. -/
def Tracked (r : InCore) : Prop := r.ip.Dirty ∨ Saved r

instance (r : InCore) : Decidable (Tracked r) := inferInstanceAs (Decidable (_ ∨ _))

section Promise

variable (v : VnodeEnv)

/-- What a step promises: what is not saved is dirty; a call of `ext2_update` that reports an error
leaves the inode dirty; and a reclaim without failures loses nothing. -/
def FlagKeeps (op : FlagOp) (s : FlagSys) : Prop :=
  op.Enabled s →
    (op.leaves = true → Tracked (flagMove v op s.slot).2) ∧
    ((flagMove v op s.slot).1 ≠ none → (flagMove v op s.slot).2.ip.Dirty) ∧
    (∀ now, op = .reclaim now .ok → Saved (flagMove v op s.slot).2)

/-- The block pointers that `ext2_vget_typed` clears are clear on disk. -/
def UnusedClear (ip : CoreInode) : Prop :=
  ip.i_flag &&& IN_E4EXTENTS = 0 → (S_ISDIR ip.i_mode ∨ S_ISREG ip.i_mode) →
    ∀ i : Fin 12, usedBlocks v.fs ip.i_size ≤ i.val → ip.i_db i = 0

/-- The call of `ext2_update` does no I/O, or the I/O succeeds. -/
def UpdateSafe (waitfor : Bool) (now : Timespec) (io : InodeIo) (ip : CoreInode) : Prop :=
  UpdateSkips v waitfor now ip ∨ IoOk v waitfor io

/-- The inode that `ext2_inactive` may write. -/
def CoreInode.inactivated (ip : CoreInode) : CoreInode :=
  if ip.i_nlink.toInt ≤ 0 then ip.release else ip

/-- The condition on a step. -/
def FlagCond (op : FlagOp) (s : InCore) : Prop :=
  match op with
  | .load _ => s.disk.e2di_gen ≠ 0 → UnusedClear v (ext2Ei2i v.fs v.hasXtime s.disk CoreInode.zero)
  | .setTimes _ access modify create =>
      s.ip.Dirty ∨ access.isSome ∨ modify.isSome ∨
        (v.hasXtime = true → ∀ t, create = some t → t.sec = s.ip.i_birthtime ∧ t.nsec = s.ip.i_birthnsec)
  | .enterFails stop => s.ip.Dirty ∨ ¬s.ip.i_size < stop
  | .rmdirBare => s.ip.Dirty
  | .update waitfor now io => UpdateSafe v waitfor now io s.ip
  | .sync wait now io => s.ip.i_flag &&& IN_SYNCED = 0 ∨ UpdateSafe v wait now io s.ip
  | .inactive now io =>
      s.ip.i_mode = 0 ∨ s.ip.inactivated.i_flag &&& IN_SYNCED = 0 ∨
        UpdateSafe v false now io s.ip.inactivated
  | .reclaim _ io =>
      (s.ip.Lazy → ∀ e, io ≠ .breadFails e) ∧
        (io = .ok → s.ip.i_mode = 0 → s.ip.Lazy ∨ Saved s)
  | _ => True

/-- A step is safe where the condition holds. -/
def FlagSafe (op : FlagOp) (s : FlagSys) : Prop := op.Enabled s → FlagCond v op s.slot

/-- The invariant: what is not saved is dirty, and what `ext2_inactive` left has nothing for
`ext2_sync_callback` to write. -/
def FlagInv (s : FlagSys) : Prop :=
  s.loaded = true → Tracked s.slot ∧
    (s.idle = true → s.slot.ip.i_mode = 0 ∨ s.slot.ip.i_flag &&& IN_SYNCED = 0)

end Promise

/-! ### The steps keep it -/

section Keeps

variable {v : VnodeEnv} {s : InCore}

/-- What `ext2_update` writes is not dirty. -/
theorem toWrite_clean (v : VnodeEnv) (now : Timespec) (ip : CoreInode) :
    (ip.toWrite v now).i_flag &&& IN_DIRTY = 0 := by
  show (ext2Itimes v now ip).i_flag &&& ~~~IN_WRITTEN &&& IN_DIRTY = 0
  rw [BitVec.and_assoc]
  exact and_eq_zero_of_and (itimes_flags ip v now).1 (by decide)

/-- An inode that is not dirty has no times to set. -/
theorem itimes_of_clean {ip : CoreInode} (now : Timespec) (h : ¬ip.Dirty) : ext2Itimes v now ip = ip := by
  unfold ext2Itimes
  exact if_pos (and_eq_zero_of_and (not_not.1 h) (by decide))

/-- `ext2_itimes` keeps it. -/
theorem tracked_itimes (now : Timespec) (h : Tracked s) : Tracked (s.modify (ext2Itimes v now)) := by
  by_cases hdirty : s.ip.Dirty
  · exact .inl ((itimes_flags s.ip v now).2.1 hdirty)
  · have hsaved : Saved s := h.resolve_left hdirty
    right
    show (ext2Itimes v now s.ip).stored = s.saved.stored
    rw [itimes_of_clean now hdirty]
    exact hsaved

/-- **One call of `ext2_update`.**  What is not saved stays dirty, and an error leaves the inode dirty,
exactly when the call does no I/O or none fails. -/
theorem update_keeps_iff (waitfor : Bool) (now : Timespec) (io : InodeIo) (h : Tracked s) :
    (Tracked (InCore.ext2Update v waitfor now io s).2 ∧
        ((InCore.ext2Update v waitfor now io s).1 ≠ none →
          (InCore.ext2Update v waitfor now io s).2.ip.Dirty)) ↔
      UpdateSafe v waitfor now io s.ip := by
  unfold UpdateSafe
  rcases update_cases v waitfor now io s with
    ⟨hskip, heq⟩ | ⟨hskip, ⟨e, hio, heq⟩ | ⟨e, hio, hwait, hasync, heq⟩ | ⟨hio, heq⟩⟩
  · rw [heq]
    exact iff_of_true ⟨tracked_itimes now h, fun h' => absurd rfl h'⟩ (.inl hskip)
  · rw [heq]
    refine iff_of_false ?_ ?_
    · rintro ⟨-, hdirty⟩
      exact hdirty (fun h' => by cases h') (toWrite_clean v now s.ip)
    · rintro (h' | h')
      · exact hskip h'
      · exact h'.1 e hio
  · rw [heq]
    refine iff_of_false ?_ ?_
    · rintro ⟨-, hdirty⟩
      exact hdirty (fun h' => by cases h') (toWrite_clean v now s.ip)
    · rintro (h' | h')
      · exact hskip h'
      · exact h'.2 hwait hasync e hio
  · have hput : Tracked (InCore.ext2Update v waitfor now io s).2 := by
      rw [heq]
      exact .inr rfl
    have hnone : (InCore.ext2Update v waitfor now io s).1 = none := by rw [heq]
    exact iff_of_true ⟨hput, fun h' => absurd hnone h'⟩ (.inr hio)

/-- The flags of the inode as it is read. -/
theorem ei2i_clean (fs : MExt2fs) (hasXtime : Bool) (ei : Ext2fsDinode) :
    ¬(ext2Ei2i fs hasXtime ei CoreInode.zero).Dirty := by
  rw [CoreInode.Dirty, not_not]
  show (0 ||| (if ei.e2di_flags &&& EXT4_INDEX ≠ 0 then IN_E4INDEX else 0) |||
    (if ei.e2di_flags &&& EXT4_EXTENTS ≠ 0 then IN_E4EXTENTS else 0)) &&& IN_DIRTY = 0
  split <;> split <;> decide

/-- Clearing the unused pointers changes nothing where they are clear. -/
theorem clearUnused_stored_iff (v : VnodeEnv) (ip : CoreInode) :
    (clearUnused v.fs ip).stored = ip.stored ↔ UnusedClear v ip := by
  unfold clearUnused UnusedClear
  by_cases h : ip.i_flag &&& IN_E4EXTENTS = 0 ∧ (S_ISDIR ip.i_mode ∨ S_ISREG ip.i_mode)
  · rw [if_pos h]
    constructor
    · intro heq _ _ i hi
      have hdb := congrFun (congrArg CoreInode.i_db heq) i
      simp only [CoreInode.stored, if_pos hi] at hdb
      exact hdb.symm
    · intro hclear
      have hdb : (fun i : Fin 12 => if usedBlocks v.fs ip.i_size ≤ i.val then 0 else ip.i_db i) =
          ip.i_db := by
        funext i
        by_cases hi : usedBlocks v.fs ip.i_size ≤ i.val
        · rw [if_pos hi, hclear h.1 h.2 i hi]
        · rw [if_neg hi]
      rw [hdb]
  · rw [if_neg h]
    exact iff_of_true rfl fun hext htype => absurd ⟨hext, htype⟩ h

/-- **Reading an inode.** -/
theorem load_keeps_iff (hrw : v.fs.ronly = false) (rand : BitVec 32) :
    Tracked (flagMove v (.load rand) s).2 ↔ FlagCond v (.load rand) s := by
  show Tracked ⟨vgetFill v.fs v.hasXtime rand s.disk, s.disk,
    ext2Ei2i v.fs v.hasXtime s.disk CoreInode.zero⟩ ↔ _
  by_cases hgen : s.disk.e2di_gen = 0
  · refine iff_of_true (.inl (vgetFill_dirty v.fs v.hasXtime rand s.disk hrw hgen)) ?_
    exact fun h => absurd hgen h
  · have hclean : ¬(vgetFill v.fs v.hasXtime rand s.disk).Dirty := by
      rw [vgetFill_of_gen v.fs v.hasXtime rand s.disk hgen, CoreInode.Dirty, clearUnused_flag]
      exact ei2i_clean v.fs v.hasXtime s.disk
    have hsaved := clearUnused_stored_iff v (ext2Ei2i v.fs v.hasXtime s.disk CoreInode.zero)
    rw [← vgetFill_of_gen v.fs v.hasXtime rand s.disk hgen] at hsaved
    constructor
    · intro h _
      exact hsaved.1 (h.resolve_left hclean)
    · intro h
      exact .inr (hsaved.2 (h hgen))

/-- A change of the fields that sets no flag. -/
theorem bare_keeps_iff {f : CoreInode → CoreInode} {P : Prop} (h : Tracked s)
    (hflag : (f s.ip).i_flag = s.ip.i_flag) (hsame : (f s.ip).stored = s.ip.stored ↔ P) :
    Tracked (s.modify f) ↔ s.ip.Dirty ∨ P := by
  by_cases hdirty : s.ip.Dirty
  · refine iff_of_true (.inl ?_) (.inl hdirty)
    show (f s.ip).i_flag &&& IN_DIRTY ≠ 0
    rw [hflag]
    exact hdirty
  · have hsaved : s.ip.stored = s.saved.stored := h.resolve_left hdirty
    have hclean : ¬(s.modify f).ip.Dirty := by
      show ¬(f s.ip).i_flag &&& IN_DIRTY ≠ 0
      rw [hflag]
      exact hdirty
    constructor
    · intro h'
      right
      apply hsame.1
      exact (h'.resolve_left hclean).trans hsaved.symm
    · intro h'
      right
      exact (hsame.2 (h'.resolve_left hdirty)).trans hsaved

theorem enterFails_keeps_iff (h : Tracked s) (stop : BitVec 64) :
    Tracked (flagMove v (.enterFails stop) s).2 ↔ FlagCond v (.enterFails stop) s := by
  refine bare_keeps_iff h rfl ?_
  constructor
  · intro heq hlt
    have hsize := congrArg CoreInode.i_size heq
    change (if s.ip.i_size < stop then stop else s.ip.i_size) = s.ip.i_size at hsize
    rw [if_pos hlt] at hsize
    rw [hsize] at hlt
    exact absurd hlt (BitVec.lt_irrefl _)
  · intro hge
    rw [if_neg hge]

theorem rmdirBare_keeps_iff (h : Tracked s) :
    Tracked (flagMove v .rmdirBare s).2 ↔ FlagCond v .rmdirBare s := by
  have hiff : Tracked (s.modify .dropDirLinks) ↔ s.ip.Dirty ∨ False := by
    refine bare_keeps_iff h rfl (iff_false_intro ?_)
    intro heq
    have hnlink : s.ip.i_nlink - 2 = s.ip.i_nlink := congrArg CoreInode.i_nlink heq
    have htwo : (2 : BitVec 16) = 0 := by
      have hsub := congrArg (s.ip.i_nlink - ·) hnlink
      simp at hsub
    exact absurd htwo (by decide)
  rw [or_false] at hiff
  exact hiff

/-- The mark of a rename is not a change. -/
theorem renameMark_tracked (on : Bool) (h : Tracked s) : Tracked (flagMove v (.renameMark on) s).2 := by
  have hmask : ∀ flag mask : BitVec 32, IN_RENAME &&& mask = 0 → ~~~IN_RENAME &&& mask = mask →
      (flag ||| IN_RENAME) &&& mask = flag &&& mask ∧ (flag &&& ~~~IN_RENAME) &&& mask = flag &&& mask := by
    intro flag mask h0 h1
    constructor
    · rw [BitVec.and_or_distrib_right, h0]
      exact BitVec.or_zero
    · rw [BitVec.and_assoc, h1]
  have hdirty := hmask s.ip.i_flag IN_DIRTY (by decide) (by decide)
  have hstored := hmask s.ip.i_flag (IN_E4INDEX ||| IN_E4EXTENTS) (by decide) (by decide)
  cases on
  · rcases h with h | h
    · left
      show (s.ip.i_flag &&& ~~~IN_RENAME) &&& IN_DIRTY ≠ 0
      rw [hdirty.2]
      exact h
    · right
      show { s.ip with i_flag := (s.ip.i_flag &&& ~~~IN_RENAME) &&& (IN_E4INDEX ||| IN_E4EXTENTS) } = _
      rw [hstored.2]
      exact h
  · rcases h with h | h
    · left
      show (s.ip.i_flag ||| IN_RENAME) &&& IN_DIRTY ≠ 0
      rw [hdirty.1]
      exact h
    · right
      show { s.ip with i_flag := (s.ip.i_flag ||| IN_RENAME) &&& (IN_E4INDEX ||| IN_E4EXTENTS) } = _
      rw [hstored.1]
      exact h

/-- The times set by `ext2_setattr`. -/
theorem setTimes_keeps_iff (h : Tracked s) (now : Timespec) (access modify create : Option Timespec) :
    Tracked (flagMove v (.setTimes now access modify create) s).2 ↔
      FlagCond v (.setTimes now access modify create) s := by
  have hflag : (flagMove v (.setTimes now access modify create) s).2.ip.Dirty ↔
      (s.ip.mark (setTimesFlags access modify)).Dirty :=
    (itimes_flags (s.ip.mark (setTimesFlags access modify)) v now).2.symm
  by_cases hmarked : (s.ip.mark (setTimesFlags access modify)).Dirty
  · refine iff_of_true (.inl (hflag.2 hmarked)) ?_
    by_cases hdirty : s.ip.Dirty
    · exact .inl hdirty
    cases access with
    | some t => exact .inr (.inl rfl)
    | none =>
      cases modify with
      | some t => exact .inr (.inr (.inl rfl))
      | none =>
        exfalso
        apply hdirty
        rwa [CoreInode.Dirty, CoreInode.mark_flag,
          show setTimesFlags none none = 0 from rfl, show s.ip.i_flag ||| 0 = s.ip.i_flag from BitVec.or_zero]
          at hmarked
  · have hdirty : ¬s.ip.Dirty := by
      intro hd
      apply hmarked
      intro h0
      rw [CoreInode.mark_flag, BitVec.and_or_distrib_right] at h0
      exact hd (BitVec.or_eq_zero_iff.1 h0).1
    cases access with
    | some t =>
      refine absurd ?_ hmarked
      apply CoreInode.dirty_mark
      cases modify with
      | none => exact (by decide : (IN_ACCESS ||| 0) &&& IN_DIRTY ≠ 0)
      | some t' => exact (by decide : (IN_ACCESS ||| (IN_CHANGE ||| IN_UPDATE)) &&& IN_DIRTY ≠ 0)
    | none =>
    cases modify with
    | some t =>
      refine absurd ?_ hmarked
      apply CoreInode.dirty_mark
      exact (by decide : (0 ||| (IN_CHANGE ||| IN_UPDATE)) &&& IN_DIRTY ≠ 0)
    | none =>
    have hmark : s.ip.mark (setTimesFlags none none) = s.ip := by
      show { s.ip with i_flag := s.ip.i_flag ||| 0 } = s.ip
      rw [show s.ip.i_flag ||| 0 = s.ip.i_flag from BitVec.or_zero]
    have hmove : (flagMove v (.setTimes now none none create) s).2 =
        s.modify (.setTimes v.hasXtime none none create) := by
      show InCore.mk ((ext2Itimes v now (s.ip.mark (setTimesFlags none none))).setTimes v.hasXtime
        none none create) s.disk s.saved = _
      rw [hmark, itimes_of_clean now hdirty]
      rfl
    rw [hmove, bare_keeps_iff (P := v.hasXtime = true → ∀ t, create = some t →
      t.sec = s.ip.i_birthtime ∧ t.nsec = s.ip.i_birthnsec) h rfl ?_]
    · show _ ↔ s.ip.Dirty ∨ _ ∨ _ ∨ _
      simp
    · cases hx : v.hasXtime
      · exact iff_of_true rfl fun h' => Bool.noConfusion h'
      · cases create with
        | none => exact iff_of_true rfl fun _ t ht => by cases ht
        | some t =>
          constructor
          · intro heq _ t' ht'
            cases ht'
            exact ⟨congrArg CoreInode.i_birthtime heq, congrArg CoreInode.i_birthnsec heq⟩
          · intro hsame
            obtain ⟨hsec, hnsec⟩ := hsame rfl t rfl
            show CoreInode.stored { s.ip with i_birthtime := t.sec, i_birthnsec := t.nsec } = _
            rw [hsec, hnsec]

/-- The last close of an inode with a mode. -/
theorem inactive_eq (v : VnodeEnv) (now : Timespec) (io : InodeIo) (hmode : s.ip.i_mode ≠ 0) :
    ext2Inactive v id now io s =
      if s.ip.inactivated.i_flag &&& IN_SYNCED = 0 then (none, { s with ip := s.ip.inactivated })
      else InCore.ext2Update v false now io { s with ip := s.ip.inactivated } := by
  unfold ext2Inactive CoreInode.inactivated
  rw [if_neg hmode]
  by_cases hnlink : s.ip.i_nlink.toInt ≤ 0
  · rw [if_pos hnlink, if_pos hnlink]
    rfl
  · rw [if_neg hnlink, if_neg hnlink]

/-- **The last close.**  It keeps what is changed dirty exactly when its write does. -/
theorem inactive_keeps_iff (h : Tracked s) (now : Timespec) (io : InodeIo) :
    (Tracked (flagMove v (.inactive now io) s).2 ∧ ((flagMove v (.inactive now io) s).1 ≠ none →
        (flagMove v (.inactive now io) s).2.ip.Dirty)) ↔
      FlagCond v (.inactive now io) s := by
  show (Tracked (ext2Inactive v id now io s).2 ∧ ((ext2Inactive v id now io s).1 ≠ none →
    (ext2Inactive v id now io s).2.ip.Dirty)) ↔ s.ip.i_mode = 0 ∨ _ ∨ _
  by_cases hmode : s.ip.i_mode = 0
  · have heq : ext2Inactive v id now io s = (none, s) := if_pos hmode
    rw [heq]
    exact iff_of_true ⟨h, fun h' => absurd rfl h'⟩ (.inl hmode)
  have htracked : Tracked { s with ip := s.ip.inactivated } := by
    unfold CoreInode.inactivated
    by_cases hnlink : s.ip.i_nlink.toInt ≤ 0
    · rw [if_pos hnlink]
      left
      intro h0
      rw [show s.ip.release.i_flag = s.ip.i_flag ||| (IN_CHANGE ||| IN_UPDATE) from rfl,
        BitVec.and_or_distrib_right] at h0
      exact absurd (BitVec.or_eq_zero_iff.1 h0).2 (by decide)
    · rw [if_neg hnlink]
      exact h
  have heq := inactive_eq v now io hmode
  rw [heq]
  by_cases hsynced : s.ip.inactivated.i_flag &&& IN_SYNCED = 0
  · rw [if_pos hsynced]
    exact iff_of_true ⟨htracked, fun h' => absurd rfl h'⟩ (.inr (.inl hsynced))
  · rw [if_neg hsynced, update_keeps_iff false now io htracked]
    constructor
    · exact fun h' => .inr (.inr h')
    · rintro (h' | h' | h')
      · exact absurd h' hmode
      · exact absurd h' hsynced
      · exact h'

/-- A call of `ext2_update` on a mount for writing leaves nothing for `ext2_sync_callback`. -/
theorem update_synced (hrw : v.fs.ronly = false) (waitfor : Bool) (now : Timespec) (io : InodeIo) :
    (InCore.ext2Update v waitfor now io s).2.ip.i_flag &&& IN_SYNCED = 0 := by
  have hwritten : (s.ip.toWrite v now).i_flag &&& IN_SYNCED = 0 :=
    and_eq_zero_of_and (toWrite_clean v now s.ip) (by decide)
  rcases update_cases v waitfor now io s with
    ⟨hskip, heq⟩ | ⟨-, ⟨e, -, heq⟩ | ⟨e, -, -, -, heq⟩ | ⟨-, heq⟩⟩
  · rw [heq]
    obtain ⟨hmod, -⟩ := hskip.resolve_right (by rw [hrw]; exact Bool.false_ne_true)
    show (ext2Itimes v now s.ip).i_flag &&& IN_SYNCED = 0
    rw [show IN_SYNCED = IN_TIMES ||| IN_MODIFIED by decide, BitVec.and_or_distrib_left,
      (itimes_flags s.ip v now).1, hmod]
    rfl
  · rw [heq]
    exact hwritten
  · rw [heq]
    exact hwritten
  · rw [heq]
    exact hwritten

/-- What the last close leaves. -/
theorem inactive_idle (hrw : v.fs.ronly = false) (now : Timespec) (io : InodeIo) :
    (ext2Inactive v id now io s).2.ip.i_mode = 0 ∨
      (ext2Inactive v id now io s).2.ip.i_flag &&& IN_SYNCED = 0 := by
  by_cases hmode : s.ip.i_mode = 0
  · have heq : ext2Inactive v id now io s = (none, s) := if_pos hmode
    rw [heq]
    exact .inl hmode
  · right
    rw [inactive_eq v now io hmode]
    by_cases hsynced : s.ip.inactivated.i_flag &&& IN_SYNCED = 0
    · rw [if_pos hsynced]
      exact hsynced
    · rw [if_neg hsynced]
      exact update_synced hrw false now io

/-- **The reclaim.**  An inode that is waiting is written; any other is dropped as it is. -/
theorem reclaim_keeps_iff (hrw : v.fs.ronly = false) (h : Tracked s)
    (hidle : s.ip.i_mode = 0 ∨ s.ip.i_flag &&& IN_SYNCED = 0) (now : Timespec) (io : InodeIo) :
    ((ext2Reclaim v now io s).1 ≠ none → (ext2Reclaim v now io s).2.ip.Dirty) ∧
        (io = .ok → Saved (ext2Reclaim v now io s).2) ↔
      FlagCond v (.reclaim now io) s := by
  show _ ↔ (s.ip.Lazy → ∀ e, io ≠ .breadFails e) ∧ (io = .ok → s.ip.i_mode = 0 → s.ip.Lazy ∨ Saved s)
  unfold ext2Reclaim
  by_cases hlazy : s.ip.i_flag &&& IN_LAZYMOD = 0
  · rw [if_pos hlazy]
    have hnot : ¬s.ip.Lazy := not_not.2 hlazy
    constructor
    · intro h'
      exact ⟨fun hl => absurd hl hnot, fun hio _ => .inr (h'.2 hio)⟩
    · intro h'
      refine ⟨fun herr => absurd rfl herr, fun hio => ?_⟩
      rcases hidle with hmode | hsynced
      · exact (h'.2 hio hmode).resolve_left hnot
      · exact h.resolve_left fun hdirty => hnot (lazy_of_dirty hdirty hsynced)
  · rw [if_neg hlazy]
    have hskip : ¬UpdateSkips v false now (s.ip.mark IN_MODIFIED) := by
      rintro (⟨hmod, -⟩ | hro)
      · refine @itimes_keeps_flag v now (s.ip.mark IN_MODIFIED) IN_MODIFIED (by decide) ?_ hmod
        intro h0
        rw [CoreInode.mark_flag, BitVec.and_or_distrib_right] at h0
        exact absurd (BitVec.or_eq_zero_iff.1 h0).2 (by decide)
      · rw [hrw] at hro
        cases hro
    rcases update_cases v false now io { s with ip := s.ip.mark IN_MODIFIED } with
      ⟨h', -⟩ | ⟨-, ⟨e, hio, heq⟩ | ⟨e, -, hwait, -⟩ | ⟨hio, heq⟩⟩
    · exact absurd h' hskip
    · rw [heq]
      refine iff_of_false ?_ fun h' => h'.1 hlazy e hio
      rintro ⟨hdirty, -⟩
      exact hdirty (fun h' => by cases h') (toWrite_clean v now _)
    · cases hwait
    · rw [heq]
      exact iff_of_true ⟨fun h' => absurd rfl h', fun _ => rfl⟩ ⟨fun _ => hio.1, fun _ _ => .inl hlazy⟩

end Keeps

/-! ### Runs -/

section FlagRuns

variable {v : VnodeEnv} {s : FlagSys}

/-- **One step.**  Where what is not saved is dirty, a step keeps its promise exactly when the
condition holds. -/
theorem flagKeeps_iff (hrw : v.fs.ronly = false) (hinv : FlagInv s) (op : FlagOp) :
    FlagKeeps v op s ↔ FlagSafe v op s := by
  unfold FlagKeeps FlagSafe
  refine forall_congr' fun hop => ?_
  have hsimple : op.leaves = true → (flagMove v op s.slot).1 = none →
      (((op.leaves = true → Tracked (flagMove v op s.slot).2) ∧
        ((flagMove v op s.slot).1 ≠ none → (flagMove v op s.slot).2.ip.Dirty) ∧
        (∀ now, op = .reclaim now .ok → Saved (flagMove v op s.slot).2)) ↔
      Tracked (flagMove v op s.slot).2) := by
    intro hleaves hnone
    constructor
    · exact fun h => h.1 hleaves
    · refine fun h => ⟨fun _ => h, fun herr => absurd hnone herr, fun now hop' => ?_⟩
      rw [hop'] at hleaves
      cases hleaves
  have hupdate : op.leaves = true →
      (((op.leaves = true → Tracked (flagMove v op s.slot).2) ∧
        ((flagMove v op s.slot).1 ≠ none → (flagMove v op s.slot).2.ip.Dirty) ∧
        (∀ now, op = .reclaim now .ok → Saved (flagMove v op s.slot).2)) ↔
      (Tracked (flagMove v op s.slot).2 ∧
        ((flagMove v op s.slot).1 ≠ none → (flagMove v op s.slot).2.ip.Dirty))) := by
    intro hleaves
    constructor
    · exact fun h => ⟨h.1 hleaves, h.2.1⟩
    · refine fun h => ⟨fun _ => h.1, h.2, fun now hop' => ?_⟩
      rw [hop'] at hleaves
      cases hleaves
  cases op with
  | load rand => rw [hsimple rfl rfl]; exact load_keeps_iff hrw rand
  | site site =>
    rw [hsimple rfl rfl]
    exact iff_of_true (.inl (dirty_of_site v.fs site s.slot.ip)) trivial
  | setTimes now access modify create =>
    rw [hsimple rfl rfl]
    exact setTimes_keeps_iff (hinv hop).1 now access modify create
  | renameMark on => rw [hsimple rfl rfl]; exact iff_of_true (renameMark_tracked on (hinv hop).1) trivial
  | enterFails stop => rw [hsimple rfl rfl]; exact enterFails_keeps_iff (hinv hop).1 stop
  | rmdirBare => rw [hsimple rfl rfl]; exact rmdirBare_keeps_iff (hinv hop).1
  | itimes now => rw [hsimple rfl rfl]; exact iff_of_true (tracked_itimes now (hinv hop).1) trivial
  | update waitfor now io => rw [hupdate rfl]; exact update_keeps_iff waitfor now io (hinv hop).1
  | sync wait now io =>
    rw [hupdate rfl]
    show (Tracked (ext2SyncCallback v wait now io s.slot).2 ∧ _) ↔ _ ∨ _
    unfold flagMove ext2SyncCallback
    by_cases hsynced : s.slot.ip.i_flag &&& IN_SYNCED = 0
    · simp only [if_pos hsynced]
      exact iff_of_true ⟨(hinv hop).1, fun h' => absurd rfl h'⟩ (.inl hsynced)
    · simp only [if_neg hsynced]
      rw [update_keeps_iff wait now io (hinv hop).1]
      exact (or_iff_right hsynced).symm
  | inactive now io => rw [hupdate rfl]; exact inactive_keeps_iff (hinv hop).1 now io
  | reclaim now io =>
    obtain ⟨hloaded, hidle⟩ := hop
    rw [← reclaim_keeps_iff hrw (hinv hloaded).1 ((hinv hloaded).2 hidle) now io]
    constructor
    · rintro ⟨-, herr, hsaved⟩
      exact ⟨herr, fun hio => hsaved now (by rw [hio])⟩
    · rintro ⟨herr, hsaved⟩
      refine ⟨(fun h' => by cases h'), herr, fun now' hop' => ?_⟩
      cases hop'
      exact hsaved rfl

/-- The invariant is kept by every safe step. -/
theorem flagInv_step (hrw : v.fs.ronly = false) {op : FlagOp} (hinv : FlagInv s)
    (hsafe : FlagSafe v op s) : FlagInv (flagStep v op s) := by
  by_cases hop : op.Enabled s
  swap
  · unfold flagStep
    rw [if_neg hop]
    exact hinv
  obtain ⟨htracked, -⟩ := (flagKeeps_iff hrw hinv op).2 hsafe hop
  unfold flagStep
  rw [if_pos hop]
  intro hleaves
  refine ⟨htracked hleaves, fun hidle => ?_⟩
  cases op with
  | inactive now io => exact inactive_idle hrw now io
  | update waitfor now io => exact .inr (update_synced hrw waitfor now io)
  | sync wait now io =>
    show (ext2SyncCallback v wait now io s.slot).2.ip.i_mode = 0 ∨ _
    right
    show (ext2SyncCallback v wait now io s.slot).2.ip.i_flag &&& IN_SYNCED = 0
    unfold ext2SyncCallback
    split
    · assumption
    · exact update_synced hrw wait now io
  | load rand => cases hidle
  | site site => cases hidle
  | setTimes now access modify create => cases hidle
  | renameMark on => cases hidle
  | enterFails stop => cases hidle
  | rmdirBare => cases hidle
  | itimes now => cases hidle
  | reclaim now io => cases hleaves

/-- **Runs of the driver over one inode.**  On a mount for writing, in every run whose steps meet the
condition, an inode in core that is not as it was handed to the buffer layer is dirty, and the next
step keeps its promise exactly when it meets the condition too. -/
theorem flag_runs (hrw : v.fs.ronly = false)
    (h : Reach (flagStep v) (FlagSafe v) (fun s => s.loaded = false) s) :
    (s.loaded = true → Tracked s.slot) ∧ ∀ op, FlagKeeps v op s ↔ FlagSafe v op s := by
  have hinv : FlagInv s := by
    refine h.invariant ?_ ?_
    · intro s hs hloaded
      rw [hs] at hloaded
      cases hloaded
    · intro op s hinv hsafe
      exact flagInv_step hrw hinv hsafe
  exact ⟨fun hloaded => (hinv hloaded).1, flagKeeps_iff hrw hinv⟩

end FlagRuns

/-- A vnode of a regular file on the volume with 4 KiB blocks. -/
def vnode4k : VnodeEnv := ⟨volume4k, true, false, false⟩

/-- The plain file, before it is read. -/
def plainUnread : FlagSys := ⟨⟨CoreInode.zero, plainDinode, CoreInode.zero⟩, false, false⟩

/-- It is read, and its mode changed. -/
def plainChanged : FlagSys :=
  flagStep vnode4k (.site (.chmod 0x01ff)) (flagStep vnode4k (.load 0) plainUnread)

/-- The pointers of the plain file behind its block are clear. -/
theorem unusedClear_plain :
    UnusedClear vnode4k (ext2Ei2i volume4k true plainDinode CoreInode.zero) := by
  intro _ _
  decide +kernel

/-- The changed file is dirty, and a step keeps its promise exactly when it meets the condition. -/
theorem plainChanged_tracked :
    (plainChanged.loaded = true → Tracked plainChanged.slot) ∧
      ∀ op, FlagKeeps vnode4k op plainChanged ↔ FlagSafe vnode4k op plainChanged :=
  flag_runs (v := vnode4k) rfl (.call (FlagOp.site (.chmod 0x01ff))
    (.call (FlagOp.load 0) (.start rfl) (fun _ _ => unusedClear_plain)) (fun _ => trivial))

/-- The block of the inode table cannot be read: `ext2_update` reports it, and the change is in core
with no flag set. -/
theorem update_loses_change :
    let s := flagStep vnode4k (.update true ⟨0, 0⟩ (.breadFails .eio)) plainChanged
    Reach (flagStep vnode4k) (fun _ _ => True) (fun s => s.loaded = false) s ∧ s.loaded = true ∧
      ¬Tracked s.slot ∧
      (flagMove vnode4k (.update true ⟨0, 0⟩ (.breadFails .eio)) plainChanged.slot).1 = some .eio := by
  refine ⟨.call _ (.call (FlagOp.site (.chmod 0x01ff)) (.call (FlagOp.load 0) (.start rfl) trivial)
    trivial) trivial, ?_, ?_, ?_⟩
  · decide +kernel
  · decide +kernel
  · decide +kernel

end Ext2fs
