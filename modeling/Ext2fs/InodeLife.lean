import Ext2fs.Vget
import Ext2fs.Lib.Runs

/-!
# The life of one inode slot

The operations that move the link count of an inode, that write it back, drop it from memory, free it
and allocate it again.  A state holds the slot of the inode table, the inode in core if it is there,
and three values that the driver does not keep: the links that the file has, how many files the slot
has had, and the file handles that were made.  The inode table is read and written without failures
here.

* `slotStep` — one operation;
* `SlotInv` — the count in core is the number of links, and what is not on disk is dirty;
* `slotInv_step` — every operation keeps it.
-/

namespace Ext2fs

/-! ### The operations on the count -/

/-- The most links an inode may have. -/
def EXT2_LINK_MAX : ℕ := 32000

/-- `IMMUTABLE | APPEND`, of `i_flags`. -/
def NOREMOVE : BitVec 32 := SF_IMMUTABLE ||| SF_APPEND

/-- What an operation knows besides the inode: the kind of its vnode, and the time. -/
structure OpCtx where
  special : Bool
  now : Timespec

/-- The volume, and the number of the inode. -/
structure SlotEnv where
  fs : MExt2fs
  hasXtime : Bool
  async : Bool
  ino : BitVec 32
  /-- `e2fs_gcount` -/
  gcount : BitVec 32
  /-- `e2fs_ipg` -/
  ipg : BitVec 32

/-- The vnode that `ext2_update` sees. -/
def SlotEnv.vnode (env : SlotEnv) (ctx : OpCtx) : VnodeEnv :=
  ⟨env.fs, env.hasXtime, env.async, ctx.special⟩

/-- `ip->i_nlink += d`, and the inode has changed. -/
def CoreInode.addLinks (d : BitVec 16) (ip : CoreInode) : CoreInode :=
  { ip with i_nlink := ip.i_nlink + d, i_flag := ip.i_flag ||| IN_CHANGE }

/-- `ip->i_nlink -= 2`, which sets no flag. -/
def CoreInode.dropDirLinks (ip : CoreInode) : CoreInode := { ip with i_nlink := ip.i_nlink - 2 }

/-- A change to the inode in core alone. -/
def InCore.modify (f : CoreInode → CoreInode) (s : InCore) : InCore := { s with ip := f s.ip }

section Counts

variable (env : SlotEnv)

/-- `ext2_update(vp, !DOINGASYNC(vp))` -/
def updateNow (ctx : OpCtx) (s : InCore) : InCore :=
  (InCore.ext2Update (env.vnode ctx) (!env.async) ctx.now .ok s).2

/-- The link count in `ext2_link`: counted, written, and counted back where the entry is not made.
The result has the links that were gained. -/
def linkCount (ctx : OpCtx) (entered : Bool) (s : InCore) : InCore × ℤ :=
  if EXT2_LINK_MAX ≤ s.ip.i_nlink.toNat then (s, 0)
  else if s.ip.i_flags &&& NOREMOVE ≠ 0 then (s, 0)
  else
    let s := updateNow env ctx (s.modify (.addLinks 1))
    if entered then (s, 1) else (s.modify (.addLinks (-1)), 0)

/-- The link count of the source in `ext2_rename`, tested as a signed number.  `entered` tells whether
the new entry is made, and `removed` whether the old one is gone. -/
def renameCount (ctx : OpCtx) (entered removed : Bool) (s : InCore) : InCore × ℤ :=
  if (EXT2_LINK_MAX : ℤ) ≤ s.ip.i_nlink.toInt then (s, 0)
  else if s.ip.i_flags &&& NOREMOVE ≠ 0 then (s, 0)
  else
    let s := updateNow env ctx (s.modify (.addLinks 1))
    if entered then
      if removed then (s.modify (.addLinks (-1)), 0) else (s, 1)
    else (s.modify (.addLinks (-1)), 0)

/-- The link count of a directory that gains a subdirectory, in `ext2_mkdir` and `ext2_rename`. -/
def parentCount (ctx : OpCtx) (entered : Bool) (s : InCore) : InCore × ℤ :=
  if EXT2_LINK_MAX ≤ s.ip.i_nlink.toNat then (s, 0)
  else
    let s := updateNow env ctx (s.modify (.addLinks 1))
    if entered then (s, 1) else (s.modify (.addLinks (-1)), 0)

/-- The link count in `ext2_remove`, of a file that `ext2_rename` replaces, and of a directory that
loses a subdirectory. -/
def removeCount (s : InCore) : InCore × ℤ := (s.modify (.addLinks (-1)), -1)

/-- A step of `ext2_truncate` or of a write: the contents change, the flags may be set, and the inode
may be written. -/
structure ContentStep where
  size : BitVec 64
  blocks : BitVec 64
  db : Fin 12 → BitVec 32
  ib : Fin 3 → BitVec 32
  marks : Bool
  /-- the `waitfor` of a call of `ext2_update` -/
  update : Option Bool

/-- The change of the inode in core. -/
def ContentStep.change (c : ContentStep) (ip : CoreInode) : CoreInode :=
  { ip with
    i_size := c.size
    i_blocks := c.blocks
    i_db := c.db
    i_ib := c.ib
    i_flag := if c.marks then ip.i_flag ||| (IN_CHANGE ||| IN_UPDATE) else ip.i_flag }

/-- What such a step does. -/
def ContentStep.apply (env : SlotEnv) (ctx : OpCtx) (c : ContentStep) (s : InCore) : InCore :=
  match c.update with
  | none => s.modify c.change
  | some waitfor => (InCore.ext2Update (env.vnode ctx) waitfor ctx.now .ok (s.modify c.change)).2

/-- What `ext2_truncate`, or a write, does to the inode and its slot. -/
def contentSteps (ctx : OpCtx) (steps : List ContentStep) (s : InCore) : InCore :=
  steps.foldl (fun s c => c.apply env ctx s) s

/-- The link count in `ext2_rmdir`: only an empty directory with two links goes. -/
def rmdirCount (ctx : OpCtx) (steps : List ContentStep) (s : InCore) : InCore × ℤ :=
  if s.ip.i_nlink ≠ 2 then (s, 0)
  else (contentSteps env ctx steps (s.modify .dropDirLinks), -2)

/-- The link count of a directory that `ext2_rename` replaces.  Where two removals do not leave it at
0 the kernel panics: nothing comes of it. -/
def replaceDirCount (ctx : OpCtx) (steps : List ContentStep) (s : InCore) : InCore × ℤ :=
  if 2 < s.ip.i_nlink.toInt then (s, 0)
  else if s.ip.i_nlink - 2 ≠ 0 then (s, 0)
  else ((contentSteps env ctx steps (s.modify .dropDirLinks)).modify (.mark IN_CHANGE), -2)

end Counts

/-! ### The system -/

/-- A file handle, `struct ext2fid`, with the file it was made for. -/
structure Handle where
  ext2fid_ino : BitVec 32
  ext2fid_gen : BitVec 32
  /-- the life of the slot it was made in -/
  life : ℕ

/-- One slot of the inode table. -/
structure SlotSys where
  disk : Ext2fsDinode
  core : Option CoreInode
  /-- `ext2_inactive` has run since the inode was last used -/
  idle : Bool
  /-- its bit in the inode bitmap -/
  inUse : Bool
  /-- the links of the file: what the slot said at the start, and every name gained or removed since -/
  links : ℤ
  /-- the number of allocations of the slot so far -/
  life : ℕ
  handles : List Handle

/-- The operations on a slot. -/
inductive SlotOp where
  /-- `ext2_vget`, by name or by handle -/
  | lookup (rand : BitVec 32)
  | content (ctx : OpCtx) (steps : List ContentStep)
  | link (ctx : OpCtx) (entered : Bool)
  | rename (ctx : OpCtx) (entered removed : Bool)
  | parent (ctx : OpCtx) (entered : Bool)
  | remove
  | rmdir (ctx : OpCtx) (steps : List ContentStep)
  | replaceDir (ctx : OpCtx) (steps : List ContentStep)
  | sync (ctx : OpCtx) (wait : Bool)
  /-- the last close: `ext2_inactive` -/
  | close (ctx : OpCtx) (steps : List ContentStep)
  /-- `ext2_reclaim` -/
  | evict (ctx : OpCtx)
  /-- `ext2_valloc` for a file or, with two links, a directory; `named` tells whether it gets its
  name -/
  | create (ctx : OpCtx) (rand rand' : BitVec 32) (uid gid : BitVec 32) (mode : BitVec 16)
      (directory member named : Bool)
  /-- `ext2_vptofh` -/
  | handle

/-- The mode of a new file: a regular one where the caller names no type. -/
def createMode (mode : BitVec 16) : BitVec 16 := if mode &&& 0xf000 = 0 then mode ||| 0x8000 else mode

/-- The `ISGID` that a new file keeps if its creator is a member of its group. -/
def stripSgid (member : Bool) (mode : BitVec 16) : BitVec 16 :=
  if mode &&& 0x0400 ≠ 0 ∧ member = false then mode &&& ~~~0x0400 else mode

/-- The fields that `ext2_makeinode` and `ext2_mkdir` set. -/
def CoreInode.asNew (uid gid : BitVec 32) (mode : BitVec 16) (nlink : BitVec 16) (ip : CoreInode) :
    CoreInode :=
  { ip with
    i_uid := uid
    i_gid := gid
    i_mode := mode
    i_nlink := nlink
    i_flag := ip.i_flag ||| IN_TIMES }

section System

variable (env : SlotEnv)

/-- The inode in core, read from the slot if it is not there. -/
def SlotSys.get (rand : BitVec 32) (s : SlotSys) : CoreInode :=
  s.core.getD (vgetFill env.fs env.hasXtime rand s.disk)

/-- An operation on the inode in core, by someone who has it open. -/
def SlotSys.onOpen (f : InCore → InCore × ℤ) (s : SlotSys) : SlotSys :=
  match s.core, s.idle with
  | some ip, false =>
      let r := f ⟨ip, s.disk, ip⟩
      { s with core := some r.1.ip, disk := r.1.disk, links := s.links + r.2 }
  | _, _ => s

/-- An operation that changes the volume.  The kernel refuses it on a read-only mount. -/
def SlotSys.onWritable (f : InCore → InCore × ℤ) (s : SlotSys) : SlotSys :=
  if env.fs.ronly then s else s.onOpen f

/-- An operation of the vnode layer on the inode in core. -/
def SlotSys.onCore (f : InCore → InCore) (s : SlotSys) : SlotSys :=
  match s.core with
  | some ip =>
      let r := f ⟨ip, s.disk, ip⟩
      { s with core := some r.ip, disk := r.disk }
  | none => s

/-- The inode that `ext2_makeinode` or `ext2_mkdir` leaves, and its slot. -/
def createInode (ctx : OpCtx) (rand rand' uid gid : BitVec 32) (mode : BitVec 16)
    (directory member named : Bool) (s : SlotSys) : InCore :=
  let ip := vallocPatch ctx.now rand' (s.get env rand)
  let ip := if directory then ip.asNew uid gid ((mode &&& 0x01ff) ||| 0x4000) 2
    else ip.asNew uid gid (stripSgid member (createMode mode)) 1
  let r := (InCore.ext2Update (env.vnode ctx) (directory || !env.async) ctx.now .ok ⟨ip, s.disk, ip⟩).2
  if named then r else r.modify fun ip => { ip with i_nlink := 0, i_flag := ip.i_flag ||| IN_CHANGE }

/-- One operation. -/
def slotStep (op : SlotOp) (s : SlotSys) : SlotSys :=
  match op with
  | .lookup rand => { s with core := some (s.get env rand), idle := false }
  | .content ctx steps => s.onWritable env fun r => (contentSteps env ctx steps r, 0)
  | .link ctx entered => s.onWritable env (linkCount env ctx entered)
  | .rename ctx entered removed => s.onWritable env (renameCount env ctx entered removed)
  | .parent ctx entered => s.onWritable env (parentCount env ctx entered)
  | .remove => s.onWritable env removeCount
  | .rmdir ctx steps => s.onWritable env (rmdirCount env ctx steps)
  | .replaceDir ctx steps => s.onWritable env (replaceDirCount env ctx steps)
  | .sync ctx wait => s.onCore fun r => (ext2SyncCallback (env.vnode ctx) wait ctx.now .ok r).2
  | .close ctx steps =>
      match s.core with
      | some ip =>
          { s.onCore fun r =>
              (ext2Inactive (env.vnode ctx) (contentSteps env ctx steps) ctx.now .ok r).2 with
            idle := true
            inUse := s.inUse && !decide ip.Unlinked }
      | none => s
  | .evict ctx =>
      if s.idle then
        { s.onCore fun r => (ext2Reclaim (env.vnode ctx) ctx.now .ok r).2 with core := none }
      else s
  | .create ctx rand rand' uid gid mode directory member named =>
      if s.inUse ∨ env.fs.ronly then s
      else
        let r := createInode env ctx rand rand' uid gid mode directory member named s
        { s with
          disk := r.disk
          core := some r.ip
          idle := false
          inUse := true
          links := if named then (if directory then 2 else 1) else 0
          life := s.life + 1 }
  | .handle =>
      match s.core, !s.idle && s.inUse with
      | some ip, true => { s with handles := ⟨env.ino, ip.i_gen, s.life⟩ :: s.handles }
      | _, _ => s

/-- The last close of an inode that is not in core. -/
theorem slotStep_close_none {s : SlotSys} (ctx : OpCtx) (steps : List ContentStep)
    (hcore : s.core = none) : slotStep env (.close ctx steps) s = s := by
  unfold slotStep
  rw [hcore]

/-- The last close of the inode in core. -/
theorem slotStep_close_some {s : SlotSys} {ip : CoreInode} (ctx : OpCtx) (steps : List ContentStep)
    (hcore : s.core = some ip) :
    slotStep env (.close ctx steps) s =
      { s.onCore fun r =>
          (ext2Inactive (env.vnode ctx) (contentSteps env ctx steps) ctx.now .ok r).2 with
        idle := true
        inUse := s.inUse && !decide ip.Unlinked } := by
  unfold slotStep
  rw [hcore]

/-- A handle is not made of a file that is not open and in use. -/
theorem slotStep_handle_none {s : SlotSys} (h : s.core = none ∨ (!s.idle && s.inUse) = false) :
    slotStep env .handle s = s := by
  unfold slotStep
  rcases hcore : s.core with _ | ip
  · rfl
  · rw [hcore, or_iff_right (Option.some_ne_none ip)] at h
    rw [h]

/-- A handle of an open file. -/
theorem slotStep_handle_some {s : SlotSys} {ip : CoreInode} (hcore : s.core = some ip)
    (hopen : (!s.idle && s.inUse) = true) :
    slotStep env .handle s = { s with handles := ⟨env.ino, ip.i_gen, s.life⟩ :: s.handles } := by
  unfold slotStep
  rw [hcore, hopen]

/-- The number of the root directory. -/
def EXT2_ROOTINO : BitVec 32 := 2

/-- `ext2_fhtovp`: the error for a handle.  The inode is fetched first, with the number `rand` if it
has to be read and has no generation number. -/
def ext2Fhtovp (rand : BitVec 32) (h : Handle) (s : SlotSys) : Option Errno :=
  if h.ext2fid_ino < EXT2_ROOTINO ∨ env.gcount * env.ipg < h.ext2fid_ino then some .estale
  else
    let ip := s.get env rand
    if ip.i_mode = 0 ∨ ip.i_gen ≠ h.ext2fid_gen ∨ ip.i_nlink.toInt ≤ 0 then some .estale else none

/-- The slot holds `ei`, and nothing has been done with it. -/
def SlotSys.initial (ei : Ext2fsDinode) : SlotSys where
  disk := ei
  core := none
  idle := false
  inUse := decide (ei.e2di_nlink ≠ 0 ∧ ei.e2di_mode ≠ 0)
  links := ei.e2di_nlink.toNat
  life := 0
  handles := []

end System

/-! ### What is kept by one operation on the inode in core -/

/-- Three fields on disk are those of the inode in core. -/
structure Agrees (ip : CoreInode) (ei : Ext2fsDinode) : Prop where
  nlink : ei.e2di_nlink = ip.i_nlink
  mode : ei.e2di_mode = ip.i_mode
  gen : ei.e2di_gen = ip.i_gen

/-- The inode is waiting for `ext2_reclaim` to write it. -/
def CoreInode.Lazy (ip : CoreInode) : Prop := ip.i_flag &&& IN_LAZYMOD ≠ 0

/-- The inode in core is dirty, or on disk, or has no links. -/
def Held (r : InCore) : Prop := r.ip.Dirty ∨ Agrees r.ip r.disk ∨ r.ip.i_nlink.toInt ≤ 0

/-- An operation keeps the mode and the generation; it leaves the slot alone, and the inode waiting if
it was, or it writes the two fields there. -/
structure Moves (r r' : InCore) : Prop where
  mode : r'.ip.i_mode = r.ip.i_mode
  gen : r'.ip.i_gen = r.ip.i_gen
  disk : r'.disk = r.disk ∧ (r.ip.Lazy → r'.ip.Lazy) ∨
    r'.disk.e2di_mode = r'.ip.i_mode ∧ r'.disk.e2di_gen = r'.ip.i_gen

theorem Moves.refl (r : InCore) : Moves r r := ⟨rfl, rfl, .inl ⟨rfl, id⟩⟩

theorem Moves.trans {r r' r'' : InCore} (h : Moves r r') (h' : Moves r' r'') : Moves r r'' := by
  refine ⟨h'.mode.trans h.mode, h'.gen.trans h.gen, ?_⟩
  rcases h'.disk with ⟨hdisk', hlazy'⟩ | hput
  · rcases h.disk with ⟨hdisk, hlazy⟩ | hput
    · exact .inl ⟨hdisk'.trans hdisk, hlazy' ∘ hlazy⟩
    · right
      rw [hdisk', h'.mode, h'.gen]
      exact hput
  · exact .inr hput

/-- A change in core that keeps the mode and the generation and only adds flags. -/
theorem Moves.modify {r : InCore} {f : CoreInode → CoreInode} (hmode : (f r.ip).i_mode = r.ip.i_mode)
    (hgen : (f r.ip).i_gen = r.ip.i_gen) (hflag : ∃ flags, (f r.ip).i_flag = r.ip.i_flag ||| flags) :
    Moves r (r.modify f) := by
  refine ⟨hmode, hgen, .inl ⟨rfl, ?_⟩⟩
  obtain ⟨flags, hflags⟩ := hflag
  intro hlazy h0
  rw [show (r.modify f).ip.i_flag = r.ip.i_flag ||| flags from hflags,
    BitVec.and_or_distrib_right] at h0
  exact hlazy (BitVec.or_eq_zero_iff.1 h0).1

section Update

variable (v : VnodeEnv) (waitfor : Bool) (now : Timespec) (r : InCore)

@[simp] theorem itimes_nlink (ip : CoreInode) : (ext2Itimes v now ip).i_nlink = ip.i_nlink := by
  obtain ⟨_, _, _, _, _, _, _, h⟩ := itimes_frame ip v now
  rw [h]

@[simp] theorem itimes_mode (ip : CoreInode) : (ext2Itimes v now ip).i_mode = ip.i_mode := by
  obtain ⟨_, _, _, _, _, _, _, h⟩ := itimes_frame ip v now
  rw [h]

@[simp] theorem itimes_gen (ip : CoreInode) : (ext2Itimes v now ip).i_gen = ip.i_gen := by
  obtain ⟨_, _, _, _, _, _, _, h⟩ := itimes_frame ip v now
  rw [h]

/-- A flag that asks for no time stamp stays set through `ext2_itimes`. -/
theorem itimes_keeps_flag {ip : CoreInode} {bit : BitVec 32} (hbit : ~~~IN_TIMES &&& bit = bit)
    (h : ip.i_flag &&& bit ≠ 0) : (ext2Itimes v now ip).i_flag &&& bit ≠ 0 := by
  unfold ext2Itimes
  by_cases h0 : ip.i_flag &&& IN_TIMES = 0
  · rwa [if_pos h0]
  · rw [if_neg h0]
    intro hclear
    apply h
    rw [stamped_flag, BitVec.and_assoc, hbit, CoreInode.mark_flag, BitVec.and_or_distrib_right] at hclear
    exact (BitVec.or_eq_zero_iff.1 hclear).1

/-- An inode that is waiting goes on waiting through `ext2_itimes`. -/
theorem itimes_lazy {ip : CoreInode} (h : ip.Lazy) : (ext2Itimes v now ip).Lazy :=
  itimes_keeps_flag v now (by decide) h

/-- **What `ext2_update` does without failures.**  The count stays; either the slot stays and the inode
is as dirty as before, or the slot has the inode. -/
theorem update_ok_spec :
    let r' := (InCore.ext2Update v waitfor now .ok r).2
    r'.ip.i_nlink = r.ip.i_nlink ∧ Moves r r' ∧
      ((r'.disk = r.disk ∧ (r.ip.Dirty ↔ r'.ip.Dirty)) ∨ v.fs.ronly = false ∧ Agrees r'.ip r'.disk) ∧
      (v.fs.ronly = false → r'.ip.i_flag &&& IN_SYNCED = 0) := by
  obtain ⟨htimes, hdirty⟩ := itimes_flags r.ip v now
  rcases update_cases v waitfor now .ok r with ⟨hskip, heq⟩ | ⟨hskip, hcase⟩
  · rw [heq]
    refine ⟨itimes_nlink _ _ _, ⟨itimes_mode _ _ _, itimes_gen _ _ _, .inl ⟨rfl, itimes_lazy v now⟩⟩,
      .inl ⟨rfl, hdirty⟩, ?_⟩
    intro hrw
    obtain ⟨hmod, -⟩ := hskip.resolve_right (by rw [hrw]; exact Bool.false_ne_true)
    show (ext2Itimes v now r.ip).i_flag &&& IN_SYNCED = 0
    rw [show IN_SYNCED = IN_TIMES ||| IN_MODIFIED by decide, BitVec.and_or_distrib_left, htimes, hmod]
    rfl
  · have hrw : v.fs.ronly = false := by
      cases h : v.fs.ronly
      · rfl
      · exact absurd (.inr h) hskip
    rcases hcase with ⟨e, h, -⟩ | ⟨e, h, -⟩ | ⟨-, heq⟩
    · exact InodeIo.noConfusion h
    · exact InodeIo.noConfusion h
    rw [heq]
    refine ⟨itimes_nlink _ _ _, ⟨itimes_mode _ _ _, itimes_gen _ _ _, .inr ⟨rfl, rfl⟩⟩,
      .inr ⟨hrw, rfl, rfl, rfl⟩, fun _ => ?_⟩
    show (ext2Itimes v now r.ip).i_flag &&& ~~~IN_WRITTEN &&& IN_SYNCED = 0
    rw [BitVec.and_assoc]
    exact and_eq_zero_of_and htimes (by decide)

end Update

/-! ### The operations, one by one -/

/-- The count moves by what the operation says, upwards by one and only below the limit. -/
structure CountSpec (r : InCore) (res : InCore × ℤ) : Prop where
  moves : Moves r res.1
  count : res.1.ip.i_nlink = r.ip.i_nlink + BitVec.ofInt 16 res.2
  bound : res.2 ≤ 0 ∨ res.2 = 1 ∧ r.ip.i_nlink.toInt < EXT2_LINK_MAX
  held : Held r → Held res.1

/-- The inode keeps its count. -/
structure KeepsLinks (r r' : InCore) : Prop where
  moves : Moves r r'
  nlink : r'.ip.i_nlink = r.ip.i_nlink
  held : Held r → Held r'

theorem KeepsLinks.refl (r : InCore) : KeepsLinks r r := ⟨.refl r, rfl, id⟩

theorem KeepsLinks.trans {r r' r'' : InCore} (h : KeepsLinks r r') (h' : KeepsLinks r' r'') : KeepsLinks r r'' :=
  ⟨h.moves.trans h'.moves, h'.nlink.trans h.nlink, h'.held ∘ h.held⟩

theorem KeepsLinks.count {r r' : InCore} (h : KeepsLinks r r') : CountSpec r (r', 0) := by
  refine ⟨h.moves, ?_, .inl le_rfl, h.held⟩
  show r'.ip.i_nlink = r.ip.i_nlink + BitVec.ofInt 16 0
  rw [h.nlink]
  exact (BitVec.add_zero _).symm

/-- An operation that does nothing. -/
theorem CountSpec.none (r : InCore) : CountSpec r (r, 0) := (KeepsLinks.refl r).count

/-- What holds of an agreeing inode goes on where the slot and the three fields stay. -/
theorem Agrees.of_eq {ip ip' : CoreInode} {ei : Ext2fsDinode} (h : Agrees ip ei)
    (hnlink : ip'.i_nlink = ip.i_nlink) (hmode : ip'.i_mode = ip.i_mode)
    (hgen : ip'.i_gen = ip.i_gen) : Agrees ip' ei :=
  ⟨h.nlink.trans hnlink.symm, h.mode.trans hmode.symm, h.gen.trans hgen.symm⟩

/-- `ext2_update` keeps the count, and what is held. -/
theorem update_keepsLinks (v : VnodeEnv) (waitfor : Bool) (now : Timespec) (r : InCore) :
    KeepsLinks r (InCore.ext2Update v waitfor now .ok r).2 := by
  obtain ⟨hnlink, hmoves, hdisk, -⟩ := update_ok_spec v waitfor now r
  refine ⟨hmoves, hnlink, fun h => ?_⟩
  rcases hdisk with ⟨heq, hdirty⟩ | ⟨-, hagrees⟩
  · rcases h with h | h | h
    · exact .inl (hdirty.1 h)
    · right; left
      rw [heq]
      exact h.of_eq hnlink hmoves.mode hmoves.gen
    · right; right
      rwa [hnlink]
  · exact .inr (.inl hagrees)

section Operations

variable (env : SlotEnv) (ctx : OpCtx) (r : InCore)

theorem syncCallback_keepsLinks (v : VnodeEnv) (wait : Bool) (now : Timespec) :
    KeepsLinks r (ext2SyncCallback v wait now .ok r).2 := by
  unfold ext2SyncCallback
  split
  · exact .refl r
  · exact update_keepsLinks _ _ _ _

/-- A changed count is marked. -/
theorem addLinks_spec (d : BitVec 16) :
    Moves r (r.modify (.addLinks d)) ∧ (r.modify (.addLinks d)).ip.i_nlink = r.ip.i_nlink + d ∧
      Held (r.modify (.addLinks d)) := by
  refine ⟨.modify rfl rfl ⟨IN_CHANGE, rfl⟩, rfl, .inl ?_⟩
  exact CoreInode.dirty_mark r.ip IN_CHANGE (by decide)

theorem content_keepsLinks (c : ContentStep) : KeepsLinks r (c.apply env ctx r) := by
  have hflag : ∃ flags, (c.change r.ip).i_flag = r.ip.i_flag ||| flags := by
    unfold ContentStep.change
    cases c.marks
    · exact ⟨0, BitVec.or_zero.symm⟩
    · exact ⟨IN_CHANGE ||| IN_UPDATE, rfl⟩
  obtain ⟨flags, hflags⟩ := hflag
  have hcore : KeepsLinks r (r.modify c.change) := by
    refine ⟨.modify rfl rfl ⟨flags, hflags⟩, rfl, ?_⟩
    rintro (h | h | h)
    · left
      intro h0
      rw [show (r.modify c.change).ip.i_flag = r.ip.i_flag ||| flags from hflags,
        BitVec.and_or_distrib_right] at h0
      exact h (BitVec.or_eq_zero_iff.1 h0).1
    · exact .inr (.inl (h.of_eq rfl rfl rfl))
    · exact .inr (.inr h)
  unfold ContentStep.apply
  cases c.update with
  | none => exact hcore
  | some waitfor => exact hcore.trans (update_keepsLinks _ _ _ _)

/-- Truncation and writes keep the count, and what is held. -/
theorem contentSteps_keepsLinks (steps : List ContentStep) : KeepsLinks r (contentSteps env ctx steps r) := by
  unfold contentSteps
  induction steps generalizing r with
  | nil => exact .refl r
  | cons c steps ih => exact (content_keepsLinks env ctx r c).trans (ih _)

/-- A link counted, and written. -/
theorem counted_spec :
    let r' := updateNow env ctx (r.modify (.addLinks 1))
    Moves r r' ∧ r'.ip.i_nlink = r.ip.i_nlink + 1 ∧ Held r' := by
  obtain ⟨hmoves, hnlink, hheld⟩ := addLinks_spec r 1
  have hquiet := update_keepsLinks (env.vnode ctx) (!env.async) ctx.now (r.modify (.addLinks 1))
  exact ⟨hmoves.trans hquiet.moves, hquiet.nlink.trans hnlink, hquiet.held hheld⟩

/-- A link counted and kept. -/
theorem counted_one (h : r.ip.i_nlink.toInt < EXT2_LINK_MAX) :
    CountSpec r (updateNow env ctx (r.modify (.addLinks 1)), 1) := by
  obtain ⟨hmoves, hnlink, hheld⟩ := counted_spec env ctx r
  exact ⟨hmoves, hnlink, .inr ⟨rfl, h⟩, fun _ => hheld⟩

/-- A link counted, and counted back. -/
theorem counted_back :
    CountSpec r ((updateNow env ctx (r.modify (.addLinks 1))).modify (.addLinks (-1)), 0) := by
  obtain ⟨hmoves, hnlink, -⟩ := counted_spec env ctx r
  obtain ⟨hmoves', hnlink', hheld'⟩ :=
    addLinks_spec (updateNow env ctx (r.modify (.addLinks 1))) (-1)
  refine ⟨hmoves.trans hmoves', ?_, .inl le_rfl, fun _ => hheld'⟩
  rw [hnlink', hnlink, BitVec.add_assoc]
  rfl

/-- The unsigned test implies the signed one. -/
theorem toInt_lt_of_toNat_lt {n : BitVec 16} (h : ¬EXT2_LINK_MAX ≤ n.toNat) :
    n.toInt < EXT2_LINK_MAX := by
  unfold EXT2_LINK_MAX at *
  rw [BitVec.toInt_eq_toNat_cond]
  split <;> omega

theorem linkCount_spec (entered : Bool) : CountSpec r (linkCount env ctx entered r) := by
  unfold linkCount
  by_cases hmax : EXT2_LINK_MAX ≤ r.ip.i_nlink.toNat
  · rw [if_pos hmax]
    exact .none r
  rw [if_neg hmax]
  by_cases hflags : r.ip.i_flags &&& NOREMOVE ≠ 0
  · rw [if_pos hflags]
    exact .none r
  rw [if_neg hflags]
  cases entered
  · exact counted_back env ctx r
  · exact counted_one env ctx r (toInt_lt_of_toNat_lt hmax)

theorem renameCount_spec (entered removed : Bool) :
    CountSpec r (renameCount env ctx entered removed r) := by
  unfold renameCount
  by_cases hmax : (EXT2_LINK_MAX : ℤ) ≤ r.ip.i_nlink.toInt
  · rw [if_pos hmax]
    exact .none r
  rw [if_neg hmax]
  by_cases hflags : r.ip.i_flags &&& NOREMOVE ≠ 0
  · rw [if_pos hflags]
    exact .none r
  rw [if_neg hflags]
  cases entered
  · exact counted_back env ctx r
  · cases removed
    · exact counted_one env ctx r (not_le.1 hmax)
    · exact counted_back env ctx r

theorem parentCount_spec (entered : Bool) : CountSpec r (parentCount env ctx entered r) := by
  unfold parentCount
  by_cases hmax : EXT2_LINK_MAX ≤ r.ip.i_nlink.toNat
  · rw [if_pos hmax]
    exact .none r
  rw [if_neg hmax]
  cases entered
  · exact counted_back env ctx r
  · exact counted_one env ctx r (toInt_lt_of_toNat_lt hmax)

theorem removeCount_spec : CountSpec r (removeCount r) := by
  obtain ⟨hmoves, hnlink, hheld⟩ := addLinks_spec r (-1)
  exact ⟨hmoves, hnlink, .inl (show (-1 : ℤ) ≤ 0 by decide), fun _ => hheld⟩

/-- Both links of an empty directory go.  Nothing marks the inode, which has no links now. -/
theorem unlinkDir_spec (h : r.ip.i_nlink - 2 = 0) :
    CountSpec r (r.modify .dropDirLinks, -2) := by
  have hmoves : Moves r (r.modify .dropDirLinks) := .modify rfl rfl ⟨0, BitVec.or_zero.symm⟩
  refine ⟨hmoves, ?_, .inl (show (-2 : ℤ) ≤ 0 by decide), fun _ => .inr (.inr ?_)⟩
  · show r.ip.i_nlink - 2 = r.ip.i_nlink + BitVec.ofInt 16 (-2)
    rw [BitVec.sub_eq_add_neg]
    rfl
  · show (r.ip.i_nlink - 2).toInt ≤ 0
    rw [h]
    decide

/-- A change of the count, and then none. -/
theorem CountSpec.keepsLinks {r : InCore} {res : InCore × ℤ} {r' : InCore} (h : CountSpec r res)
    (h' : KeepsLinks res.1 r') : CountSpec r (r', res.2) :=
  ⟨h.moves.trans h'.moves, h'.nlink.trans h.count, h.bound, h'.held ∘ h.held⟩

theorem rmdirCount_spec (steps : List ContentStep) :
    CountSpec r (rmdirCount env ctx steps r) := by
  unfold rmdirCount
  by_cases htwo : r.ip.i_nlink ≠ 2
  · rw [if_pos htwo]
    exact .none r
  · rw [if_neg htwo]
    rw [not_not] at htwo
    exact (unlinkDir_spec r (by rw [htwo]; decide)).keepsLinks (contentSteps_keepsLinks env ctx _ steps)

theorem replaceDirCount_spec (steps : List ContentStep) :
    CountSpec r (replaceDirCount env ctx steps r) := by
  unfold replaceDirCount
  by_cases hmany : 2 < r.ip.i_nlink.toInt
  · rw [if_pos hmany]
    exact .none r
  rw [if_neg hmany]
  by_cases hpanic : r.ip.i_nlink - 2 ≠ 0
  · rw [if_pos hpanic]
    exact .none r
  rw [if_neg hpanic]
  have hsteps := (unlinkDir_spec r (not_not.1 hpanic)).keepsLinks (contentSteps_keepsLinks env ctx _ steps)
  refine hsteps.keepsLinks ⟨.modify rfl rfl ⟨IN_CHANGE, rfl⟩, rfl, fun _ => .inl ?_⟩
  exact CoreInode.dirty_mark _ IN_CHANGE (by decide)

end Operations

/-! ### The last close and the eviction -/

section Inactive

variable (v : VnodeEnv) (now : Timespec) (r : InCore)

/-- An inode that is dirty, and not for `ext2_inactive` to write, is waiting for `ext2_reclaim`. -/
theorem lazy_of_dirty {ip : CoreInode} (h : ip.Dirty) (h0 : ip.i_flag &&& IN_SYNCED = 0) : ip.Lazy := by
  intro hlazy
  apply h
  rw [show IN_DIRTY = IN_SYNCED ||| IN_LAZYMOD by decide, BitVec.and_or_distrib_left, h0, hlazy]
  rfl

/-- On a read-only mount `ext2_update` leaves the slot alone. -/
theorem update_ronly (waitfor : Bool) (hro : v.fs.ronly = true) :
    (InCore.ext2Update v waitfor now .ok r).2.disk = r.disk := by
  obtain ⟨-, -, hdisk, -⟩ := update_ok_spec v waitfor now r
  rcases hdisk with ⟨heq, -⟩ | ⟨hrw, -⟩
  · exact heq
  · rw [hro] at hrw
    exact Bool.noConfusion hrw

theorem syncCallback_ronly (wait : Bool) (hro : v.fs.ronly = true) :
    (ext2SyncCallback v wait now .ok r).2.disk = r.disk := by
  unfold ext2SyncCallback
  split
  · rfl
  · exact update_ronly v now r wait hro

/-- The last close of an inode that is not freed. -/
theorem inactive_linked (trunc : InCore → InCore) (h : ¬r.ip.Unlinked) :
    let r' := (ext2Inactive v trunc now .ok r).2
    KeepsLinks r r' ∧ (v.fs.ronly = true → r'.disk = r.disk) ∧
      (r.ip.i_mode ≠ 0 → v.fs.ronly = false → r'.ip.i_flag &&& IN_SYNCED = 0) := by
  unfold ext2Inactive
  by_cases hmode : r.ip.i_mode = 0
  · rw [if_pos hmode]
    exact ⟨.refl r, fun _ => rfl, fun h => absurd hmode h⟩
  have hnlink : ¬r.ip.i_nlink.toInt ≤ 0 := fun hn => h ⟨hmode, hn⟩
  rw [if_neg hmode, if_neg hnlink]
  by_cases hsynced : r.ip.i_flag &&& IN_SYNCED = 0
  · rw [if_pos hsynced]
    exact ⟨.refl r, fun _ => rfl, fun _ _ => hsynced⟩
  · rw [if_neg hsynced]
    exact ⟨update_keepsLinks _ _ _ _, update_ronly _ _ _ _,
      fun _ hrw => (update_ok_spec v false now r).2.2.2 hrw⟩

/-- The last close of an inode without links frees it: it has no mode, in core, and on disk too or as
soon as it is reclaimed. -/
theorem inactive_unlinked {trunc : InCore → InCore} (htrunc : KeepsLinks r (trunc r)) (h : r.ip.Unlinked)
    (hrw : v.fs.ronly = false) :
    let r' := (ext2Inactive v trunc now .ok r).2
    r'.ip.i_mode = 0 ∧ r'.ip.i_gen = r.ip.i_gen ∧
      (r'.ip.Lazy ∨ r'.disk.e2di_mode = 0 ∧ r'.disk.e2di_gen = r.ip.i_gen) := by
  obtain ⟨hmode, hnlink⟩ := h
  have hmark : (trunc r).ip.release.i_flag &&& IN_SYNCED ≠ 0 := by
    intro h0
    rw [show (trunc r).ip.release.i_flag = (trunc r).ip.i_flag ||| (IN_CHANGE ||| IN_UPDATE) from rfl,
      BitVec.and_or_distrib_right] at h0
    exact absurd (BitVec.or_eq_zero_iff.1 h0).2 (by decide)
  have hdirty : (trunc r).ip.release.Dirty := fun h0 => hmark (and_eq_zero_of_and h0 (by decide))
  have heq : ext2Inactive v trunc now .ok r =
      InCore.ext2Update v false now .ok { trunc r with ip := (trunc r).ip.release } := by
    unfold ext2Inactive
    rw [if_neg hmode, if_pos hnlink]
    exact if_neg hmark
  rw [heq]
  obtain ⟨-, hmoves, hdisk, hsynced⟩ :=
    update_ok_spec v false now { trunc r with ip := (trunc r).ip.release }
  have hgen := hmoves.gen.trans htrunc.moves.gen
  refine ⟨hmoves.mode, hgen, ?_⟩
  rcases hdisk with ⟨-, hiff⟩ | ⟨-, hagrees⟩
  · exact .inl (lazy_of_dirty (hiff.1 hdirty) (hsynced hrw))
  · exact .inr ⟨hagrees.mode.trans hmoves.mode, hagrees.gen.trans hgen⟩

/-- **What `ext2_reclaim` leaves on disk.**  An inode that was waiting is written; otherwise, and on a
read-only mount, the slot stays. -/
theorem reclaim_spec :
    let r' := (ext2Reclaim v now .ok r).2
    (v.fs.ronly = true → r'.disk = r.disk) ∧ (¬r.ip.Lazy → r'.disk = r.disk) ∧
      (v.fs.ronly = false → r.ip.Lazy → Agrees r.ip r'.disk) := by
  unfold ext2Reclaim
  by_cases hlazy : r.ip.i_flag &&& IN_LAZYMOD = 0
  · rw [if_pos hlazy]
    exact ⟨fun _ => rfl, fun _ => rfl, fun _ h => absurd hlazy h⟩
  rw [if_neg hlazy]
  refine ⟨update_ronly v now _ false, fun h => absurd hlazy h, fun hrw _ => ?_⟩
  have hmod : (ext2Itimes v now (r.ip.mark IN_MODIFIED)).i_flag &&& IN_MODIFIED ≠ 0 := by
    have hbase : (r.ip.mark IN_MODIFIED).i_flag &&& IN_MODIFIED ≠ 0 := by
      intro h0
      rw [CoreInode.mark_flag, BitVec.and_or_distrib_right] at h0
      exact absurd (BitVec.or_eq_zero_iff.1 h0).2 (by decide)
    exact itimes_keeps_flag v now (by decide) hbase
  rcases update_cases v false now .ok { r with ip := r.ip.mark IN_MODIFIED } with
    ⟨hskip, -⟩ | ⟨-, ⟨e, h, -⟩ | ⟨e, h, -⟩ | ⟨-, heq⟩⟩
  · rcases hskip with ⟨h0, -⟩ | hro
    · exact absurd h0 hmod
    · rw [hrw] at hro
      exact Bool.noConfusion hro
  · exact InodeIo.noConfusion h
  · exact InodeIo.noConfusion h
  · rw [heq]
    exact ⟨itimes_nlink _ _ _, itimes_mode _ _ _, itimes_gen _ _ _⟩

end Inactive

end Ext2fs
