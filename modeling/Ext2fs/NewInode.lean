import Ext2fs.InodeLife

/-!
# What a new file takes over from its slot

`ext2_valloc` has `ext2_vget_typed` read the inode of the slot it allocates, or find it in the hash,
and overwrites it field by field.  `createFile` is `ext2_makeinode` and `ext2_mkdir` as far as they
work on that inode, which has all its fields here.

* `Residue` — the fields that nothing overwrites;
* `makeinode_eq` — the inode that `ext2_makeinode` returns, in terms of them;
* `create_independent_iff` — two pasts of a slot give the same new file exactly when they leave the
  same residue.
-/

namespace Ext2fs

/-! ### The inode with its vnode -/

/-- `enum vtype` -/
inductive VType where
  | vnon | vreg | vdir | vblk | vchr | vlnk | vsock | vfifo | vbad
  deriving DecidableEq, Repr

/-- `IFTOVT`: the type of a vnode, by the upper four bits of a mode. -/
def IFTOVT (mode : BitVec 16) : VType :=
  match (mode >>> 12).toNat with
  | 1 => .vfifo
  | 2 => .vchr
  | 4 => .vdir
  | 6 => .vblk
  | 8 => .vreg
  | 10 => .vlnk
  | 12 => .vsock
  | 15 => .vbad
  | _ => .vnon

/-- The vnode is a device. -/
def VType.special (t : VType) : Bool := t == .vblk || t == .vchr

/-- `struct ext4_extent_cache` -/
structure ExtentCache where
  ec_start : BitVec 64
  ec_blk : BitVec 32
  ec_len : BitVec 32
  ec_type : BitVec 32
  deriving DecidableEq

/-- The fields of `struct inode` that are not on disk, and the type of the vnode.  Pointers, the
number and the identity of the vnode are left out. -/
structure SideFields where
  i_modrev : BitVec 64
  i_count : BitVec 32
  i_endoff : BitVec 32
  i_diroff : BitVec 32
  i_offset : BitVec 32
  i_block_group : BitVec 32
  i_next_alloc_block : BitVec 32
  i_next_alloc_goal : BitVec 32
  i_ext_cache : ExtentCache
  v_type : VType
  deriving DecidableEq

/-- `struct inode` and its vnode. -/
structure FullInode where
  core : CoreInode
  side : SideFields
  deriving DecidableEq

/-- The inode without its generation number. -/
def FullInode.forgetGen (ip : FullInode) : FullInode := { ip with core := { ip.core with i_gen := 0 } }

/-! ### The creation -/

/-- What there was of a slot: its contents, and the inode that is still in the hash. -/
structure Past where
  slot : Ext2fsDinode
  hashed : Option FullInode

/-- A creation, and everything it depends on besides the past of the slot. -/
structure CreateReq where
  /-- `ext2_mkdir`, and not `ext2_makeinode` -/
  directory : Bool
  mode : BitVec 16
  uid : BitVec 32
  gid : BitVec 32
  /-- the creator is a member of the group -/
  member : Bool
  /-- `ino_to_cg` of the number that was found -/
  group : BitVec 32
  rand : BitVec 32
  rand' : BitVec 32
  now : Timespec
  now' : Timespec
  /-- `ext2_balloc` of the first block of a directory: it sees all of the inode but the generation -/
  balloc : FullInode → Option FullInode

/-- The mode that the creation asks for. -/
def CreateReq.vmode (q : CreateReq) : BitVec 16 :=
  if q.directory then (q.mode &&& 0x01ff) ||| 0x4000 else createMode q.mode

/-- The mode that the new file has. -/
def CreateReq.imode (q : CreateReq) : BitVec 16 :=
  if q.directory then q.vmode else stripSgid q.member q.vmode

section Create

variable (fs : MExt2fs) (hasXtime async : Bool) (q : CreateReq)

/-- The flags of an inode that is read from its slot. -/
def slotFlags (ei : Ext2fsDinode) : BitVec 32 :=
  (if ei.e2di_flags &&& EXT4_INDEX ≠ 0 then IN_E4INDEX else 0) |||
    (if ei.e2di_flags &&& EXT4_EXTENTS ≠ 0 then IN_E4EXTENTS else 0) |||
    (if ei.e2di_gen = 0 then IN_MODIFIED else 0)

/-- The side fields of an inode that `ext2_vget_typed` makes, for a vnode of the mode. -/
def freshSide (mode : BitVec 16) : SideFields :=
  ⟨0, 0, 0, 0, 0, q.group, 0, 0, ⟨0, 0, 0, 0⟩, IFTOVT mode⟩

/-- The inode that `ext2_vget_typed` reads from its slot, and its vnode. -/
def freshInode (ei : Ext2fsDinode) : FullInode :=
  let ip := vgetFill fs hasXtime q.rand ei
  ⟨ip, freshSide q (if q.vmode ≠ 0 then q.vmode else ip.i_mode)⟩

/-- `ext2_vget_typed`: the inode in the hash, or one that is read. -/
def vgetTyped (past : Past) : FullInode := past.hashed.getD (freshInode fs hasXtime q past.slot)

/-- `ext2_update`, on a mount for writing and without failures. -/
def FullInode.update (ei : Ext2fsDinode) (waitfor : Bool) (now : Timespec) (ip : FullInode) :
    FullInode :=
  let v : VnodeEnv := ⟨fs, hasXtime, async, ip.side.v_type.special⟩
  { core := (InCore.ext2Update v waitfor now .ok ⟨ip.core, ei, ip.core⟩).2.ip
    side := { ip.side with
      i_modrev :=
        if ip.core.i_flag &&& IN_UPDATE ≠ 0 then ip.side.i_modrev + 1 else ip.side.i_modrev } }

/-- The inode of the slot after `ext2_valloc`, with the fields of the new file. -/
def newInode (past : Past) : FullInode :=
  let ip := vgetTyped fs hasXtime q past
  { ip with
    core := (vallocPatch q.now q.rand' ip.core).asNew q.uid q.gid q.imode (if q.directory then 2 else 1) }

/-- The first block of a directory, in `ext2_mkdir`. -/
def firstBlock (ip : FullInode) : Option FullInode :=
  let sized : FullInode :=
    { ip with
      core := { ip.core with
        i_size := BitVec.ofNat 64 fs.bsize
        i_flag := ip.core.i_flag ||| (IN_CHANGE ||| IN_UPDATE) } }
  (q.balloc sized.forgetGen).map fun r =>
    { core := { r.core with i_gen := ip.core.i_gen }
      side := { r.side with v_type := ip.side.v_type } }

/-- The inode that `ext2_makeinode` or `ext2_mkdir` returns. -/
def createFile (past : Past) : Option FullInode :=
  let ip := (newInode fs hasXtime q past).update fs hasXtime async past.slot (q.directory || !async)
    q.now'
  if q.directory then firstBlock fs q ip else some ip

/-! ### What is left of the past -/

/-- The flags that a past leaves. -/
def Past.flags (past : Past) : BitVec 32 :=
  match past.hashed with
  | some ip => ip.core.i_flag
  | none => slotFlags past.slot

/-- The side fields that it leaves. -/
def Past.side (past : Past) : SideFields :=
  match past.hashed with
  | some ip => ip.side
  | none => freshSide q q.vmode

/-- What the first `ext2_update` makes of these flags: a device on a mount that is asynchronous may not
be written. -/
def keptFlags (special waitfor : Bool) (flag : BitVec 32) : BitVec 32 :=
  if special = true ∧ waitfor = false ∧ flag &&& IN_MODIFIED = 0 then
    (flag ||| IN_LAZYMOD) &&& ~~~IN_TIMES
  else flag &&& ~~~(IN_TIMES ||| IN_WRITTEN)

/-- Two pasts leave the same, and vnodes of the type that is asked for. -/
structure SameResidue (a b : Past) : Prop where
  type : (a.side q).v_type = IFTOVT q.vmode
  type' : (b.side q).v_type = IFTOVT q.vmode
  side : a.side q = b.side q
  flags : keptFlags (IFTOVT q.vmode).special (q.directory || !async) a.flags =
    keptFlags (IFTOVT q.vmode).special (q.directory || !async) b.flags

/-- The two new files are equal but for the generation, with vnodes of the type that is asked for. -/
structure Independent (a b : Past) : Prop where
  same : (createFile fs hasXtime async q a).map FullInode.forgetGen =
    (createFile fs hasXtime async q b).map FullInode.forgetGen
  type : ∀ ip ∈ createFile fs hasXtime async q a, ip.side.v_type = IFTOVT q.imode
  type' : ∀ ip ∈ createFile fs hasXtime async q b, ip.side.v_type = IFTOVT q.imode

end Create

/-! ### The inode that is returned -/

section Returned

variable {fs : MExt2fs} {hasXtime async : Bool} {q : CreateReq}

theorem CreateReq.vmode_ne_zero (q : CreateReq) : q.vmode ≠ 0 := by
  unfold CreateReq.vmode
  split
  · intro h0
    exact absurd (BitVec.or_eq_zero_iff.1 h0).2 (by decide)
  · unfold createMode
    split
    · intro h0
      exact absurd (BitVec.or_eq_zero_iff.1 h0).2 (by decide)
    · rename_i h
      intro h0
      rw [h0] at h
      exact h BitVec.zero_and

/-- Stripping a permission bit leaves the type. -/
theorem CreateReq.imode_type (q : CreateReq) : IFTOVT q.imode = IFTOVT q.vmode := by
  have hshift : ∀ mode : BitVec 16, (mode &&& ~~~0x0400) >>> 12 = mode >>> 12 := by
    intro mode
    ext i hi
    simp only [BitVec.getElem_ushiftRight, BitVec.getLsbD_and]
    have hset : ∀ i < 16, 12 + i < 16 → (~~~0x0400#16).getLsbD (12 + i) = true := by decide
    by_cases hlt : 12 + i < 16
    · show (mode.getLsbD (12 + i) && (~~~0x0400#16).getLsbD (12 + i)) = _
      rw [hset i hi hlt, Bool.and_true]
    · rw [BitVec.getLsbD_of_ge mode _ (by omega), Bool.false_and]
  unfold CreateReq.imode stripSgid
  split
  · rfl
  · split
    · unfold IFTOVT
      rw [hshift]
    · rfl

/-- The flags of an inode that is read. -/
theorem vgetFill_flag (hrw : fs.ronly = false) (rand : BitVec 32) (ei : Ext2fsDinode) :
    (vgetFill fs hasXtime rand ei).i_flag = slotFlags ei := by
  have hflag : (clearUnused fs (ext2Ei2i fs hasXtime ei CoreInode.zero)).i_flag =
      (if ei.e2di_flags &&& EXT4_INDEX ≠ 0 then IN_E4INDEX else 0) |||
        (if ei.e2di_flags &&& EXT4_EXTENTS ≠ 0 then IN_E4EXTENTS else 0) := by
    rw [clearUnused_flag]
    show 0 ||| _ ||| _ = _
    rw [show ∀ x : BitVec 32, 0 ||| x = x from fun x => BitVec.zero_or]
  by_cases hgen : ei.e2di_gen = 0
  · have h0 : (clearUnused fs (ext2Ei2i fs hasXtime ei CoreInode.zero)).i_gen = 0 := by
      rw [clearUnused_gen]
      exact hgen
    unfold vgetFill defaultGen slotFlags
    rw [if_pos h0, if_pos hgen, hrw, ← hflag]
    rfl
  · rw [vgetFill_of_gen fs hasXtime rand ei hgen, hflag]
    unfold slotFlags
    rw [if_neg hgen]
    exact BitVec.or_zero.symm

/-- `ext2_vget_typed` leaves the flags and the side fields of the past. -/
theorem vgetTyped_residue (hrw : fs.ronly = false) (past : Past) :
    (vgetTyped fs hasXtime q past).core.i_flag = past.flags ∧
      (vgetTyped fs hasXtime q past).side = past.side q := by
  unfold vgetTyped Past.flags Past.side
  cases past.hashed with
  | some ip => exact ⟨rfl, rfl⟩
  | none =>
    refine ⟨vgetFill_flag hrw q.rand past.slot, ?_⟩
    show freshSide q (if q.vmode ≠ 0 then q.vmode else _) = freshSide q q.vmode
    rw [if_pos q.vmode_ne_zero]

/-- An inode with all three time flags is stamped throughout. -/
theorem itimes_all (v : VnodeEnv) (now : Timespec) (hrw : v.fs.ronly = false) {ip : CoreInode}
    {flag : BitVec 32} (hflag : ip.i_flag = flag ||| IN_TIMES) :
    ext2Itimes v now ip =
      { ip with
        i_flag := (flag ||| if v.special then IN_LAZYMOD else IN_MODIFIED) &&& ~~~IN_TIMES
        i_atime := now.sec, i_mtime := now.sec, i_ctime := now.sec
        i_atimensec := now.nsec, i_mtimensec := now.nsec, i_ctimensec := now.nsec } := by
  have hbit : ∀ bit mark : BitVec 32, IN_TIMES &&& bit = bit → bit ≠ 0 →
      (ip.i_flag ||| mark) &&& bit ≠ 0 := by
    intro bit mark hsub hne h0
    rw [BitVec.and_or_distrib_right, hflag, BitVec.and_or_distrib_right, hsub] at h0
    exact hne (BitVec.or_eq_zero_iff.1 (BitVec.or_eq_zero_iff.1 h0).1).2
  have htimes : ip.i_flag &&& IN_TIMES ≠ 0 := by
    have h := hbit IN_TIMES 0 (by decide) (by decide)
    rwa [show ip.i_flag ||| 0 = ip.i_flag from BitVec.or_zero] at h
  unfold ext2Itimes
  rw [if_neg htimes, hrw]
  show ((ip.mark _).stamp now).unmark IN_TIMES = _
  have haccess := hbit IN_ACCESS (if v.special then IN_LAZYMOD else IN_MODIFIED) (by decide) (by decide)
  have hupdate := hbit IN_UPDATE (if v.special then IN_LAZYMOD else IN_MODIFIED) (by decide) (by decide)
  have hchange := hbit IN_CHANGE (if v.special then IN_LAZYMOD else IN_MODIFIED) (by decide) (by decide)
  unfold CoreInode.stamp CoreInode.mark CoreInode.unmark
  rw [hflag] at haccess hupdate hchange
  simp only [hflag, if_pos haccess, if_pos hupdate, if_pos hchange]
  congr 1
  rw [BitVec.and_or_distrib_right, BitVec.and_or_distrib_right, BitVec.and_or_distrib_right,
    show IN_TIMES &&& ~~~IN_TIMES = 0#32 by decide, BitVec.or_zero]

/-- The flags that the first `ext2_update` leaves, whether it writes or not. -/
theorem keptFlags_eq (special waitfor : Bool) (flag : BitVec 32) :
    let flag' := (flag ||| if special then IN_LAZYMOD else IN_MODIFIED) &&& ~~~IN_TIMES
    (flag' &&& IN_MODIFIED = 0 ∧ waitfor = false → keptFlags special waitfor flag = flag') ∧
      (¬(flag' &&& IN_MODIFIED = 0 ∧ waitfor = false) →
        keptFlags special waitfor flag = flag' &&& ~~~IN_WRITTEN) := by
  have hsub : ∀ mark : BitVec 32, mark &&& (~~~IN_TIMES &&& ~~~IN_WRITTEN) = 0 →
      (flag ||| mark) &&& ~~~IN_TIMES &&& ~~~IN_WRITTEN = flag &&& ~~~(IN_TIMES ||| IN_WRITTEN) := by
    intro mark hmark
    rw [BitVec.and_assoc, BitVec.and_or_distrib_right, hmark,
      show ~~~IN_TIMES &&& ~~~IN_WRITTEN = ~~~(IN_TIMES ||| IN_WRITTEN) by decide]
    exact BitVec.or_zero
  unfold keptFlags
  cases special
  · have hmod : ((flag ||| IN_MODIFIED) &&& ~~~IN_TIMES) &&& IN_MODIFIED ≠ 0 := by
      intro h0
      rw [BitVec.and_assoc, BitVec.and_or_distrib_right] at h0
      exact absurd (BitVec.or_eq_zero_iff.1 h0).2 (by decide)
    exact ⟨fun h => absurd h.1 hmod, fun _ => (hsub IN_MODIFIED (by decide)).symm⟩
  · have hmod : ((flag ||| IN_LAZYMOD) &&& ~~~IN_TIMES) &&& IN_MODIFIED = flag &&& IN_MODIFIED := by
      rw [BitVec.and_assoc, BitVec.and_or_distrib_right,
        show IN_LAZYMOD &&& (~~~IN_TIMES &&& IN_MODIFIED) = 0#32 by decide,
        show ~~~IN_TIMES &&& IN_MODIFIED = IN_MODIFIED by decide]
      exact BitVec.or_zero
    constructor
    · rintro ⟨h, hw⟩
      change ((flag ||| IN_LAZYMOD) &&& ~~~IN_TIMES) &&& IN_MODIFIED = 0 at h
      rw [hmod] at h
      rw [if_pos ⟨rfl, hw, h⟩]
      rfl
    · intro h
      have hnot : ¬(true = true ∧ waitfor = false ∧ flag &&& IN_MODIFIED = 0) := by
        rintro ⟨-, hw, h'⟩
        exact h ⟨hmod.trans h', hw⟩
      rw [if_neg hnot]
      exact (hsub IN_LAZYMOD (by decide)).symm

/-- The fields on disk of a new file. -/
def newCore (q : CreateReq) (flag gen : BitVec 32) : CoreInode where
  i_flag := flag
  i_mode := q.imode
  i_nlink := if q.directory then 2 else 1
  i_uid := q.uid
  i_gid := q.gid
  i_size := 0
  i_blocks := 0
  i_atime := q.now'.sec
  i_mtime := q.now'.sec
  i_ctime := q.now'.sec
  i_birthtime := q.now.sec
  i_mtimensec := q.now'.nsec
  i_atimensec := q.now'.nsec
  i_ctimensec := q.now'.nsec
  i_birthnsec := q.now.nsec
  i_gen := gen
  i_flags := 0
  i_db := fun _ => 0
  i_ib := fun _ => 0

/-- **The new file before it has a block.**  Of the past it has the generation, the flags that survive
and the side fields. -/
theorem newInode_update (hrw : fs.ronly = false) (past : Past) (waitfor : Bool) :
    (newInode fs hasXtime q past).update fs hasXtime async past.slot waitfor q.now' =
      ⟨newCore q (keptFlags (past.side q).v_type.special waitfor past.flags)
          (nextGen q.rand' (vgetTyped fs hasXtime q past).core.i_gen),
        { past.side q with i_modrev := (past.side q).i_modrev + 1 }⟩ := by
  obtain ⟨hflag, hside⟩ := @vgetTyped_residue fs hasXtime q hrw past
  have hnew : (newInode fs hasXtime q past).core.i_flag = past.flags ||| IN_TIMES := by
    rw [← hflag]
    rfl
  have hnside : (newInode fs hasXtime q past).side = past.side q := hside
  have hmod : (newInode fs hasXtime q past).core.i_flag &&& IN_UPDATE ≠ 0 := by
    intro h0
    rw [hnew, BitVec.and_or_distrib_right] at h0
    exact absurd (BitVec.or_eq_zero_iff.1 h0).2 (by decide)
  unfold FullInode.update
  rw [if_pos hmod, hnside]
  refine congrArg (fun core => FullInode.mk core
    { past.side q with i_modrev := (past.side q).i_modrev + 1 }) ?_
  have htimes := itimes_all ⟨fs, hasXtime, async, (past.side q).v_type.special⟩ q.now' hrw hnew
  have hgen : (newInode fs hasXtime q past).core.i_gen =
      nextGen q.rand' (vgetTyped fs hasXtime q past).core.i_gen := rfl
  rcases update_cases ⟨fs, hasXtime, async, (past.side q).v_type.special⟩ waitfor q.now' .ok
      ⟨(newInode fs hasXtime q past).core, past.slot, (newInode fs hasXtime q past).core⟩ with
    ⟨hskip, heq⟩ | ⟨hskip, ⟨e, h, -⟩ | ⟨e, h, -⟩ | ⟨-, heq⟩⟩
  · rw [heq]
    unfold UpdateSkips at hskip
    have hresolved := hskip.resolve_right (by rw [hrw]; exact Bool.false_ne_true)
    rw [htimes] at hresolved
    show ext2Itimes _ _ (newInode fs hasXtime q past).core = _
    rw [htimes, (keptFlags_eq _ _ _).1 hresolved]
    rfl
  · exact InodeIo.noConfusion h
  · exact InodeIo.noConfusion h
  · rw [heq]
    have hwritten := fun h' => hskip (.inl h')
    rw [htimes] at hwritten
    show (ext2Itimes _ _ (newInode fs hasXtime q past).core).unmark IN_WRITTEN = _
    rw [htimes, (keptFlags_eq _ _ _).2 hwritten]
    rfl

/-- Two inodes that differ in the generation only get the same first block. -/
theorem firstBlock_forgetGen {ip ip' : FullInode} (h : ip.forgetGen = ip'.forgetGen) :
    (firstBlock fs q ip).map FullInode.forgetGen = (firstBlock fs q ip').map FullInode.forgetGen := by
  have hform : ∀ ip : FullInode, (firstBlock fs q ip).map FullInode.forgetGen =
      (q.balloc { ip.forgetGen with
        core := { ip.forgetGen.core with
          i_size := BitVec.ofNat 64 fs.bsize
          i_flag := ip.forgetGen.core.i_flag ||| (IN_CHANGE ||| IN_UPDATE) } }).map fun r =>
        ({ r with side := { r.side with v_type := ip.forgetGen.side.v_type } } : FullInode).forgetGen := by
    intro ip
    unfold firstBlock
    rw [Option.map_map]
    rfl
  rw [hform, hform, h]

/-- The vnode of what is returned is the one the inode had. -/
theorem createFile_type (hrw : fs.ronly = false) (past : Past) :
    ∀ ip ∈ createFile fs hasXtime async q past, ip.side.v_type = (past.side q).v_type := by
  intro ip hip
  unfold createFile at hip
  rw [newInode_update hrw] at hip
  cases hdir : q.directory
  · rw [if_neg (by rw [hdir]; exact Bool.false_ne_true)] at hip
    cases hip
    rfl
  · rw [if_pos hdir] at hip
    unfold firstBlock at hip
    obtain ⟨r, -, hr⟩ := Option.map_eq_some_iff.1 hip
    rw [← hr]

/-- **What a new file takes over.**  Two pasts of a slot, one or both with the old inode still in the
hash, give the same new file but for the generation, on a vnode of its type, if they leave the same
side fields, for such a vnode, and flags of which the same survive; and for a file that is not a
directory, whose inode is returned as `ext2_update` leaves it, only then. -/
theorem create_independent_iff (hrw : fs.ronly = false) (a b : Past) :
    (SameResidue async q a b → Independent fs hasXtime async q a b) ∧
      (q.directory = false → Independent fs hasXtime async q a b → SameResidue async q a b) := by
  constructor
  · intro h
    have hsame : ((newInode fs hasXtime q a).update fs hasXtime async a.slot (q.directory || !async)
          q.now').forgetGen =
        ((newInode fs hasXtime q b).update fs hasXtime async b.slot (q.directory || !async)
          q.now').forgetGen := by
      rw [newInode_update hrw, newInode_update hrw, h.type, h.type', h.flags, h.side]
      rfl
    refine ⟨?_, ?_, ?_⟩
    · unfold createFile
      by_cases hdir : q.directory = true
      · rw [if_pos hdir, if_pos hdir]
        exact firstBlock_forgetGen hsame
      · rw [if_neg hdir, if_neg hdir]
        exact congrArg some hsame
    · intro ip hip
      rw [createFile_type hrw a ip hip, h.type, CreateReq.imode_type]
    · intro ip hip
      rw [createFile_type hrw b ip hip, h.type', CreateReq.imode_type]
  · intro hdir h
    have hret : ∀ past : Past, createFile fs hasXtime async q past =
        some ((newInode fs hasXtime q past).update fs hasXtime async past.slot (q.directory || !async)
          q.now') := by
      intro past
      unfold createFile
      rw [hdir]
      rfl
    have htype : (a.side q).v_type = IFTOVT q.vmode := by
      rw [← createFile_type hrw a _ (hret a), h.type _ (hret a), CreateReq.imode_type]
    have htype' : (b.side q).v_type = IFTOVT q.vmode := by
      rw [← createFile_type hrw b _ (hret b), h.type' _ (hret b), CreateReq.imode_type]
    have hsame := h.same
    rw [hret, hret, Option.map_some, Option.map_some, Option.some.injEq, newInode_update hrw,
      newInode_update hrw, htype, htype'] at hsame
    have hmodrev : (a.side q).i_modrev = (b.side q).i_modrev :=
      (BitVec.add_left_inj 1).1 (congrArg (fun ip => ip.side.i_modrev) hsame)
    have hside : a.side q = b.side q := by
      have hrest := congrArg (fun ip => { ip.side with i_modrev := (a.side q).i_modrev }) hsame
      change a.side q = { b.side q with i_modrev := (a.side q).i_modrev } at hrest
      rw [hrest, hmodrev]
    exact ⟨htype, htype', hside, congrArg (fun ip => ip.core.i_flag) hsame⟩

end Returned

/-- A request for a regular file. -/
def plainReq : CreateReq :=
  ⟨false, 0x81a4, 501, 20, true, 0, 7, 7, ⟨2000, 0⟩, ⟨2000, 5⟩, fun _ => none⟩

/-- A slot that held the plain file and one that held a directory give the same new file. -/
theorem create_over_directory :
    Independent volume4k true false plainReq ⟨plainDinode, none⟩
      ⟨{ plainDinode with e2di_mode := 0x41ed, e2di_size := 4096, e2di_atime := 5 }, none⟩ :=
  (create_independent_iff (by decide) _ _).1
    ⟨by decide, by decide, by decide, by decide +kernel⟩

/-- A slot that held a file with extents gives another one: the new file has `IN_E4EXTENTS`. -/
theorem create_over_extents :
    ¬Independent volume4k true false plainReq ⟨plainDinode, none⟩
      ⟨{ plainDinode with e2di_flags := EXT4_EXTENTS }, none⟩ := by
  intro h
  exact absurd h.same (by decide +kernel)

end Ext2fs
