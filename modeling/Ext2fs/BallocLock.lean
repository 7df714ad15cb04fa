import Ext2fs.AllocLock
import Ext2fs.Truncate
import Ext2fs.ExtentBalloc

/-!
# The mount lock in the block functions

`ext2_balloc`, `ext2_ext_balloc`, `ext4_ext_new_block` and `ext2_truncate` with the operations on
`um_lock` their code makes.  The functions of the namespace `Locking` are those of `Balloc`,
`ExtentBalloc` and `Truncate` with the lock written out; what they compute is the same.

* `Locking.ext2Balloc_value`, `Locking.ext2ExtBalloc_value` — without the lock these are `ext2Balloc`
  and `ext2ExtBalloc`;
* `Locking.ballocMapped_ends` — when the block-mapped half of `ext2_balloc` keeps to the rules;
* `Locking.ext4ExtNewBlock_ends` — `ext4_ext_new_block` **never** does.
-/

namespace Ext2fs

open Mutex

/-- What the rest of the kernel answers during one call of `ext2_balloc`, with the searches of the
allocator by depth in place of the blocks it picks. -/
structure BallocLockEnv extends BallocEnv where
  search : ℕ → AllocEnv

/-- What the rest of the kernel answers during one call of `ext2_ext_balloc`, with the searches. -/
structure ExtLockEnv extends ExtEnv where
  dataSearch : AllocEnv
  oldSearch : AllocEnv
  newSearch : AllocEnv

/-- What the rest of the kernel answers during one call of `ext2_truncate`, with the searches of the
call of `ext2_balloc` in it. -/
structure TruncLockEnv extends TruncEnv where
  search : ℕ → AllocEnv
  /-- the answers for an extent-mapped inode -/
  ext : ExtTruncEnv

/-- The same answers, with the blocks the searches come to; `size` is the size asked for at depth 0. -/
def BallocLockEnv.plain (fs : MExt2fs) (env : BallocLockEnv) (size : ℕ) : BallocEnv :=
  { env.toBallocEnv with
    alloc := fun depth pref =>
      (env.search depth).choice fs (if depth = 0 then size else fs.bsize) pref }

/-- The same answers, with the blocks the searches come to. -/
def ExtLockEnv.plain (fs : MExt2fs) (env : ExtLockEnv) (size : ℕ) : ExtEnv :=
  { env.toExtEnv with
    dataAlloc := env.dataSearch.choice fs size 0
    old := { env.old with alloc := env.oldSearch.choice fs fs.bsize 0 }
    new := { env.new with alloc := env.newSearch.choice fs fs.bsize 0 } }

namespace Locking

variable (fs : MExt2fs)

/-! ### `ext2_balloc` for a block-mapped inode -/

/-- What follows a call of `ext2_alloc`: its error is returned as it is. -/
def afterAlloc (w : World) (choice : Option ℕ) (found : ℕ → World → Locked (Option Errno × World)) :
    Option (ℕ × World) → Locked (Option Errno × World)
  | none => pure (some .enospc, w.lostBit fs choice)
  | some (newb, w) => found newb w

/-- A new block is given back. -/
def giveBack (bitmapOk : ℤ → Bool) (newb : ℕ) (w : World) : Locked (Option Errno × World) := do
  let w ← ext2Blkfree fs bitmapOk newb w
  pure (some .eio, w)

/-- A new block is given back, and the lock is released once more. -/
def giveBackUnlock (bitmapOk : ℤ → Bool) (newb : ℕ) (w : World) : Locked (Option Errno × World) := do
  let w ← ext2Blkfree fs bitmapOk newb w
  Locked.unlock
  pure (some .eio, w)

/-- The lock is taken, a preference chosen, and a block allocated.  The lock is not released here:
`ext2_alloc` does that. -/
def allocate (env : AllocEnv) (lbn size : ℕ) (w : World) (pref : Locked ℕ)
    (found : ℕ → ℕ → World → Locked (Option Errno × World)) : Locked (Option Errno × World) := do
  Locked.lock
  let pref ← pref
  ext2Alloc fs env lbn pref size w >>= afterAlloc fs w (env.choice fs size pref) (found pref)

/-- The preference for a new indirect block: the one chosen before, if there is one. -/
def walkPref (ip : Inode) (lbn : ℕ) (next : Indir) (bap : ℕ → ℕ) (pref : ℕ) : Locked ℕ :=
  if pref = 0 then blkpref fs ip lbn next.off bap (u32 next.lbn) else pure pref

/-- The loop of `ext2_balloc` over the indirect blocks, followed by the data block. -/
def ballocWalk (env : BallocLockEnv) (sync : Bool) (lbn : ℕ) :
    List Indir → ℕ → ℕ → ℕ → World → Locked (Option Errno × World)
  | [], _, _, _, w => pure (none, w)
  | ap :: rest, j, pref, indirb, w =>
      if env.read j = false then pure (some .eio, w)
      else
        let bap := w.store fs indirb
        let nb := bap ap.off
        match rest with
        | [] =>
            if nb ≠ 0 then pure (if env.dataGet then none else some .eio, w)
            else
              allocate fs (env.search (j + 1)) lbn fs.bsize w
                (blkpref fs w.ip lbn ap.off bap (u32 ap.lbn)) fun _ newb w =>
                  if env.dataGet = false then giveBack fs env.bitmapOk newb w
                  else
                    let bap := fun x => if x = ap.off then u32 newb else bap x
                    pure (none, w.publishBlk fs sync (env.publish j) indirb bap)
        | next :: _ =>
            if nb ≠ 0 then ballocWalk env sync lbn rest (j + 1) pref nb w
            else
              allocate fs (env.search (j + 1)) lbn fs.bsize w (walkPref fs w.ip lbn next bap pref)
                fun pref newb w =>
                  if env.getblk (j + 1) = false then giveBackUnlock fs env.bitmapOk newb w
                  else if env.zeroWrite (j + 1) = false then
                    giveBackUnlock fs env.bitmapOk newb w
                  else
                    let w := w.setBlk fs newb fun _ => 0
                    let bap := fun x => if x = ap.off then u32 newb else bap x
                    let w := w.publishBlk fs sync (env.publish j) indirb bap
                    ballocWalk env sync lbn rest (j + 1) pref newb w

/-- `nsize`, the size of a new direct block. -/
def newSize (lbn size : ℕ) (w : World) : ℕ :=
  if w.ip.size < (lbn + 1) * fs.bsize then fs.fragroundup size else fs.bsize

/-- The direct blocks of `ext2_balloc`. -/
def ballocDirect (env : BallocLockEnv) (lbn size : ℕ) (w : World) :
    Locked (Option Errno × World) :=
  let nb := w.ip.db lbn
  if nb ≠ 0 ∧ (lbn + 1) * fs.bsize ≤ w.ip.size then
    pure (if env.dataGet then none else some .eio, w)
  else if nb ≠ 0 then
    let osize := fs.fragroundup (fs.blkoff w.ip.size)
    let nsize := fs.fragroundup size
    if nsize ≤ osize then pure (if env.dataGet then (none, w.mark) else (some .eio, w))
    else pure (none, { w with panicked := true })
  else
    allocate fs (env.search 0) lbn (newSize fs lbn size w) w
      (blkpref fs w.ip lbn lbn w.ip.slot 0) fun _ newb w =>
        let w := w.setDb lbn (u32 newb)
        if env.dataGet = false then giveBack fs env.bitmapOk newb (w.setDb lbn 0)
        else pure (none, w.mark)

/-- The indirect blocks of `ext2_balloc`. -/
def ballocIndirect (env : BallocLockEnv) (sync : Bool) (lbn : ℕ) (ap : Indir) (path : List Indir)
    (w : World) : Locked (Option Errno × World) :=
  let nb := w.ip.ib ap.off
  if nb ≠ 0 then ballocWalk fs env sync lbn path 0 0 nb w
  else
    allocate fs (env.search 0) lbn fs.bsize w
      (blkpref fs w.ip lbn (ap.off + NDADDR) w.ip.slot 0) fun pref newb w =>
        if env.getblk 0 = false then giveBack fs env.bitmapOk newb w
        else if env.zeroWrite 0 = false then giveBack fs env.bitmapOk newb w
        else
          let w := w.setBlk fs newb fun _ => 0
          let w := (w.setIb ap.off (u32 newb)).mark
          ballocWalk fs env sync lbn path 0 pref newb w

/-- `ext2_balloc` for a block-mapped inode. -/
def ballocMapped (env : BallocLockEnv) (sync : Bool) (lbn : ℤ) (size : ℕ) (w : World) :
    Locked (Option Errno × World) :=
  if lbn < 0 then pure (some .efbig, w)
  else
    let w := w.bumpNextAlloc lbn
    if lbn < NDADDR then ballocDirect fs env lbn.toNat size w
    else match ext2Getlbns fs.nindir lbn with
      | .error e => pure (some e, w)
      | .ok [] => pure (some .efbig, w)
      | .ok (ap :: path) => ballocIndirect fs env sync lbn.toNat ap path w

/-! ### `ext2_ext_balloc` -/

/-- The allocation of the extent code: `EXT2_LOCK`, `ext2_alloc`, `EXT2_UNLOCK`. -/
def allocUnlock (env : AllocEnv) (lbn size : ℕ) (w : World) : Locked (Option (ℕ × World)) := do
  Locked.lock
  let r ← ext2Alloc fs env lbn 0 size w
  Locked.unlock
  pure r

/-- `ext4_ext_new_block` -/
def ext4ExtNewBlock (bitmapOk : ℤ → Bool) (search : AllocEnv) (env : NewBlockEnv) (w : World) :
    Locked (Except Errno ℕ × World) := do
  match ← allocUnlock fs search 0 fs.bsize w with
  | none => pure (.error .enospc, w.lostBit fs (search.choice fs fs.bsize 0))
  | some (newp, w) =>
      if env.getblk = false ∨ env.write = false then do
        let w ← ext2Blkfree fs bitmapOk newp w
        pure (.error .eio, w)
      else pure (.ok newp, w.setBlk fs newp .zero)

/-- The two new blocks of `ext4_ext_grow_depth0` are given back. -/
def freeTwo (bitmapOk : ℤ → Bool) (oldBlock newBlock : ℕ) (w : World) :
    Locked (Option Errno × World) := do
  let w ← ext2Blkfree fs bitmapOk oldBlock w
  let w ← ext2Blkfree fs bitmapOk newBlock w
  pure (some .eio, w)

/-- `ext4_ext_grow_depth0` -/
def growDepth0 (env : ExtLockEnv) (path : ExtPath) (newext : Ext4Extent) (w : World) :
    Locked (Option Errno × World) := do
  let ehp := w.node fs path.header
  match ← ext4ExtNewBlock fs env.bitmapOk env.oldSearch env.old w with
  | (.error e, w) => pure (some e, w)
  | (.ok oldBlock, w) =>
      match ← ext4ExtNewBlock fs env.bitmapOk env.newSearch env.new w with
      | (.error e, w) => do
          let w ← ext2Blkfree fs env.bitmapOk oldBlock w
          pure (some e, w)
      | (.ok newBlock, w) =>
          if env.oldGet = false then freeTwo fs env.bitmapOk oldBlock newBlock w
          else if env.newGet = false then freeTwo fs env.bitmapOk oldBlock newBlock w
          else
            let old := lowerHalf ehp
            let new := newLeaf ehp newext
            let w := w.setNode fs none (grownRoot (w.node fs none) old new oldBlock newBlock)
            let w := (w.addBlocks (btodb fs.bsize * 2)).mark
            let fail := fun w : World =>
              freeTwo fs env.bitmapOk oldBlock newBlock (w.subBlocks (btodb fs.bsize * 2))
            if env.oldWrite = false then fail w
            else
              let w := w.setBlk fs oldBlock old
              if env.newWrite = false then fail w
              else pure (none, w.setBlk fs newBlock new)

/-- `ext4_ext_split_leaf`: the new block is given back when there is no buffer for it. -/
def splitLeaf (env : ExtLockEnv) (path : ExtPath) (newext : Ext4Extent) (newBlock : ℕ) (w : World) :
    Locked (Option Errno × World) :=
  ⟨Ext2fs.splitLeaf fs env.toExtEnv path newext newBlock w,
    if env.newGet = false then blkfreeOps fs env.bitmapOk newBlock else []⟩

/-- `ext4_ext_insert_extent` -/
def ext4ExtInsertExtent (env : ExtLockEnv) (path : ExtPath) (newext : Ext4Extent) (w : World) :
    Locked (Option Errno × World) := do
  let ehp := w.node fs path.header
  if ehp.ecount < ehp.max then
    match path.ext with
    | none => pure (none, { w with panicked := true })
    | some ex =>
        let ehp := (ehp.shiftUp ex ehp.ecount).put ex newext
        let ehp := ehp.setEcount (ehp.ecount + 1)
        pure (none, ((w.setNode fs path.header ehp).addBlocks (btodb fs.bsize)).mark)
  else if ehp.depth = 0 then growDepth0 fs env path newext w
  else
    match ← ext4ExtNewBlock fs env.bitmapOk env.newSearch env.new w with
    | (.error e, w) => pure (some e, w)
    | (.ok newBlock, w) =>
        splitLeaf fs env path { newext with startLo := u32 newBlock } newBlock w

/-- What `ext2_ext_balloc` does with a new block. -/
def extBallocInsert (env : ExtLockEnv) (clrbuf : Bool) (lbn size : ℕ) (path : Option ExtPath)
    (w : World) :
    Option (ℕ × World) → Locked (Except Errno ExtBuf × World)
  | none => pure (.error .enospc, w.lostBit fs (env.dataSearch.choice fs size 0))
  | some (newb, w) =>
      match path with
      | none => pure (.error .eio, { w with panicked := true })
      | some path => do
          match ← ext4ExtInsertExtent fs env path (newExtent lbn newb) w with
          | (some e, w) => do
              let w ← ext2Blkfree fs env.bitmapOk newb w
              pure (.error e, w)
          | (none, w) =>
              pure (if env.dataGet = false then (.error .eio, w) else (.ok (.fresh clrbuf), w.mark))

/-- What `ext2_ext_balloc` does when it decides that the block has to be allocated. -/
def extBallocNew (env : ExtLockEnv) (clrbuf : Bool) (lbn size : ℕ) (path : Option ExtPath)
    (w : World) : Locked (Except Errno ExtBuf × World) :=
  allocUnlock fs env.dataSearch lbn size w >>= extBallocInsert fs env clrbuf lbn size path w

/-- The test of `ext2_ext_balloc` for a block that is there already. -/
def Present (lbn : ℕ) (w : World) (header : NodeRef) (ep : ℕ) : Prop :=
  let n := w.node fs header
  ExtNode.Covers n ep lbn ∧ u32 (n.startLo ep + u32 ((lbn : ℤ) - n.blk ep)) ≠ 0 ∧
    (lbn + 1) * fs.bsize ≤ w.ip.size

instance (lbn : ℕ) (w : World) (header : NodeRef) (ep : ℕ) :
    Decidable (Present fs lbn w header ep) := inferInstanceAs (Decidable (_ ∧ _))

/-- `ext2_ext_balloc` -/
def ext2ExtBalloc (env : ExtLockEnv) (clrbuf : Bool) (lbn size : ℕ) (w : World) :
    Locked (Except Errno ExtBuf × World) :=
  let path := ext4ExtFindExtent fs env.read w lbn
  match path with
  | some ⟨header, some ep⟩ =>
      let n := w.node fs header
      let phys := u32 (n.startLo ep + u32 ((lbn : ℤ) - n.blk ep))
      if Present fs lbn w header ep then
        pure ((metaBread fs env.read w (fs.lblkno phys)).map ExtBuf.read, w)
      else extBallocNew fs env clrbuf lbn size path w
  | _ => extBallocNew fs env clrbuf lbn size path w

/-! ### `ext2_truncate` -/

/-- The operations of the calls of `ext2_blkfree` between two states. -/
def freedOps (bitmapOk : ℤ → Bool) (w w' : World) : List Op :=
  (w'.freed.drop w.freed.length).flatMap fun e => blkfreeOps fs bitmapOk e.bno

/-- A part of `ext2_truncate` that uses the lock in its calls of `ext2_blkfree` only. -/
def releasing (bitmapOk : ℤ → Bool) (w : World) (r : Option Errno × World) :
    Locked (Option Errno × World) :=
  ⟨r, freedOps fs bitmapOk w r.2⟩

/-- The searches of the call of `ext2_balloc`. -/
def ballocEnv (env : TruncLockEnv) : BallocLockEnv :=
  { env.balloc with search := env.search }

/-- What follows the call of `ext2_balloc` when the end of the file moves away. -/
def extended (env : TruncLockEnv) (length : ℕ) : Option Errno × World → Locked (Option Errno × World)
  | (some e, w) => pure (some e, w)
  | (none, w) => pure (ext2Update fs env.toUpdateEnv (!env.async) (w.setSize length).mark)

/-- The end of the file moves away. -/
def truncExtend (env : TruncLockEnv) (sync : Bool) (length : ℕ) (w : World) :
    Locked (Option Errno × World) :=
  if fs.maxfilesize < length then pure (some .efbig, w)
  else
    let offset := fs.blkoff (length - 1)
    ballocMapped fs (ballocEnv env) sync (i32 (fs.lblkno (length - 1))) (offset + 1) w >>=
      extended fs env length

/-- What follows the call of `ext2_balloc` for a partial block. -/
def fetched (length : ℕ) : Option Errno × World → Locked (Option Errno × World)
  | (some e, w) => pure (some e, w)
  | (none, w) => pure (none, w.setSize length)

/-- A partial block behind the end is fetched. -/
def truncPartial (env : TruncLockEnv) (sync : Bool) (length : ℕ) (w : World) :
    Locked (Option Errno × World) :=
  let offset := fs.blkoff length
  if offset = 0 then pure (none, w.setSize length)
  else
    ballocMapped fs (ballocEnv env) sync (i32 (fs.lblkno length)) offset w >>= fetched length

/-- The blocks behind the end are released once the partial block is there. -/
def released (env : TruncLockEnv) (osize length : ℕ) :
    Option Errno × World → Locked (Option Errno × World)
  | (some e, w) => pure (some e, w)
  | (none, w) => releasing fs env.bitmapOk w (truncRelease fs env.toTruncEnv osize length w)

/-- `ext2_truncate` for a block-mapped inode. -/
def truncMapped (env : TruncLockEnv) (sync : Bool) (length : ℤ) (w : World) :
    Locked (Option Errno × World) :=
  if length < 0 then pure (some .einval, w)
  else
    let length := length.toNat
    if w.ip.size = length then pure (ext2Update fs env.toUpdateEnv false w.mark)
    else if w.ip.size < length then truncExtend fs env sync length w
    else truncPartial fs env sync length w >>= released fs env w.ip.size length

/-! ### Without the lock -/

section

variable {fs}

/-- What an allocation comes to. -/
theorem allocate_value (env : AllocEnv) (lbn size : ℕ) (w : World) (pref : Locked ℕ)
    (found : ℕ → ℕ → World → Locked (Option Errno × World)) :
    (allocate fs env lbn size w pref found).value =
      match w.takeBlock fs lbn (env.choice fs size pref.value) with
      | none => (some .enospc, w.lostBit fs (env.choice fs size pref.value))
      | some (newb, w₁) => (found pref.value newb w₁).value := by
  unfold allocate
  rw [Locked.value_bind, Locked.value_bind, Locked.value_bind, ext2Alloc_value]
  cases w.takeBlock fs lbn (env.choice fs size pref.value) with
  | none => rfl
  | some r => rfl

theorem walkPref_value (ip : Inode) (lbn : ℕ) (next : Indir) (bap : ℕ → ℕ) (pref : ℕ) :
    (walkPref fs ip lbn next bap pref).value =
      if pref = 0 then ext2Blkpref fs ip lbn next.off bap (u32 next.lbn) else pref := by
  unfold walkPref
  split <;> rfl

theorem blkpref_value (ip : Inode) (lbn indx : ℕ) (bap : ℕ → ℕ) (blocknr : ℕ) :
    (blkpref fs ip lbn indx bap blocknr).value = ext2Blkpref fs ip lbn indx bap blocknr := rfl

variable (env : BallocLockEnv) (sync : Bool)

/-- The loop over the indirect blocks is `ballocWalk`. -/
theorem ballocWalk_value (s lbn : ℕ) (path : List Indir) :
    ∀ (j pref indirb : ℕ) (w : World),
      (ballocWalk fs env sync lbn path j pref indirb w).value =
        Ext2fs.ballocWalk fs (env.plain fs s) sync lbn path j pref indirb w := by
  induction path with
  | nil =>
    intro j pref indirb w
    rfl
  | cons ap rest ih =>
    intro j pref indirb w
    unfold ballocWalk Ext2fs.ballocWalk
    rw [Locked.value_ite]
    refine if_congr Iff.rfl rfl ?_
    have halloc : ∀ pref, (env.plain fs s).alloc (j + 1) pref =
        (env.search (j + 1)).choice fs fs.bsize pref := fun pref => rfl
    cases rest with
    | nil =>
      simp only
      rw [Locked.value_ite]
      refine if_congr Iff.rfl rfl ?_
      rw [allocate_value, halloc, blkpref_value]
      cases w.takeBlock fs lbn ((env.search (j + 1)).choice fs fs.bsize
          (ext2Blkpref fs w.ip lbn ap.off (w.store fs indirb) (u32 ap.lbn))) with
      | none => rfl
      | some r =>
        obtain ⟨newb, w₁⟩ := r
        simp only
        rw [Locked.value_ite]
        rfl
    | cons next tail =>
      simp only
      rw [Locked.value_ite, ih]
      refine if_congr Iff.rfl rfl ?_
      rw [allocate_value, walkPref_value, halloc]
      cases w.takeBlock fs lbn ((env.search (j + 1)).choice fs fs.bsize
          (if pref = 0 then ext2Blkpref fs w.ip lbn next.off (w.store fs indirb) (u32 next.lbn)
            else pref)) with
      | none => rfl
      | some r =>
        obtain ⟨newb, w₁⟩ := r
        simp only
        rw [Locked.value_ite, Locked.value_ite, ih]
        rfl

theorem ballocDirect_value (lbn size : ℕ) (w : World) :
    (ballocDirect fs env lbn size w).value =
      Ext2fs.ballocDirect fs (env.plain fs (newSize fs lbn size w)) lbn size w := by
  unfold ballocDirect Ext2fs.ballocDirect
  rw [Locked.value_ite, Locked.value_ite]
  refine if_congr Iff.rfl rfl (if_congr Iff.rfl ?_ ?_)
  · rw [Locked.value_ite]
    rfl
  · have halloc : ∀ pref, (env.plain fs (newSize fs lbn size w)).alloc 0 pref =
        (env.search 0).choice fs (newSize fs lbn size w) pref := fun pref => rfl
    rw [allocate_value, blkpref_value]
    simp only [halloc]
    cases w.takeBlock fs lbn ((env.search 0).choice fs (newSize fs lbn size w)
        (ext2Blkpref fs w.ip lbn lbn w.ip.slot 0)) with
    | none => rfl
    | some r =>
      obtain ⟨newb, w₁⟩ := r
      simp only
      rw [Locked.value_ite]
      rfl

theorem ballocIndirect_value (lbn : ℕ) (ap : Indir) (path : List Indir) (w : World) :
    (ballocIndirect fs env sync lbn ap path w).value =
      Ext2fs.ballocIndirect fs (env.plain fs fs.bsize) sync lbn ap path w := by
  unfold ballocIndirect Ext2fs.ballocIndirect
  rw [Locked.value_ite, ballocWalk_value env sync fs.bsize]
  refine if_congr Iff.rfl rfl ?_
  have halloc : ∀ pref, (env.plain fs fs.bsize).alloc 0 pref =
      (env.search 0).choice fs fs.bsize pref := fun pref => rfl
  rw [allocate_value, blkpref_value]
  simp only [halloc]
  cases w.takeBlock fs lbn ((env.search 0).choice fs fs.bsize
      (ext2Blkpref fs w.ip lbn (ap.off + NDADDR) w.ip.slot 0)) with
  | none => rfl
  | some r =>
    obtain ⟨newb, w₁⟩ := r
    simp only
    rw [Locked.value_ite, Locked.value_ite, ballocWalk_value env sync fs.bsize]
    rfl

/-- **Without the lock**, `ballocMapped` is the `ext2_balloc` of `Balloc`, with an allocator that picks
the blocks the searches come to. -/
theorem ballocMapped_value (lbn : ℤ) (size : ℕ) (w : World) :
    (ballocMapped fs env sync lbn size w).value =
      Ext2fs.ext2Balloc fs (env.plain fs (if lbn < NDADDR then
        newSize fs lbn.toNat size (w.bumpNextAlloc lbn) else fs.bsize)) sync lbn size w := by
  unfold ballocMapped Ext2fs.ext2Balloc
  rw [Locked.value_ite]
  refine if_congr Iff.rfl rfl ?_
  simp only
  by_cases hdirect : lbn < NDADDR
  · rw [if_pos hdirect, if_pos hdirect, if_pos hdirect]
    exact ballocDirect_value env lbn.toNat size _
  · rw [if_neg hdirect, if_neg hdirect, if_neg hdirect]
    cases ext2Getlbns fs.nindir lbn with
    | error e => rfl
    | ok path =>
      cases path with
      | nil => rfl
      | cons ap path => exact ballocIndirect_value env sync lbn.toNat ap path _

end

section

variable {fs}

theorem allocUnlock_value (env : AllocEnv) (lbn size : ℕ) (w : World) :
    (allocUnlock fs env lbn size w).value = w.takeBlock fs lbn (env.choice fs size 0) := by
  unfold allocUnlock
  simp only [Locked.value_bind, Locked.value_pure, ext2Alloc_value]

theorem ext4ExtNewBlock_value (bitmapOk : ℤ → Bool) (search : AllocEnv) (env : NewBlockEnv)
    (w : World) : (ext4ExtNewBlock fs bitmapOk search env w).value =
      Ext2fs.ext4ExtNewBlock fs bitmapOk { env with alloc := search.choice fs fs.bsize 0 } w := by
  unfold ext4ExtNewBlock Ext2fs.ext4ExtNewBlock
  rw [Locked.value_bind, allocUnlock_value]
  simp only
  cases w.takeBlock fs 0 (search.choice fs fs.bsize 0) with
  | none => rfl
  | some r =>
    obtain ⟨newp, w₁⟩ := r
    cases env.getblk with
    | false => simp [ext2Blkfree]
    | true => cases env.write <;> simp [ext2Blkfree]

variable (env : ExtLockEnv)

theorem growDepth0_value (s : ℕ) (path : ExtPath) (newext : Ext4Extent) (w : World) :
    (growDepth0 fs env path newext w).value =
      Ext2fs.growDepth0 fs (env.plain fs s) path newext w := by
  unfold growDepth0 Ext2fs.growDepth0
  rw [Locked.value_bind, ext4ExtNewBlock_value]
  simp only [ExtLockEnv.plain]
  rcases Ext2fs.ext4ExtNewBlock fs env.bitmapOk
    { env.old with alloc := env.oldSearch.choice fs fs.bsize 0 } w with ⟨_ | oldBlock, w₁⟩
  · rfl
  · simp only
    rw [Locked.value_bind, ext4ExtNewBlock_value]
    rcases Ext2fs.ext4ExtNewBlock fs env.bitmapOk
      { env.new with alloc := env.newSearch.choice fs fs.bsize 0 } w₁ with ⟨_ | newBlock, w₂⟩
    · rfl
    · simp only [Locked.value_ite]
      rfl

theorem ext4ExtInsertExtent_value (s : ℕ) (path : ExtPath) (newext : Ext4Extent) (w : World) :
    (ext4ExtInsertExtent fs env path newext w).value =
      Ext2fs.ext4ExtInsertExtent fs (env.plain fs s) path newext w := by
  unfold ext4ExtInsertExtent Ext2fs.ext4ExtInsertExtent
  simp only [Locked.value_ite]
  refine if_congr Iff.rfl ?_ (if_congr Iff.rfl (growDepth0_value env s path newext w) ?_)
  · cases path.ext <;> rfl
  · rw [Locked.value_bind, ext4ExtNewBlock_value]
    simp only [ExtLockEnv.plain]
    rcases Ext2fs.ext4ExtNewBlock fs env.bitmapOk
      { env.new with alloc := env.newSearch.choice fs fs.bsize 0 } w with ⟨_ | newBlock, w₁⟩
    · rfl
    · rfl

/-- **Without the lock**, this is the `ext2_ext_balloc` of `ExtentBalloc`. -/
theorem ext2ExtBalloc_value (clrbuf : Bool) (lbn size : ℕ) (w : World) :
    (ext2ExtBalloc fs env clrbuf lbn size w).value =
      Ext2fs.ext2ExtBalloc fs (env.plain fs size) clrbuf lbn w := by
  have hnew : ∀ path, (extBallocNew fs env clrbuf lbn size path w).value =
      Ext2fs.extBallocNew fs (env.plain fs size) clrbuf lbn path w := by
    intro path
    unfold extBallocNew Ext2fs.extBallocNew
    rw [Locked.value_bind, allocUnlock_value]
    have hdata : (env.plain fs size).dataAlloc = env.dataSearch.choice fs size 0 := rfl
    rw [hdata]
    cases w.takeBlock fs lbn (env.dataSearch.choice fs size 0) with
    | none => rfl
    | some r =>
      obtain ⟨newb, w₁⟩ := r
      cases path with
      | none => rfl
      | some path =>
        simp only [extBallocInsert]
        rw [Locked.value_bind, ext4ExtInsertExtent_value env size]
        rcases Ext2fs.ext4ExtInsertExtent fs (env.plain fs size) path (newExtent lbn newb) w₁ with
          ⟨_ | e, w₂⟩
        · rfl
        · rfl
  unfold ext2ExtBalloc Ext2fs.ext2ExtBalloc
  have hfind : ext4ExtFindExtent fs (env.plain fs size).read w lbn =
      ext4ExtFindExtent fs env.read w lbn := rfl
  simp only [hfind]
  rcases hpath : ext4ExtFindExtent fs env.read w lbn with _ | ⟨header, _ | ep⟩
  · exact hnew _
  · exact hnew _
  · show Locked.value (if _ then _ else _) = _
    rw [Locked.value_ite, hnew]
    rfl

end

/-! ### The rules -/

/-- The two ways a preference is chosen: with an assertion, or not at all. -/
def Prefers (pref : Locked ℕ) : Prop := pref.ops = [] ∨ pref.ops = [.assertOwned]

theorem prefers_blkpref (ip : Inode) (lbn indx : ℕ) (bap : ℕ → ℕ) (blocknr : ℕ) :
    Prefers (blkpref fs ip lbn indx bap blocknr) := .inr rfl

theorem prefers_walkPref (ip : Inode) (lbn : ℕ) (next : Indir) (bap : ℕ → ℕ) (pref : ℕ) :
    Prefers (walkPref fs ip lbn next bap pref) := by
  unfold walkPref
  split
  · exact .inr rfl
  · exact .inl rfl

theorem giveBack_ends (bitmapOk : ℤ → Bool) (newb : ℕ) (w : World) :
    Ends (giveBack fs bitmapOk newb w).ops True :=
  ((blkfreeOps_ends fs bitmapOk newb).append fun _ => Ends.nil).of_iff (by simp)

theorem giveBackUnlock_ends (bitmapOk : ℤ → Bool) (newb : ℕ) (w : World) :
    Ends (giveBackUnlock fs bitmapOk newb w).ops False :=
  ((blkfreeOps_ends fs bitmapOk newb).append fun _ => Ends.unlock_free_bind).of_iff (by simp)

section

variable {fs} {env : AllocEnv} {lbn size : ℕ} {w : World} {pref : Locked ℕ}
  {found : ℕ → ℕ → World → Locked (Option Errno × World)} {C : ℕ → World → Prop}

/-- A call of `ext2_alloc` with what follows it. -/
theorem afterAlloc_ends {p : ℕ} (hfound : ∀ newb w₁, Ends (found p newb w₁).ops (C newb w₁)) :
    EndsFrom true
      (ext2Alloc fs env lbn p size w >>= afterAlloc fs w (env.choice fs size p) (found p)).ops
      (env.Fits fs p size ∧ ∀ newb w₁,
        w.takeBlock fs lbn (env.choice fs size p) = some (newb, w₁) → C newb w₁) := by
  refine (ext2Alloc_ends fs env lbn p size w).bind fun _ => ?_
  rw [ext2Alloc_value]
  cases w.takeBlock fs lbn (env.choice fs size p) with
  | none => exact Ends.nil.of_iff (by simp)
  | some r =>
    obtain ⟨newb, w₁⟩ := r
    exact (hfound newb w₁).of_iff (by simp)

/-- An allocation of `ext2_balloc` keeps to the rules when its search fits and what is done with the
block does. -/
theorem allocate_ends (hpref : Prefers pref)
    (hfound : ∀ newb w₁, Ends (found pref.value newb w₁).ops (C newb w₁)) :
    Ends (allocate fs env lbn size w pref found).ops
      (env.Fits fs pref.value size ∧ ∀ newb w₁,
        w.takeBlock fs lbn (env.choice fs size pref.value) = some (newb, w₁) → C newb w₁) := by
  refine EndsFrom.lock_bind ?_
  rw [Locked.ops_bind]
  have halloc : EndsFrom true
      (ext2Alloc fs env lbn pref.value size w >>=
        afterAlloc fs w (env.choice fs size pref.value) (found pref.value)).ops _ :=
    afterAlloc_ends hfound
  rcases hpref with h | h
  · rw [h]
    exact halloc
  · rw [h]
    exact ⟨fun hc => halloc.free hc, fun hc => halloc.broken hc⟩

end

/-- In the loop over the indirect blocks: every search fits, and every new indirect block gets its
buffer and its first write. -/
def WalkKeeps (env : BallocLockEnv) (sync : Bool) (lbn : ℕ) :
    List Indir → ℕ → ℕ → ℕ → World → Prop
  | [], _, _, _, _ => True
  | ap :: rest, j, pref, indirb, w =>
      let bap := w.store fs indirb
      let nb := bap ap.off
      env.read j = true →
        match rest with
        | [] => nb = 0 →
            (env.search (j + 1)).Fits fs (ext2Blkpref fs w.ip lbn ap.off bap (u32 ap.lbn)) fs.bsize
        | next :: _ =>
            if nb ≠ 0 then WalkKeeps env sync lbn rest (j + 1) pref nb w
            else
              let pref := (walkPref fs w.ip lbn next bap pref).value
              (env.search (j + 1)).Fits fs pref fs.bsize ∧ ∀ newb w₁,
                w.takeBlock fs lbn ((env.search (j + 1)).choice fs fs.bsize pref) =
                    some (newb, w₁) →
                  env.getblk (j + 1) = true ∧ env.zeroWrite (j + 1) = true ∧
                    WalkKeeps env sync lbn rest (j + 1) pref newb
                      ((w₁.setBlk fs newb fun _ => 0).publishBlk fs sync (env.publish j) indirb
                        fun x => if x = ap.off then u32 newb else bap x)

/-- A new direct block: its search fits. -/
def DirectKeeps (env : BallocLockEnv) (lbn size : ℕ) (w : World) : Prop :=
  w.ip.db lbn = 0 →
    (env.search 0).Fits fs (ext2Blkpref fs w.ip lbn lbn w.ip.slot 0) (newSize fs lbn size w)

/-- A block behind the direct ones: the search for the first indirect block fits, and the loop keeps to
the rules. -/
def IndirectKeeps (env : BallocLockEnv) (sync : Bool) (lbn : ℕ) (ap : Indir) (path : List Indir)
    (w : World) : Prop :=
  let nb := w.ip.ib ap.off
  if nb ≠ 0 then WalkKeeps fs env sync lbn path 0 0 nb w
  else
    let pref := ext2Blkpref fs w.ip lbn (ap.off + NDADDR) w.ip.slot 0
    (env.search 0).Fits fs pref fs.bsize ∧ ∀ newb w₁,
      w.takeBlock fs lbn ((env.search 0).choice fs fs.bsize pref) = some (newb, w₁) →
        env.getblk 0 = true → env.zeroWrite 0 = true →
          WalkKeeps fs env sync lbn path 0 pref newb
            ((w₁.setBlk fs newb fun _ => 0).setIb ap.off (u32 newb)).mark

/-- The condition under which the block-mapped half of `ext2_balloc` keeps to the rules. -/
def MappedKeeps (env : BallocLockEnv) (sync : Bool) (lbn : ℤ) (size : ℕ) (w : World) : Prop :=
  0 ≤ lbn →
    let w := w.bumpNextAlloc lbn
    if lbn < NDADDR then DirectKeeps fs env lbn.toNat size w
    else ∀ ap path, ext2Getlbns fs.nindir lbn = .ok (ap :: path) →
      IndirectKeeps fs env sync lbn.toNat ap path w

section

variable (env : BallocLockEnv) (sync : Bool)

/-- The loop over the indirect blocks, by induction on the path. -/
theorem ballocWalk_ends (lbn : ℕ) (path : List Indir) :
    ∀ (j pref indirb : ℕ) (w : World),
      Ends (ballocWalk fs env sync lbn path j pref indirb w).ops
        (WalkKeeps fs env sync lbn path j pref indirb w) := by
  induction path with
  | nil =>
    intro j pref indirb w
    exact Ends.pure _
  | cons ap rest ih =>
    intro j pref indirb w
    unfold ballocWalk WalkKeeps
    by_cases hread : env.read j = false
    · simp only [hread, if_true]
      exact (Ends.pure _).of_iff (by simp)
    · have hread' : env.read j = true := by simpa using hread
      simp only [hread', Bool.true_eq_false, if_false, true_implies]
      cases rest with
      | nil =>
        simp only
        by_cases hnb : w.store fs indirb ap.off = 0
        · simp only [hnb, ne_eq, not_true_eq_false, if_false, true_implies]
          refine (allocate_ends (C := fun _ _ => True) (prefers_blkpref fs _ _ _ _ _)
            fun newb w₁ => ?_).of_iff (by simp [blkpref])
          split
          · exact giveBack_ends fs _ newb w₁
          · exact Ends.pure _
        · simp only [hnb, ne_eq, not_false_eq_true, if_true, false_implies]
          exact Ends.pure _
      | cons next tail =>
        simp only
        by_cases hnb : w.store fs indirb ap.off = 0
        · simp only [hnb, ne_eq, not_true_eq_false, if_false]
          refine (allocate_ends (prefers_walkPref fs _ _ _ _ _) fun newb w₁ => ?_).of_iff Iff.rfl
          by_cases hget : env.getblk (j + 1) = false
          · simp only [hget, if_true]
            exact (giveBackUnlock_ends fs _ newb w₁).of_iff (by simp)
          · by_cases hzero : env.zeroWrite (j + 1) = false
            · simp only [hget, hzero, if_true]
              exact (giveBackUnlock_ends fs _ newb w₁).of_iff (by simp)
            · simp only [hget, hzero]
              exact (ih _ _ _ _).of_iff (by simp)
        · simp only [hnb, ne_eq, not_false_eq_true, if_true]
          exact ih _ _ _ w

theorem ballocDirect_ends (lbn size : ℕ) (w : World) :
    Ends (ballocDirect fs env lbn size w).ops (DirectKeeps fs env lbn size w) := by
  unfold ballocDirect DirectKeeps
  by_cases hnb : w.ip.db lbn = 0
  · simp only [hnb, ne_eq, not_true_eq_false, false_and, if_false, true_implies]
    refine (allocate_ends (C := fun _ _ => True) (prefers_blkpref fs _ _ _ _ _)
      fun newb w₁ => ?_).of_iff (by simp [blkpref])
    split
    · exact giveBack_ends fs _ newb _
    · exact Ends.pure _
  · simp only [hnb, ne_eq, not_false_eq_true, true_and, if_true, false_implies]
    split
    · exact Ends.pure _
    · split
      · exact Ends.pure _
      · exact Ends.pure _

theorem ballocIndirect_ends (lbn : ℕ) (ap : Indir) (path : List Indir) (w : World) :
    Ends (ballocIndirect fs env sync lbn ap path w).ops
      (IndirectKeeps fs env sync lbn ap path w) := by
  unfold ballocIndirect IndirectKeeps
  by_cases hnb : w.ip.ib ap.off = 0
  · simp only [hnb, ne_eq, not_true_eq_false, if_false]
    refine (allocate_ends (prefers_blkpref fs _ _ _ _ _) fun newb w₁ => ?_).of_iff Iff.rfl
    by_cases hget : env.getblk 0 = false
    · simp only [hget, if_true]
      exact (giveBack_ends fs _ newb w₁).of_iff (by simp)
    · by_cases hzero : env.zeroWrite 0 = false
      · simp only [hget, hzero, if_true]
        exact (giveBack_ends fs _ newb w₁).of_iff (by simp)
      · simp only [hget, hzero]
        exact (ballocWalk_ends fs env sync lbn path _ _ _ _).of_iff (by simp [blkpref])
  · simp only [hnb, ne_eq, not_false_eq_true, if_true]
    exact ballocWalk_ends fs env sync lbn path 0 0 _ w

/-- **The block-mapped half of `ext2_balloc`** keeps to the rules exactly if every search fits and no
new indirect block behind the first one is given back. -/
theorem ballocMapped_ends (lbn : ℤ) (size : ℕ) (w : World) :
    Ends (ballocMapped fs env sync lbn size w).ops (MappedKeeps fs env sync lbn size w) := by
  unfold ballocMapped MappedKeeps
  by_cases hlbn : lbn < 0
  · rw [if_pos hlbn]
    exact (Ends.pure _).of_iff (by simp [not_le.2 hlbn])
  · rw [if_neg hlbn]
    simp only [not_lt.1 hlbn, true_implies]
    split
    · exact ballocDirect_ends fs env lbn.toNat size _
    · split
      · next e he => exact (Ends.pure _).of_iff (by simp [he])
      · next he => exact (Ends.pure _).of_iff (by simp [he])
      · next ap path he =>
        refine (ballocIndirect_ends fs env sync lbn.toNat ap path _).of_iff ?_
        rw [he]
        simp

end

/-! ### The extent code -/

/-- An allocation of the extent code releases the lock twice, whatever `ext2_alloc` comes to. -/
theorem allocUnlock_ends (env : AllocEnv) (lbn size : ℕ) (w : World) :
    Ends (allocUnlock fs env lbn size w).ops False := by
  refine (EndsFrom.lock_bind (c := env.Fits fs 0 size ∧ False) ?_).of_iff (by simp)
  exact (ext2Alloc_ends fs env lbn 0 size w).bind fun _ => Ends.unlock_free_bind

/-- **`ext4_ext_new_block` never keeps to the rules.** -/
theorem ext4ExtNewBlock_ends (bitmapOk : ℤ → Bool) (search : AllocEnv) (env : NewBlockEnv)
    (w : World) : Ends (ext4ExtNewBlock fs bitmapOk search env w).ops False :=
  Ends.bind_of_false _ (allocUnlock_ends fs search 0 fs.bsize w)

/-- `ext2_ext_balloc` finds the block in an extent of the tree, and the file covers it. -/
def ExtKeeps (env : ExtLockEnv) (lbn : ℕ) (w : World) : Prop :=
  ∃ header ep, ext4ExtFindExtent fs env.read w lbn = some ⟨header, some ep⟩ ∧
    Present fs lbn w header ep

/-- **`ext2_ext_balloc`** keeps to the rules exactly if it has nothing to allocate. -/
theorem ext2ExtBalloc_ends (env : ExtLockEnv) (clrbuf : Bool) (lbn size : ℕ) (w : World) :
    Ends (ext2ExtBalloc fs env clrbuf lbn size w).ops (ExtKeeps fs env lbn w) := by
  have hnew : ∀ path, Ends (extBallocNew fs env clrbuf lbn size path w).ops False := fun path =>
    Ends.bind_of_false _ (allocUnlock_ends fs env.dataSearch lbn size w)
  unfold ext2ExtBalloc ExtKeeps
  simp only
  split
  · next header ep hpath =>
    split
    · next hpresent => exact (Ends.pure _).of_iff (by simp [hpath, hpresent])
    · next hpresent => exact (hnew _).of_iff (by simp [hpath, hpresent])
  · next hpath =>
    refine (hnew _).of_iff ?_
    simp only [false_iff]
    rintro ⟨header, ep, hfind, -⟩
    exact hpath header ep hfind

/-! ### Truncation -/

/-- Calls of `ext2_blkfree` keep to the rules. -/
theorem releasing_ends (bitmapOk : ℤ → Bool) (w : World) (r : Option Errno × World) :
    Ends (releasing fs bitmapOk w r).ops True := by
  have hops : (releasing fs bitmapOk w r).ops = freedOps fs bitmapOk w r.2 := rfl
  rw [hops, freedOps]
  induction r.2.freed.drop w.freed.length with
  | nil => exact Ends.nil
  | cons e rest ih =>
    rw [List.flatMap_cons]
    exact ((blkfreeOps_ends fs bitmapOk e.bno).append fun _ => ih).of_iff (by simp)

/-- The call of `ext2_balloc` in `ext2_truncate`, if there is one, keeps to the rules. -/
def TruncKeeps (env : TruncLockEnv) (sync : Bool) (length : ℤ) (w : World) : Prop :=
  0 ≤ length →
    ((w.ip.size : ℤ) < length → length ≤ fs.maxfilesize →
      MappedKeeps fs (ballocEnv env) sync (i32 (fs.lblkno (length.toNat - 1)))
        (fs.blkoff (length.toNat - 1) + 1) w) ∧
    (length < w.ip.size → fs.blkoff length.toNat ≠ 0 →
      MappedKeeps fs (ballocEnv env) sync (i32 (fs.lblkno length.toNat))
        (fs.blkoff length.toNat) w)

section

variable (env : TruncLockEnv) (sync : Bool)

theorem extended_ends (length : ℕ) (r : Option Errno × World) :
    Ends (extended fs env length r).ops True := by
  obtain ⟨e, w⟩ := r
  cases e with
  | some e => exact Ends.pure _
  | none => exact Ends.pure _

theorem fetched_ends (length : ℕ) (r : Option Errno × World) :
    Ends (fetched length r).ops True := by
  obtain ⟨e, w⟩ := r
  cases e with
  | some e => exact Ends.pure _
  | none => exact Ends.pure _

theorem released_ends (osize length : ℕ) (r : Option Errno × World) :
    Ends (released fs env osize length r).ops True := by
  obtain ⟨e, w⟩ := r
  cases e with
  | some e => exact Ends.pure _
  | none => exact releasing_ends fs _ _ _

theorem truncExtend_ends (length : ℕ) (w : World) :
    Ends (truncExtend fs env sync length w).ops
      (length ≤ fs.maxfilesize → MappedKeeps fs (ballocEnv env) sync
        (i32 (fs.lblkno (length - 1))) (fs.blkoff (length - 1) + 1) w) := by
  unfold truncExtend
  by_cases hmax : fs.maxfilesize < length
  · rw [if_pos hmax]
    exact (Ends.pure _).of_iff (by simp [not_le.2 hmax])
  · rw [if_neg hmax]
    refine ((ballocMapped_ends fs (ballocEnv env) sync _ _ w).bind fun _ =>
      extended_ends fs env length _).of_iff ?_
    simp [not_lt.1 hmax]

theorem truncPartial_ends (length : ℕ) (w : World) :
    Ends (truncPartial fs env sync length w).ops
      (fs.blkoff length ≠ 0 → MappedKeeps fs (ballocEnv env) sync (i32 (fs.lblkno length))
        (fs.blkoff length) w) := by
  unfold truncPartial
  by_cases hoff : fs.blkoff length = 0
  · rw [if_pos hoff]
    exact (Ends.pure _).of_iff (by simp [hoff])
  · rw [if_neg hoff]
    refine ((ballocMapped_ends fs (ballocEnv env) sync _ _ w).bind fun _ =>
      fetched_ends length _).of_iff ?_
    simp [hoff]

/-- **The block-mapped half of `ext2_truncate`** keeps to the rules exactly if its call of
`ext2_balloc` does. -/
theorem truncMapped_ends (length : ℤ) (w : World) :
    Ends (truncMapped fs env sync length w).ops (TruncKeeps fs env sync length w) := by
  unfold truncMapped TruncKeeps
  by_cases hneg : length < 0
  · rw [if_pos hneg]
    exact (Ends.pure _).of_iff (by simp [not_le.2 hneg])
  · rw [if_neg hneg]
    obtain ⟨n, rfl⟩ := Int.eq_ofNat_of_zero_le (not_lt.1 hneg)
    simp only [Int.toNat_natCast, Nat.cast_nonneg, true_implies, Nat.cast_lt, Nat.cast_le]
    rcases lt_trichotomy w.ip.size n with hlt | heq | hgt
    · rw [if_neg hlt.ne, if_pos hlt]
      exact (truncExtend_ends fs env sync n w).of_iff (by simp [hlt, hlt.asymm])
    · rw [if_pos heq]
      exact (Ends.pure _).of_iff (by simp [heq])
    · rw [if_neg hgt.ne', if_neg hgt.asymm]
      refine ((truncPartial_ends fs env sync n w).bind fun _ =>
        released_ends fs env w.ip.size n _).of_iff ?_
      simp [hgt, hgt.asymm]

end

end Locking

end Ext2fs
