import Ext2fs.ExtentPath
import Ext2fs.Truncate

/-!
# Extents: changing the tree

`ext2_ext_balloc` with the insertion below it, and `ext2_ext_truncate` with the removal.  A change to a
node goes through `World.setNode`: the words of the inode, or the buffer of a block, whose contents the
next reader sees.  As in the C, a slot is read and written wherever the pointer leads; a null pointer is
a panic.

Every exit of the two calls behind the search gives up the element with `ext4_ext_drop_refs`, and that
call does not come back (`PathCall.value_dropRefs`).  `ext2ExtBalloc` is what has been done and decided
when it is made.

* `ext4ExtInsertExtent` — a new extent: into the leaf, or by `growDepth0` and `splitLeaf`;
* `ext2ExtBalloc`, `ext2BallocExtents` — the extent half of `ext2_balloc`;
* `ext4ExtRmExtent`, `ext2ExtTruncate` — the way back.
-/

namespace Ext2fs

/-! ### Nodes -/

/-- `struct ext4_extent` -/
structure Ext4Extent where
  blk : ℕ
  len : ℕ
  startHi : ℕ
  startLo : ℕ
  deriving DecidableEq

namespace ExtNode

variable (n : ExtNode)

/-- The extent in a slot. -/
def entry (i : ℕ) : Ext4Extent := ⟨n.blk i, n.len i, n.startHi i, n.startLo i⟩

/-- A slot is written, word by word. -/
def putWords (i a b c : ℕ) : ExtNode := fun x =>
  if x = 3 * i then a else if x = 3 * i + 1 then b else if x = 3 * i + 2 then c else n x

/-- `ex[i] = e` -/
def put (i : ℕ) (e : Ext4Extent) : ExtNode :=
  n.putWords i e.blk (e.len + e.startHi * 2 ^ 16) e.startLo

/-- An index entry is written. -/
def putIndex (i blk leafLo leafHi unused : ℕ) : ExtNode :=
  n.putWords i blk leafLo (leafHi + unused * 2 ^ 16)

/-- `eh_magic`, `eh_ecount`, `eh_max` and `eh_depth` are written; `eh_gen` stays. -/
def setHeader (magic ecount max depth : ℕ) : ExtNode :=
  n.putWords 0 (magic + ecount * 2 ^ 16) (max + depth * 2 ^ 16) (n 2)

/-- `eh_ecount = ecount` -/
def setEcount (ecount : ℕ) : ExtNode := n.setHeader n.magic (ecount % 2 ^ 16) n.max n.depth

/-- A cleared buffer. -/
def zero : ExtNode := fun _ => 0

/-- `for (i = eh_ecount; i > ex - first; i--) ex[i] = ex[i - 1]` with `ex` in slot `s`.  For the header
the last round also fills slot 0 from before it, which the store that follows overwrites. -/
def shiftUp (s : ℕ) : ℕ → ExtNode → ExtNode
  | 0, n => n
  | i + 1, n => if s ≤ i + 1 then shiftUp s i (n.put (s + (i + 1)) (n.entry (s + i))) else n

/-- `for (i = 0; i < k; i++) ex[i] = ex[i + 1]` with `ex` in slot `s` -/
def shiftDown (s : ℕ) : ℕ → ExtNode → ExtNode
  | 0, n => n
  | i + 1, n => (shiftDown s i n).put (s + i) ((shiftDown s i n).entry (s + i + 1))

/-- The node without the entry in slot `s`: those behind it move down, the last slot is cleared, and
`eh_ecount` is one less. -/
def removed (s : ℕ) : ExtNode :=
  let k := n.ecount - s
  let n := (shiftDown s k n).put (s + k) ⟨0, 0, 0, 0⟩
  n.setEcount (n.ecount + (2 ^ 16 - 1))

/-- `for (i = 0; i < k; i++) to[i] = from[i]`, both from the first entry on, `from` starting behind
`off` entries -/
def copyFrom (src : ExtNode) (off : ℕ) : ℕ → ExtNode → ExtNode
  | 0, n => n
  | i + 1, n => (copyFrom src off i n).put (i + 1) (src.entry (off + i + 1))

section

variable {n : ExtNode} {i j a b c : ℕ} {e : Ext4Extent}

theorem putWords_zero : n.putWords i a b c (3 * j) = if j = i then a else n (3 * j) := by
  unfold putWords
  by_cases h : j = i
  · rw [if_pos h, if_pos (by rw [h])]
  · rw [if_neg h, if_neg (by omega), if_neg (by omega), if_neg (by omega)]

theorem putWords_one : n.putWords i a b c (3 * j + 1) = if j = i then b else n (3 * j + 1) := by
  unfold putWords
  by_cases h : j = i
  · rw [if_pos h, if_neg (by omega), if_pos (by rw [h])]
  · rw [if_neg h, if_neg (by omega), if_neg (by omega), if_neg (by omega)]

theorem putWords_two : n.putWords i a b c (3 * j + 2) = if j = i then c else n (3 * j + 2) := by
  unfold putWords
  by_cases h : j = i
  · rw [if_pos h, if_neg (by omega), if_neg (by omega), if_pos (by rw [h])]
  · rw [if_neg h, if_neg (by omega), if_neg (by omega), if_neg (by omega)]

@[simp] theorem blk_putWords : (n.putWords i a b c).blk j = if j = i then a else n.blk j :=
  putWords_zero

@[simp] theorem len_putWords :
    (n.putWords i a b c).len j = if j = i then b % 2 ^ 16 else n.len j := by
  rw [len, putWords_one]
  split <;> rfl

@[simp] theorem startHi_putWords :
    (n.putWords i a b c).startHi j = if j = i then b / 2 ^ 16 else n.startHi j := by
  rw [startHi, putWords_one]
  split <;> rfl

@[simp] theorem startLo_putWords :
    (n.putWords i a b c).startLo j = if j = i then c else n.startLo j :=
  putWords_two

@[simp] theorem leaf_putWords :
    (n.putWords i a b c).leaf j = if j = i then b + c % 2 ^ 16 * 2 ^ 32 else n.leaf j := by
  rw [leaf, putWords_one, putWords_two]
  split <;> rfl

/-- Two nodes have the same four fields in the header. -/
structure SameHeader (n m : ExtNode) : Prop where
  magic : n.magic = m.magic
  ecount : n.ecount = m.ecount
  max : n.max = m.max
  depth : n.depth = m.depth

theorem SameHeader.of_words {n m : ExtNode} (h0 : n 0 = m 0) (h1 : n 1 = m 1) : SameHeader n m := by
  constructor
  · unfold ExtNode.magic
    rw [h0]
  · unfold ExtNode.ecount
    rw [h0]
  · unfold ExtNode.max
    rw [h1]
  · unfold ExtNode.depth
    rw [h1]

theorem SameHeader.trans {n m o : ExtNode} (h : SameHeader n m) (h' : SameHeader m o) :
    SameHeader n o :=
  ⟨h.magic.trans h'.magic, h.ecount.trans h'.ecount, h.max.trans h'.max, h.depth.trans h'.depth⟩

/-- The header is slot 0. -/
theorem header_put (hi : 0 ≠ i) : SameHeader (n.put i e) n :=
  .of_words (putWords_zero.trans (if_neg hi)) (putWords_one.trans (if_neg hi))

/-- The four fields of a header that was written. -/
theorem header_setHeader {m e x d : ℕ} (hm : m < 2 ^ 16) (hx : x < 2 ^ 16) :
    (n.setHeader m e x d).magic = m ∧ (n.setHeader m e x d).ecount = e ∧
      (n.setHeader m e x d).max = x ∧ (n.setHeader m e x d).depth = d := by
  have h0 : n.setHeader m e x d 0 = m + e * 2 ^ 16 := rfl
  have h1 : n.setHeader m e x d 1 = x + d * 2 ^ 16 := rfl
  simp only [magic, ecount, max, depth, h0, h1]
  omega

theorem magic_lt (n : ExtNode) : n.magic < 2 ^ 16 := Nat.mod_lt _ (by decide)

theorem max_lt (n : ExtNode) : n.max < 2 ^ 16 := Nat.mod_lt _ (by decide)

/-- The four fields when `eh_ecount` was written. -/
theorem header_setEcount (k : ℕ) :
    (n.setEcount k).magic = n.magic ∧ (n.setEcount k).ecount = k % 2 ^ 16 ∧
      (n.setEcount k).max = n.max ∧ (n.setEcount k).depth = n.depth :=
  header_setHeader n.magic_lt n.max_lt

theorem len_lt (n : ExtNode) (i : ℕ) : n.len i < 2 ^ 16 := Nat.mod_lt _ (by decide)

/-- The entries behind the header do not see it written. -/
theorem entry_setHeader {m e x d : ℕ} (hj : j ≠ 0) : (n.setHeader m e x d).entry j = n.entry j := by
  simp [entry, setHeader, hj]

theorem entry_setEcount {k : ℕ} (hj : j ≠ 0) : (n.setEcount k).entry j = n.entry j :=
  entry_setHeader hj

theorem entry_put (he : e.len < 2 ^ 16) :
    (n.put i e).entry j = if j = i then e else n.entry j := by
  unfold entry put
  split
  · next h =>
    subst h
    simp only [blk_putWords, len_putWords, startHi_putWords, startLo_putWords, if_true]
    have hlen : (e.len + e.startHi * 2 ^ 16) % 2 ^ 16 = e.len := by omega
    have hhi : (e.len + e.startHi * 2 ^ 16) / 2 ^ 16 = e.startHi := by omega
    rw [hlen, hhi]
  · next h => simp [h]

theorem entry_len_lt (n : ExtNode) (i : ℕ) : (n.entry i).len < 2 ^ 16 := n.len_lt i

end

end ExtNode

namespace World

variable (fs : MExt2fs) (w : World)

/-- A node is written. -/
def setNode (ref : NodeRef) (n : ExtNode) : World :=
  match ref with
  | none => { w with ip := { w.ip with db := fun i => n i, ib := fun i => n (i + NDADDR) } }
  | some b => w.setBlk fs b n

/-- `i_blocks += blocks` -/
def addBlocks (blocks : ℕ) : World := { w with ip := { w.ip with blocks := w.ip.blocks + blocks } }

/-- `i_blocks -= blocks` -/
def subBlocks (blocks : ℕ) : World := { w with ip := { w.ip with blocks := w.ip.blocks - blocks } }

variable {fs w}

@[simp] theorem node_setNode (ref ref' : NodeRef) (n : ExtNode) :
    (w.setNode fs ref n).node fs ref' = if ref' = ref then n else w.node fs ref' := by
  cases ref with
  | none =>
    cases ref' with
    | none =>
      funext x
      simp only [if_true, setNode, node, Inode.slot]
      split
      · rfl
      · rw [Nat.sub_add_cancel (by omega)]
    | some b => rfl
  | some b =>
    cases ref' with
    | none => rfl
    | some b' =>
      simp only [setNode, node, setBlk, MExt2fs.fsbtodb_inj, Nat.cast_inj, Option.some.injEq]

@[simp] theorem node_setBlk (b : ℕ) (n : ExtNode) (ref : NodeRef) :
    (w.setBlk fs b n).node fs ref = if ref = some b then n else w.node fs ref :=
  node_setNode (some b) ref n

@[simp] theorem node_addBlocks (b : ℕ) : (w.addBlocks b).node fs = w.node fs := by
  funext ref
  cases ref <;> rfl

@[simp] theorem node_subBlocks (b : ℕ) : (w.subBlocks b).node fs = w.node fs := by
  funext ref
  cases ref <;> rfl

@[simp] theorem node_setSize (length : ℕ) : (w.setSize length).node fs = w.node fs := by
  funext ref
  cases ref <;> rfl

@[simp] theorem node_blkfree (ok : ℤ → Bool) (bno : ℤ) :
    (w.blkfree fs ok bno).node fs = w.node fs := by
  funext ref
  cases ref <;> simp [node]

@[simp] theorem setNode_freed (ref : NodeRef) (n : ExtNode) :
    (w.setNode fs ref n).freed = w.freed := by
  cases ref <;> rfl

@[simp] theorem node_mark : w.mark.node fs = w.node fs := by
  funext ref
  cases ref <;> rfl

end World

/-! ### The insertion -/

/-- What the rest of the kernel answers during one call of `ext4_ext_new_block`. -/
structure NewBlockEnv where
  /-- the block the allocator picks -/
  alloc : Option ℕ
  /-- `buf_getblk` -/
  getblk : Bool
  /-- the synchronous write of the cleared block -/
  write : Bool

/-- What the rest of the kernel answers during one call of `ext2_ext_balloc`. -/
structure ExtEnv where
  /-- the read of a device block -/
  read : ℤ → Bool
  /-- the read of the block bitmap in `ext2_blkfree` -/
  bitmapOk : ℤ → Bool
  /-- the block the allocator picks for the data -/
  dataAlloc : Option ℕ
  /-- the first new block of the tree -/
  old : NewBlockEnv
  /-- the second new block of the tree, or the only one of a split -/
  new : NewBlockEnv
  /-- `buf_getblk` of the first new block, to fill it -/
  oldGet : Bool
  /-- `buf_getblk` of the second new block, to fill it -/
  newGet : Bool
  /-- the write of the first new block, filled -/
  oldWrite : Bool
  /-- the write of the second new block, filled -/
  newWrite : Bool
  /-- the buffer of the data block -/
  dataGet : Bool

section Insert

variable (fs : MExt2fs)

/-- `ext4_ext_new_block`: a new zeroed metadata block, written. -/
def ext4ExtNewBlock (bitmapOk : ℤ → Bool) (env : NewBlockEnv) (w : World) :
    Except Errno ℕ × World :=
  match w.takeBlock fs 0 env.alloc with
  | none => (.error .enospc, w.lostBit fs env.alloc)
  | some (newp, w) =>
      if env.getblk = false then (.error .eio, w.blkfree fs bitmapOk newp)
      else if env.write = false then (.error .eio, w.blkfree fs bitmapOk newp)
      else (.ok newp, w.setBlk fs newp .zero)

/-- The first leaf `ext4_ext_grow_depth0` fills: the lower half of the full node. -/
def lowerHalf (ehp : ExtNode) : ExtNode :=
  (ExtNode.copyFrom ehp 0 (ehp.max / 2) .zero).setHeader EXT4_EXT_MAGIC (ehp.max / 2) ehp.max 0

/-- The second leaf it fills: the new extent. -/
def newLeaf (ehp : ExtNode) (newext : Ext4Extent) : ExtNode :=
  (ExtNode.zero.setHeader EXT4_EXT_MAGIC 1 ehp.max 0).put 1 newext

/-- The root it leaves: an index over the two leaves. -/
def grownRoot (root old new : ExtNode) (oldBlock newBlock : ℕ) : ExtNode :=
  ((root.setHeader EXT4_EXT_MAGIC 2 3 1).putIndex 1 (old.blk 1) (u32 oldBlock) 0 0).putIndex
    2 (new.blk 1) (u32 newBlock) 0 0

/-- `ext4_ext_grow_depth0`: a tree of depth 0 grows to depth 1. -/
def growDepth0 (env : ExtEnv) (path : ExtPath) (newext : Ext4Extent) (w : World) :
    Option Errno × World :=
  let ehp := w.node fs path.header
  match ext4ExtNewBlock fs env.bitmapOk env.old w with
  | (.error e, w) => (some e, w)
  | (.ok oldBlock, w) =>
      match ext4ExtNewBlock fs env.bitmapOk env.new w with
      | (.error e, w) => (some e, w.blkfree fs env.bitmapOk oldBlock)
      | (.ok newBlock, w) =>
          let free := fun w : World =>
            (w.blkfree fs env.bitmapOk oldBlock).blkfree fs env.bitmapOk newBlock
          if env.oldGet = false then (some .eio, free w)
          else if env.newGet = false then (some .eio, free w)
          else
            let old := lowerHalf ehp
            let new := newLeaf ehp newext
            let w := w.setNode fs none (grownRoot (w.node fs none) old new oldBlock newBlock)
            let w := (w.addBlocks (btodb fs.bsize * 2)).mark
            let fail := fun w : World => free (w.subBlocks (btodb fs.bsize * 2))
            if env.oldWrite = false then (some .eio, fail w)
            else
              let w := w.setBlk fs oldBlock old
              if env.newWrite = false then (some .eio, fail w)
              else (none, w.setBlk fs newBlock new)

/-- `for (i = eh_ecount; i > 0 && r[i - 1].e_blk > newext->e_blk; i--) r[i] = r[i - 1]`; the result is
the slot that is free then. -/
def shiftBehind (blk : ℕ) : ℕ → ExtNode → ℕ × ExtNode
  | 0, r => (1, r)
  | i + 1, r => if blk < r.blk (i + 1) then shiftBehind blk i (r.put (i + 2) (r.entry (i + 1)))
      else (i + 2, r)

/-- `for (i = k; i > 0; i--) l[i] = l[i - 1]` -/
def shiftAll : ℕ → ExtNode → ExtNode
  | 0, l => l
  | i + 1, l => shiftAll i (l.put (i + 2) (l.entry (i + 1)))

/-- `ext4_ext_split_leaf`: a full node is split, its upper half goes to a new block. -/
def splitLeaf (env : ExtEnv) (path : ExtPath) (newext : Ext4Extent) (newBlock : ℕ) (w : World) :
    Option Errno × World :=
  if env.newGet = false then (some .eio, w.blkfree fs env.bitmapOk newBlock)
  else
    let l := w.node fs path.header
    let nblks := l.max / 2
    let r := (ExtNode.copyFrom l nblks (l.max - nblks) .zero).setHeader EXT4_EXT_MAGIC
      (l.max - nblks) l.max l.depth
    let l := l.setEcount nblks
    let (l, r) :=
      if newext.blk < r.blk 1 then
        (((shiftAll nblks l).put 1 newext).setEcount (nblks + 1), r)
      else
        let (i, r') := shiftBehind newext.blk r.ecount r
        (l, (r'.put i newext).setEcount (r.ecount + 1))
    let w := ((w.setNode fs path.header l).addBlocks (btodb fs.bsize)).mark
    if env.newWrite = false then (some .eio, w) else (none, w.setBlk fs newBlock r)

/-- `ext4_ext_insert_extent` -/
def ext4ExtInsertExtent (env : ExtEnv) (path : ExtPath) (newext : Ext4Extent) (w : World) :
    Option Errno × World :=
  let ehp := w.node fs path.header
  if ehp.ecount < ehp.max then
    match path.ext with
    | none => (none, { w with panicked := true })
    | some ex =>
        let ehp := (ehp.shiftUp ex ehp.ecount).put ex newext
        let ehp := ehp.setEcount (ehp.ecount + 1)
        (none, ((w.setNode fs path.header ehp).addBlocks (btodb fs.bsize)).mark)
  else if ehp.depth = 0 then growDepth0 fs env path newext w
  else match ext4ExtNewBlock fs env.bitmapOk env.new w with
    | (.error e, w) => (some e, w)
    | (.ok newBlock, w) =>
        splitLeaf fs env path { newext with startLo := u32 newBlock } newBlock w

end Insert

/-! ### `ext2_ext_balloc` -/

/-- The buffer `ext2_ext_balloc` returns. -/
inductive ExtBuf where
  /-- contents read from a device block, zeros for a hole -/
  | read (dbn : Option ℤ)
  /-- contents not read, cleared if asked for -/
  | fresh (cleared : Bool)
  deriving DecidableEq

/-- `buf_meta_bread` through the vnode of the file: the buffer layer asks `ext4_bmapext` for the device
block. -/
def metaBread (fs : MExt2fs) (read : ℤ → Bool) (w : World) (lblkno : ℕ) :
    Except Errno (Option ℤ) :=
  match ext4Bmapext fs read w lblkno with
  | .error e => .error e
  | .ok bn => if bn < 0 then .ok none else if read bn then .ok (some bn) else .error .eio

/-- The extent `ext2_ext_balloc` makes for a new block. -/
def newExtent (lbn newb : ℕ) : Ext4Extent := ⟨u32 lbn, 1, 0, u32 newb⟩

/-- What `ext2_ext_balloc` does when it decides that the block has to be allocated.  A search that
failed leaves no path: its header is null, or in a buffer already released. -/
def extBallocNew (fs : MExt2fs) (env : ExtEnv) (clrbuf : Bool) (lbn : ℕ) (path : Option ExtPath)
    (w : World) : Except Errno ExtBuf × World :=
  match w.takeBlock fs lbn env.dataAlloc with
  | none => (.error .enospc, w.lostBit fs env.dataAlloc)
  | some (newb, w) =>
      match path with
      | none => (.error .eio, { w with panicked := true })
      | some path =>
          match ext4ExtInsertExtent fs env path (newExtent lbn newb) w with
          | (some e, w) => (.error e, w.blkfree fs env.bitmapOk newb)
          | (none, w) =>
              if env.dataGet = false then (.error .eio, w) else (.ok (.fresh clrbuf), w.mark)

/-- `ext2_ext_balloc` up to `ext4_ext_drop_refs`; `clrbuf` is `flags & BA_CLRBUF`. -/
def ext2ExtBalloc (fs : MExt2fs) (env : ExtEnv) (clrbuf : Bool) (lbn : ℕ) (w : World) :
    Except Errno ExtBuf × World :=
  let path := ext4ExtFindExtent fs env.read w lbn
  match path with
  | some ⟨header, some ep⟩ =>
      let n := w.node fs header
      let phys := u32 (n.startLo ep + u32 ((lbn : ℤ) - n.blk ep))
      if ExtNode.Covers n ep lbn ∧ phys ≠ 0 ∧ (lbn + 1) * fs.bsize ≤ w.ip.size then
        ((metaBread fs env.read w (fs.lblkno phys)).map ExtBuf.read, w)
      else extBallocNew fs env clrbuf lbn path w
  | _ => extBallocNew fs env clrbuf lbn path w

/-- `ext2_balloc` for an extent-mapped inode. -/
def ext2BallocExtents (fs : MExt2fs) (env : ExtEnv) (clrbuf : Bool) (lbn : ℤ) (w : World) :
    PathCall (Except Errno ExtBuf × World) :=
  if lbn < 0 then .returned (.error .efbig, w)
  else
    let r := ext2ExtBalloc fs env clrbuf lbn.toNat w
    .dropRefs (searchedPath fs env.read w lbn.toNat) r.2 r

/-! ### The removal -/

/-- `for (i = 0; i < k; i++) ext2_blkfree(ip, start + i)` -/
def freeRun (fs : MExt2fs) (bitmapOk : ℤ → Bool) (start : ℕ) : ℕ → World → World
  | 0, w => w
  | i + 1, w => (freeRun fs bitmapOk start i w).blkfree fs bitmapOk (u32 (start + i))

/-- What is left of an extent when `freeLen` of its blocks from `freeStart` on have been freed, but
not all of them. -/
def cutExtent (e : Ext4Extent) (freeStart freeLen : ℕ) : Ext4Extent :=
  if freeStart = e.startLo then
    { e with
      startLo := u32 (e.startLo + freeLen)
      blk := u32 (e.blk + freeLen)
      len := (e.len + (2 ^ 16 - freeLen % 2 ^ 16)) % 2 ^ 16 }
  else if u32 (freeStart + freeLen) = u32 (e.startLo + e.len) then
    { e with len := (e.len + (2 ^ 16 - freeLen % 2 ^ 16)) % 2 ^ 16 }
  else { e with len := u32 ((freeStart : ℤ) - e.startLo) % 2 ^ 16 }

/-- The node when `freeLen` blocks of the entry in slot `ex` from `freeStart` on have been freed. -/
def cutEntry (n : ExtNode) (ex freeStart freeLen : ℕ) : ExtNode :=
  if freeStart = n.startLo ex ∧ freeLen = n.len ex then n.removed ex
  else n.put ex (cutExtent (n.entry ex) freeStart freeLen)

/-- `free_start`: `lbn` is compared with the first byte of the extent. -/
def rmStart (fs : MExt2fs) (n : ExtNode) (ex lbn : ℕ) : ℕ :=
  if n.blk ex * fs.bsize < lbn then
    u32 (n.startLo ex + u32 ((fs.lblkno lbn : ℤ) - n.blk ex))
  else n.startLo ex

/-- `free_len` -/
def rmLen (fs : MExt2fs) (n : ExtNode) (ex lbn len : ℕ) : ℕ :=
  if n.blk ex * fs.bsize < lbn then
    min len (u32 ((n.len ex : ℤ) - u32 ((rmStart fs n ex lbn : ℤ) - n.startLo ex)))
  else min len (n.len ex)

/-- `ext4_ext_rm_extent`; `path.ep_depth` is 0 in every path the search returns. -/
def ext4ExtRmExtent (fs : MExt2fs) (bitmapOk : ℤ → Bool) (path : ExtPath) (lbn len : ℕ) (w : World) :
    Option Errno × World :=
  match path.ext with
  | none => (some .eio, w)
  | some ex =>
      let n := w.node fs path.header
      let freeStart := rmStart fs n ex lbn
      let freeLen := rmLen fs n ex lbn len
      let w := freeRun fs bitmapOk freeStart (i32 freeLen).toNat w
      let w := (w.subBlocks (btodb fs.bsize * freeLen)).mark
      (none, w.setNode fs path.header (cutEntry n ex freeStart freeLen))

/-- What the rest of the kernel answers during one call of `ext2_ext_truncate`. -/
structure ExtTruncEnv extends UpdateEnv where
  /-- the read of a device block -/
  read : ℤ → Bool
  /-- the read of the block bitmap in `ext2_blkfree` -/
  bitmapOk : ℤ → Bool
  /-- the result of `buf_invalidateblks` -/
  invalidate : Option Errno

/-- `ext2_ext_truncate`.  The size is set behind the call of `ext4_ext_drop_refs`. -/
def ext2ExtTruncate (fs : MExt2fs) (env : ExtTruncEnv) (length : ℕ) (w : World) :
    PathCall (Option Errno × World) :=
  if w.ip.size ≤ length then
    .returned (ext2Update fs env.toUpdateEnv false
      (if w.ip.size < length then (w.setSize length).mark else w))
  else
    let lbn := fs.lblkno length
    let len := u32 ((fs.blkoff length + fs.bsize - 1) / 2 ^ fs.bshift : ℕ)
    let len := if len = 0 then 1 else len
    let path := searchedPath fs env.read w lbn
    match ext4ExtFindExtent fs env.read w lbn with
    | some ⟨header, some ex⟩ =>
        match ext4ExtRmExtent fs env.bitmapOk ⟨header, some ex⟩ lbn len w with
        | (some e, w) => .dropRefs path w (some e, w)
        | (none, w) => .dropRefs path w (env.invalidate, (w.setSize length).mark)
    | _ => .dropRefs path w (none, w)

end Ext2fs
