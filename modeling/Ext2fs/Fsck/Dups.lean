import Ext2fs.Fsck.Ckinode
import Ext2fs.Fsck.Propagate
import Ext2fs.Lib.DupList

/-!
# Blocks that are claimed more than once

`pass1` claims the blocks of every inode, and keeps in `duplist` the claims on blocks that are taken.
`pass1b` walks over the inodes again to find who claimed them first.  `pass4` takes the claims of the
inodes it clears back, one by one.

* `pass1check`, `checkinode`, `pass1` — claiming;
* `pass1bcheck`, `pass1b` — the second walk;
* `pass4check`, `clri` — taking back;
* `DupsRight` — what the three make of the claims, when it is right.

An inode is read anew for each walk: `getnextinode` reads it for the first one, `ginode` for the others.
The question about a partially truncated inode is answered with no, the one about holding a bad block too.
-/

namespace Ext2fs.Fsck

/-- `MAXDUP` and `MAXBAD` -/
def MAXDUP : ℕ := 10
def MAXBAD : ℕ := 10

/-- The inodes as the walks read them. -/
structure Readings where
  /-- in `pass1`, by `getnextinode` -/
  next : ℕ → Dinode
  /-- in `pass1b`, by `ginode` -/
  again : ℕ → Dinode
  /-- in `clri`, by `ginode` -/
  last : ℕ → Dinode

/-- The answers of the operator, by inode. -/
structure Replies where
  /-- to `CLEAR`, for an inode of unknown type -/
  clear : ℕ → Bool
  /-- to `CORRECT`, for a wrong block count -/
  correct : ℕ → Bool

/-- The variables of the passes. -/
structure Blocks where
  blockmap : ℕ → Bool
  n_blks : ℤ
  /-- `duplist`, with `muldup` as its boundary -/
  dups : DupList ℕ
  statemap : ℕ → InoState
  badblk : ℕ
  dupblk : ℕ
  id_entryno : ℕ
  /-- `e2di_nblock`, by inode -/
  nblock : ℕ → ℕ

/-! ### The blocks of the file system itself -/

namespace Layout

variable (v : Layout)

/-- The first block of a group. -/
def dbase (c : ℕ) : ℕ := u32 (c * v.bpg + v.first_dblock : ℕ)

/-- The copies of the superblock and of the descriptors in a group, and what is before the first. -/
def copies (c : ℕ) : List ℕ :=
  (if v.sparse = false ∨ cgHasSb c then (List.range (v.gdbcount + 1)).map (v.dbase c + ·) else []) ++
    if c = 0 then List.range (v.dbase c) else []

/-- The blocks that `pass1` marks for a group. -/
def groupMarks (c : ℕ) : List ℕ :=
  (if v.dbase c ≤ v.tables c then (List.range v.itpg).map (v.tables c + ·) else []) ++
    ((if v.dbase c ≤ v.b_bitmap c then [v.b_bitmap c] else []) ++
      ((if v.dbase c ≤ v.i_bitmap c then [v.i_bitmap c] else []) ++ v.copies c))

/-- The blocks that belong to a group: its inode table, its bitmaps and the copies. -/
def groupBlocks (c : ℕ) : List ℕ :=
  (List.range v.itpg).map (v.tables c + ·) ++ ([v.b_bitmap c] ++ ([v.i_bitmap c] ++ v.copies c))

/-- The blocks that `pass1` marks before it looks at the inodes. -/
def marks : List ℕ := (List.range v.gcount).flatMap v.groupMarks

/-- The blocks of the file system itself. -/
def metadata : List ℕ := (List.range v.gcount).flatMap v.groupBlocks

/-- The inodes of the volume, the reserved ones but the root left out. -/
def inodes : List ℕ :=
  (List.range' 1 (v.gcount * v.ipg)).filter fun i => i = ROOTINO ∨ FIRSTINO ≤ i

/-- The inodes that `pass1b` looks at: it counts from zero. -/
def rescanned : List ℕ :=
  (List.range (v.gcount * v.ipg)).filter fun i => i = ROOTINO ∨ FIRSTINO ≤ i

end Layout

/-! ### The first walk -/

/-- `blkerror`; the states it does not know end the program. -/
def blkerror (i : ℕ) (statemap : ℕ → InoState) : ℕ → InoState :=
  Function.update statemap i <| match statemap i with
    | .fstate => .fclear
    | .dstate => .dclear
    | s => s

section

variable (v : Layout)

/-- `pass1check` -/
def pass1check (i b : ℕ) (st : Blocks) : Ret × Blocks :=
  if v.chkrange b 1 then
    let st := { st with statemap := blkerror i st.statemap }
    if MAXBAD ≤ st.badblk then (.stop, { st with badblk := st.badblk + 1 })
    else (.skip, { st with badblk := st.badblk + 1, id_entryno := st.id_entryno + 1 })
  else if st.blockmap b = false then
    (.keepon, { st with
      n_blks := st.n_blks + 1
      blockmap := Function.update st.blockmap b true
      id_entryno := st.id_entryno + 1 })
  else
    let st := { st with statemap := blkerror i st.statemap }
    if MAXDUP ≤ st.dupblk then (.stop, { st with dupblk := st.dupblk + 1 })
    else (.keepon, { st with
      dupblk := st.dupblk + 1
      dups := st.dups.insert b
      id_entryno := st.id_entryno + 1 })

/-- An inode that is not allocated. -/
def Dinode.unallocated (dp : Dinode) : Prop :=
  dp.fmt = 0 ∨ dp.e2di_dtime ≠ 0 ∧ dp.e2di_nlink = 0

instance (dp : Dinode) : Decidable dp.unallocated := inferInstanceAs (Decidable (_ ∨ _))

/-- `ftypeok` -/
def ftypeok (dp : Dinode) : Bool :=
  dp.fmt ∈ [IFDIR, IFREG, IFBLK, IFCHR, IFLNK, IFSOCK, IFIFO]

/-- `ndb` at the checks of the pointers. -/
def Layout.ndb (dp : Dinode) : ℤ :=
  if dp.fmt = IFLNK ∧ dp.inosize < MAXSYMLINKLEN then
    let ndb := blocksFor dp.inosize 4
    if NDADDR < ndb then (v.nindir ^ (ndb - NDADDR - 1) + NDADDR : ℕ) else ndb
  else if dp.fmt = IFBLK ∨ dp.fmt = IFCHR then i32 (blocksFor dp.inosize v.bsize : ℕ) + 1
  else i32 (blocksFor dp.inosize v.bsize : ℕ)

/-- How often `ndb` can be divided, for at most `n` rounds. -/
def levelsFor (nindir : ℕ) : ℕ → ℤ → ℕ
  | 0, _ => 0
  | n + 1, ndb => if 0 < ndb then levelsFor nindir n (ndb / nindir) + 1 else 0

/-- An inode passes the tests of `checkinode`; an `int` is divided away in 31 rounds. -/
def Layout.typeOk (dp : Dinode) : Bool :=
  !decide ((dp.inosize + v.bsize - 1) % 2 ^ 64 < dp.inosize) &&
  decide (0 ≤ i32 (blocksFor dp.inosize v.bsize : ℕ)) &&
  (decide (dp.fmt = IFIFO) ||
    (dp.direct.drop (v.ndb dp).toNat).all (· == 0) &&
    (dp.indirect.drop (levelsFor v.nindir 31 (v.ndb dp - NDADDR))).all (· == 0)) &&
  ftypeok dp

/-- The state that an inode gets before its blocks are looked at. -/
def Layout.initState (a : Replies) (i : ℕ) (dp : Dinode) : InoState :=
  if dp.unallocated then .ustate
  else if v.typeOk dp = false then if a.clear i then .ustate else .fclear
  else if dp.fmt = IFDIR then if dp.inosize = 0 then .dclear else .dstate
  else .fstate

/-- `checkinode` -/
def checkinode (a : Replies) (i : ℕ) (dp : Dinode) (st : Blocks) : Blocks :=
  let st := { st with statemap := Function.update st.statemap i (v.initState a i dp) }
  if dp.unallocated ∨ v.typeOk dp = false then st
  else
    let st := (ckinode v (pass1check v i) dp { st with badblk := 0, dupblk := 0, id_entryno := 0 }).2
    let st := { st with id_entryno := st.id_entryno * btodb v.bsize }
    if st.nblock i ≠ st.id_entryno ∧ a.correct i = true then
      { st with nblock := Function.update st.nblock i st.id_entryno }
    else st

/-- What `pass1` has when it comes to the inodes. -/
def Layout.start (d : Readings) : Blocks where
  blockmap b := b ∈ v.marks
  n_blks := 0
  dups := ⟨[], []⟩
  statemap _ := .ustate
  badblk := 0
  dupblk := 0
  id_entryno := 0
  nblock i := (d.next i).e2di_nblock

/-- `pass1` -/
def pass1 (d : Readings) (a : Replies) : Blocks :=
  v.inodes.foldl (fun st i => checkinode v a i (d.next i) st) (v.start d)

/-! ### The second walk -/

/-- The list of duplicates between `pass1` and `pass4`: the places before `duphead`, and those from
there up to `muldup`. -/
structure Rescan where
  passed : List ℕ
  unpassed : List ℕ
  statemap : ℕ → InoState

/-- `pass1bcheck` -/
def pass1bcheck (i b : ℕ) (st : Rescan) : Ret × Rescan :=
  let r := DupList.seek b [] st.unpassed
  let st' : Rescan :=
    { passed := st.passed ++ List.replicate r.2 b
      unpassed := r.1
      statemap := if r.2 = 0 then st.statemap else blkerror i st.statemap }
  (if st'.unpassed = [] then .stop else if v.chkrange b 1 then .skip else .keepon, st')

/-- The loop of `pass1b`. -/
def rescan (dp : ℕ → Dinode) : List ℕ → Rescan → Rescan
  | [], st => st
  | i :: is, st =>
    if st.statemap i = .ustate then rescan dp is st
    else
      let r := ckinode v (pass1bcheck v i) (dp i) st
      if r.1 = .stop then r.2 else rescan dp is r.2

/-- `pass1b`, which is called when there are duplicates. -/
def pass1b (d : Readings) (st : Blocks) : Blocks :=
  if st.dups.first = [] then st
  else
    let r := rescan v d.again v.rescanned ⟨[], st.dups.first, st.statemap⟩
    { st with dups := ⟨r.passed ++ r.unpassed, st.dups.second⟩, statemap := r.statemap }

/-! ### Taking claims back -/

/-- `pass4check`; the boundary of the list is not looked at any more. -/
def pass4check (b : ℕ) (st : Blocks) : Ret × Blocks :=
  if v.chkrange b 1 then (.skip, st)
  else if st.blockmap b then
    if b ∈ st.dups.all then (.keepon, { st with dups := ⟨DupList.take b st.dups.all, []⟩ })
    else (.keepon, { st with
      blockmap := Function.update st.blockmap b false
      n_blks := st.n_blks - 1 })
  else (.keepon, st)

/-- `clri` -/
def clri (d : Readings) (st : Blocks) (i : ℕ) : Blocks :=
  let st := (ckinode v (fun b => pass4check v b) (d.last i) st).2
  { st with statemap := Function.update st.statemap i .ustate }

/-- `pass4` clears some inodes. -/
def clearAll (d : Readings) (is : List ℕ) (st : Blocks) : Blocks := is.foldl (clri v d) st

/-! ### What is right -/

/-- The states that calls of `pass1check` lead to, with the duplicates found so far; between the calls
the map and the list stay as they are. -/
inductive Pass1Reach (d : Readings) : List ℕ → Blocks → Prop where
  | start : Pass1Reach d [] (v.start d)
  | other {found st st'} : Pass1Reach d found st → st'.blockmap = st.blockmap → st'.dups = st.dups →
      Pass1Reach d found st'
  | check {found st} (i b : ℕ) : Pass1Reach d found st → Pass1Reach d
      (if v.inRange b = true ∧ st.blockmap b = true ∧ st.dupblk < MAXDUP then b :: found else found)
      (pass1check v i b st).2

variable (d : Readings) (a : Replies)

/-- The inodes that are there after `pass1`, whether walked or not. -/
def Layout.used : List ℕ := v.inodes.filter fun i => v.initState a i (d.next i) ≠ .ustate

/-- The blocks that an inode references. -/
def Layout.refs (i : ℕ) : List ℕ := (blockRefs v (d.next i)).filter v.inRange

/-- The blocks that are taken back when an inode is cleared. -/
def Layout.dropped (i : ℕ) : List ℕ := (blockRefs v (d.last i)).filter v.inRange

/-- How often a block is claimed: by the file system itself, and by the inodes. -/
def Layout.multiplicity (b : ℕ) : ℕ :=
  (if b ∈ v.metadata then 1 else 0) + ((v.used d a).flatMap (v.refs d)).count b

/-- The claims are kept right. -/
structure DupsRight : Prop where
  twoPart : ∀ found st, Pass1Reach v d found st → DupList.TwoPart found st.dups
  marked : ∀ i ∈ v.used d a, (∃ b ∈ v.refs d i, 2 ≤ v.multiplicity d a b) →
    (pass1b v d (pass1 v d a)).statemap i = .fclear ∨ (pass1b v d (pass1 v d a)).statemap i = .dclear
  blockmap : ∀ is, is.Nodup → is ⊆ v.used d a → ∀ b,
    (clearAll v d is (pass1b v d (pass1 v d a))).blockmap b = true ↔
      b ∈ v.metadata ∨ ∃ i ∈ v.used d a, i ∉ is ∧ b ∈ v.refs d i
  n_blks : ∀ is, is.Nodup → is ⊆ v.used d a →
    (clearAll v d is (pass1b v d (pass1 v d a))).n_blks =
      Set.ncard {b | (clearAll v d is (pass1b v d (pass1 v d a))).blockmap b = true ∧ b ∉ v.metadata}

end

end Ext2fs.Fsck
