import Ext2fs.Fsck.DinodeAt
import Ext2fs.Fsck.DirScan

/-!
# Pass 2: the entries of the directories

`pass2` hands every record of every directory to `pass2check`, which counts the entries: the first is
to be `.`, the second `..`, and room for the two is made in the records that stand there.  Afterwards the
parents of all directories are known, and a second loop puts `..` right.

* `checkDot`, `checkDotdot`, `checkEntry` — `pass2check`, up to the labels `chk1` and `chk2`;
* `mkentry`, `chgino`, `makeentry`, `changeino` — an entry is made, or changed;
* `checkDir`, `fixDotdot`, `pass2` — the two loops.

The first loop walks over the blocks that pass 1 has noted; what else is read or written of an inode is
where `ginode` points, which need not be its slot.  The root inode has been put in order before, no
directory has a hole, and all questions are answered yes.
-/

namespace Ext2fs.Fsck

open Bytes Splice

/-- A value in a variable of the type `int16_t`. -/
def i16 (x : ℤ) : ℤ := Int.bmod x (2 ^ 16)

/-- The count of an entry, and what is known of the inodes. -/
structure Chk where
  /-- `id_entryno` -/
  entryno : ℕ
  i_parent : ℕ → ℕ
  i_dotdot : ℕ → ℤ
  lncntp : ℕ → ℤ

/-- `lncntp[i]--` -/
def Chk.uncount (i : ℕ) (st : Chk) : Chk :=
  { st with lncntp := Function.update st.lncntp i (i16 (st.lncntp i - 1)) }

/-- `id_entryno++` -/
def Chk.next (st : Chk) : Chk := { st with entryno := st.entryno + 1 }

/-- `i_dotdot` of a directory. -/
def Chk.setDotdot (d : ℕ) (i : ℤ) (st : Chk) : Chk := { st with i_dotdot := Function.update st.i_dotdot d i }

/-- `i_parent` of a directory. -/
def Chk.setParent (d i : ℕ) (st : Chk) : Chk := { st with i_parent := Function.update st.i_parent d i }

/-- `dbuf` while `pass2check` works in it: the records that it has done with, the one that `dirp` points
to, and `ALTERED`. -/
structure Cursor where
  done : List DirRec
  dirp : DirRec
  altered : Bool
  st : Chk

/-- All records of `dbuf`. -/
def Cursor.recs (c : Cursor) : List DirRec := c.done ++ [c.dirp]

/-- A change of the record that is written. -/
def Cursor.alter (dirp : DirRec) (c : Cursor) : Cursor := { c with dirp := dirp, altered := true }

/-- The record keeps its first `n` bytes, and the rest becomes an unused record. -/
def Cursor.splitOff (n : ℕ) (c : Cursor) : Cursor where
  done := c.done ++ [{ c.dirp with e2d_reclen := n }]
  dirp := unusedRec (c.dirp.e2d_reclen - n)
  altered := c.altered
  st := c.st.next.uncount c.dirp.e2d_ino

variable (E : DirEnv) (number : ℕ)

/-- The `proto` of the two entries. -/
def protoRec (ino reclen : ℕ) (name : List UInt8) : DirRec :=
  ⟨ino, reclen, if E.ftype then EXT2_FT_DIR else 0, name, [0]⟩

/-- The type of the record is to be `t`. -/
def checkType (t : ℕ) (c : Cursor) : Cursor :=
  if E.ftype ∧ c.dirp.e2d_type ≠ t then c.alter { c.dirp with e2d_type := t } else c

/-- The check for `.`, of the record that is counted 0. -/
def checkDot (c : Cursor) : Cursor :=
  let dirp := c.dirp
  if dirp.e2d_ino ≠ 0 ∧ dirp.e2d_name = dotName then
    checkType E EXT2_FT_DIR (if dirp.e2d_ino ≠ number then c.alter { dirp with e2d_ino := number } else c)
  -- `strcmp(dirp->e2d_name, "..") != 0`: the name need not end with a zero byte
  else if dirp.e2d_ino ≠ 0 ∧ dirp.raw.take 3 ≠ [46, 46, 0] then c
  else if dirp.e2d_reclen < dirRecLen 1 then c
  else if dirp.e2d_reclen < 2 * dirRecLen 1 then c.alter (protoRec E number dirp.e2d_reclen dotName)
  else (c.alter (protoRec E number dirp.e2d_reclen dotName)).splitOff (dirRecLen 1)

/-- The entry is taken out. -/
def Cursor.remove (c : Cursor) : Cursor := c.alter { c.dirp with e2d_ino := 0 }

/-- The check of an entry, from `chk2` on. -/
def checkEntry (c : Cursor) : Cursor :=
  let dirp := c.dirp
  let ino := dirp.e2d_ino
  if ino = 0 then c
  else if dirp.namlen ≤ 2 ∧ dirp.raw[0]? = some 46 ∧ 2 ≤ c.st.entryno ∧
      (dirp.namlen = 1 ∨ dirp.raw[1]? = some 46) then c.remove
  else
    let c := { c with st := c.st.next }
    if E.v.maxino < ino ∨ (ino < FIRSTINO ∧ ino ≠ ROOTINO) then c.remove
    else
      match E.statemap ino with
      | .ustate | .dclear | .fclear => if c.st.entryno ≤ 2 then c else c.remove
      | .dstate | .dfound =>
        if c.st.i_parent ino ≠ 0 ∧ 2 < c.st.entryno then c.remove
        else
          let st := if 2 < c.st.entryno then c.st.setParent ino number else c.st
          checkType E (E.inoType ino) { c with st := st.uncount ino }
      | .fstate => checkType E (E.inoType ino) { c with st := c.st.uncount ino }

/-- The record is counted, and its inode if it is in use. -/
def Cursor.count (c : Cursor) : Cursor :=
  { c with st := if c.dirp.e2d_ino ≠ 0 then c.st.next.uncount c.dirp.e2d_ino else c.st.next }

/-- `MISSING '..'`: the record cannot become `..`, or it does if the parent is known. -/
def missingDotdot (c : Cursor) : Cursor :=
  let dirp := c.dirp
  let parent := c.st.i_parent number
  if dirp.e2d_ino ≠ 0 ∧ dirp.namlen = 1 ∧ dirp.raw[0]? ≠ some 46 then
    { c with st := c.st.setDotdot number (-1) }
  else if dirp.e2d_reclen < dirRecLen 2 then { c with st := c.st.setDotdot number (-1) }
  else if parent ≠ 0 then
    { c with st := c.st.setDotdot number parent }.alter (protoRec E parent dirp.e2d_reclen dotdotName)
  else c

/-- The check for `..`, of the record that is counted 1. -/
def checkDotdot (c : Cursor) : Cursor :=
  let dirp := c.dirp
  if dirp.e2d_ino ≠ 0 ∧ dirp.e2d_name = dotdotName then
    checkEntry E number
      (checkType E EXT2_FT_DIR { c with st := c.st.setDotdot number dirp.e2d_ino })
  else (missingDotdot E number c).count

/-- `pass2check` from `chk1` on. -/
def checkSecond (c : Cursor) : Cursor :=
  if 1 < c.st.entryno then checkEntry E number c
  else if c.st.entryno = 0 then
    if c.dirp.e2d_reclen < dirRecLen c.dirp.namlen + dirRecLen 2 then checkEntry E number c
    else checkDotdot E number (c.splitOff (dirRecLen c.dirp.namlen))
  else checkDotdot E number c

/-- `dbuf` at the end of `pass2check`. -/
def checked (dirp : DirRec) (st : Chk) : Cursor :=
  let c : Cursor := ⟨[], dirp, false, st⟩
  checkSecond E number (if st.entryno = 0 then checkDot E number c else c)

/-- `pass2check` of the records of a directory. -/
def pass2check (dirp : DirRec) (st : Chk) : Reply Chk :=
  let c := checked E number dirp st
  ⟨c.recs, c.altered, false, c.st⟩

/-! ### The two loops -/

/-- What `pass2` works on. -/
structure Pass2State where
  /-- the records in a block -/
  blocks : ℕ → List DirRec
  i_parent : ℕ → ℕ
  i_dotdot : ℕ → ℤ
  lncntp : ℕ → ℤ
  i_isize : ℕ → ℕ
  /-- the blocks that `ckinode` comes to in a directory with the pointers that pass 1 has noted, in order -/
  blks : ℕ → List ℕ
  /-- the bytes of the inodes -/
  itab : Mem

/-- `sizeof (struct ext2fs_dirtemplate)` -/
def MINDIRSIZE : ℕ := 24

/-- `inossize` of a directory. -/
def inossize (size old : ℕ) : ℕ := if 2 ^ 31 ≤ size then old else size

/-- `inossize` of the inode at a place. -/
def inossizeAt (p size : ℕ) (m : Mem) : Mem :=
  if (dinodeAt m p).fmt = IFREG then
    let m := put 4 m (p + 108) (size / 2 ^ 32)
    if 2 ^ 31 ≤ size ∧ E.large = false then m else setSize m p size
  else if 2 ^ 31 ≤ size then m
  else setSize m p size

/-- The size to which `pass2` brings a directory. -/
def fixedSize (isize : ℕ) : ℕ :=
  if isize < MINDIRSIZE then roundupBsize E MINDIRSIZE
  else if isize % E.v.bsize ≠ 0 then roundupBsize E isize
  else isize

/-- The first loop, for one directory. -/
def checkDir (s : Pass2State) : Pass2State :=
  if s.i_isize number = 0 then s
  else
    let isize := fixedSize E (s.i_isize number)
    let itab := if isize = s.i_isize number then s.itab else inossizeAt E (E.ginode number) isize s.itab
    let r := scanBlocks E (pass2check E number) (s.blks number) (inossize isize 0) s.blocks
      ⟨0, s.i_parent, s.i_dotdot, s.lncntp⟩
    { s with
      blocks := r.2.1
      i_parent := r.2.2.i_parent
      i_dotdot := r.2.2.i_dotdot
      lncntp := r.2.2.lncntp
      i_isize := Function.update s.i_isize number isize
      itab := itab }

/-- `mkentry`: the entry is put behind the name that stands in the record. -/
def mkentry (ino : ℕ) (name : List UInt8) (dirp : DirRec) (st : Unit) : Reply Unit :=
  let oldlen := if dirp.e2d_ino ≠ 0 then dirRecLen dirp.namlen else 0
  if (dirp.e2d_reclen : ℤ) - oldlen < dirRecLen name.length then ⟨[dirp], false, false, st⟩
  else
    let new : DirRec := ⟨ino, dirp.e2d_reclen - oldlen, if E.ftype then E.inoType ino else 0, name, []⟩
    ⟨if oldlen = 0 then [new] else [{ dirp with e2d_reclen := oldlen }, new], true, true, st⟩

/-- `chgino`: the entry with the name gets another inode. -/
def chgino (ino : ℕ) (name : List UInt8) (dirp : DirRec) (st : Unit) : Reply Unit :=
  if dirp.e2d_name ≠ name then ⟨[dirp], false, false, st⟩
  else ⟨[{ dirp with e2d_ino := ino, e2d_type := if E.ftype then E.inoType ino else 0 }], true, true, st⟩

/-- `ckinode` of the inode that `ginode` returns for a directory, with one of these two; true if it has
changed a record. -/
def editDir (f : DirRec → Unit → Reply Unit) (dir : ℕ) (s : Pass2State) : Bool × Pass2State :=
  let dp := dinodeAt s.itab (E.ginode dir)
  if dp.blockless then (false, s)
  else
    let r := scanBlocks E f (E.tree (dp.direct ++ dp.indirect) (blocksFor dp.inosize E.v.bsize)) dp.inosize
      s.blocks ()
    (r.1, { s with blocks := r.2.1 })

/-- `expanddir`, where `allocblk` gives the block `newblk`: the block whose pointer stands behind the end
of the directory moves on. -/
def expanddir (newblk dir : ℕ) (s : Pass2State) : Option Pass2State :=
  let p := E.ginode dir
  let dp := dinodeAt s.itab p
  let lastbn := dp.inosize / E.v.bsize
  let old := dp.direct.getD lastbn 0
  if 11 ≤ lastbn ∨ old = 0 ∨ dp.inosize = 0 then none
  else if newblk = 0 then none
  else some { s with
    blocks := Function.update (Function.update s.blocks newblk (s.blocks old)) old [unusedRec E.v.bsize]
    itab := setNblock (inossizeAt E p (dp.inosize + E.v.bsize)
      (setBlock (setBlock s.itab p (lastbn + 1) old) p lastbn newblk)) p (dp.e2di_nblock + 1) }

/-- `makeentry` -/
def makeentry (newblk dir ino : ℕ) (name : List UInt8) (s : Pass2State) : Bool × Pass2State :=
  if (dir < FIRSTINO ∧ dir ≠ ROOTINO) ∨ E.v.maxino ≤ dir ∨ (ino < FIRSTINO ∧ ino < ROOTINO) ∨
      E.v.maxino ≤ ino then (false, s)
  else
    let p := E.ginode dir
    let size := (dinodeAt s.itab p).inosize
    let s := if size % E.v.bsize ≠ 0 then
        { s with itab := inossizeAt E p (roundupBsize E size) s.itab }
      else s
    let r := editDir E (mkentry E ino name) dir s
    if r.1 then r
    else
      match expanddir E newblk dir r.2 with
      | none => (false, r.2)
      | some s => editDir E (mkentry E ino name) dir s

/-- `changeino` -/
def changeino (dir ino : ℕ) (name : List UInt8) (s : Pass2State) : Bool × Pass2State :=
  editDir E (chgino E ino name) dir s

/-- The second loop, for one directory; `newblk` is the block that `allocblk` would give. -/
def fixDotdot (newblk : ℕ) (s : Pass2State) : Pass2State :=
  let parent := s.i_parent number
  let dotdot := s.i_dotdot number
  if parent = 0 ∨ s.i_isize number = 0 then s
  else if dotdot = parent ∨ dotdot = -1 then s
  else
    let s := { s with i_dotdot := Function.update s.i_dotdot number (parent : ℤ) }
    if dotdot = 0 then
      let s := (makeentry E newblk number parent dotdotName s).2
      { s with lncntp := Function.update s.lncntp parent (i16 (s.lncntp parent - 1)) }
    else
      let more := Function.update s.lncntp dotdot.toNat (i16 (s.lncntp dotdot.toNat + 1))
      (changeino E number parent dotdotName
        { s with lncntp := Function.update more parent (i16 (more parent - 1)) }).2

/-- The first loop. -/
def scanDirs (ds : List ℕ) (s : Pass2State) : Pass2State := ds.foldl (fun s d => checkDir E d s) s

/-- The second loop; `alloc` gives the blocks that `allocblk` finds, by directory. -/
def fixDotdots (alloc : ℕ → ℕ) (ds : List ℕ) (s : Pass2State) : Pass2State :=
  ds.foldl (fun s d => fixDotdot E d (alloc d) s) s

/-- `pass2`, from the sorting of the directories to the second loop. -/
def pass2 (alloc : ℕ → ℕ) (s : Pass2State) : Pass2State :=
  fixDotdots E alloc E.inpsort (scanDirs E E.inpsort s)

end Ext2fs.Fsck
