import Ext2fs.CheckPath
import Ext2fs.DirEmpty
import Ext2fs.Lib.References

/-!
# The vnops that change names

`ext2_create`, `ext2_mknod`, `ext2_symlink`, `ext2_link`, `ext2_remove`, `ext2_mkdir`, `ext2_rmdir`,
`ext2_rename` and `ext2_inactive`, on one state: the inodes with their link counts, the inodes in use, and
the live records of every directory, `.` and `..` among them.

* `NameSys` — the state;
* `NameSys.links` — how many records of directories name an inode, which is what the count should be;
* `SameInodes`, `rename_inode` — the inodes and the result of a rename are those of `ext2Rename`, which
  counts the vnodes too.

What the functions below the vnops return is an answer that comes with the call: an error, and for a
function that changes a directory the live records that it leaves, whatever they are.  What these are for a
directory of bytes is the subject of `DirEdit` and `DirRuns`; the counts over runs are that of `NameRuns`.
-/

namespace Ext2fs

open References

/-- What a function that changes a directory returns, and the live records that it leaves. -/
structure DirAnswer where
  error : Option Errno
  recs : List Dirent

/-- The inodes, and the directories as lists of live records. -/
structure NameSys where
  inode : ℕ → RenameInode
  /-- marked in the bitmap of inodes, with a mode -/
  used : ℕ → Bool
  /-- the directories that have been made and not removed -/
  dirs : Finset ℕ
  recs : ℕ → List Dirent

namespace NameSys

/-- The inodes that the records of a directory name. -/
def refs (s : NameSys) (d : ℕ) : Multiset ℕ := ↑((s.recs d).map Dirent.ino)

/-- How many records name an inode. -/
def links (s : NameSys) (i : ℕ) : ℕ := names s.dirs s.refs i

/-- An inode changes. -/
def modify (s : NameSys) (i : ℕ) (f : RenameInode → RenameInode) : NameSys :=
  { s with inode := fun w => if w = i then f (s.inode i) else s.inode w }

/-- `i_nlink += d` -/
def addLinks (s : NameSys) (i : ℕ) (d : BitVec 16) : NameSys := s.modify i fun ip => { ip with nlink := ip.nlink + d }

/-- `IN_RENAME` set or cleared. -/
def mark (s : NameSys) (i : ℕ) (on : Bool) : NameSys := s.modify i fun ip => { ip with inRename := on }

/-- The live records of a directory change. -/
def setRecs (s : NameSys) (d : ℕ) (l : List Dirent) : NameSys := { s with recs := Function.update s.recs d l }

/-- What `ext2_valloc` finds is put to use. -/
def alloc (s : NameSys) (i : ℕ) (ip : RenameInode) : NameSys :=
  { s with used := Function.update s.used i true, inode := fun w => if w = i then ip else s.inode w }

/-- A directory is removed, or a new one is in its place. -/
def dropDir (s : NameSys) (d : ℕ) : NameSys := { s with dirs := s.dirs.erase d }
def addDir (s : NameSys) (d : ℕ) : NameSys := { s with dirs := insert d s.dirs }

/-- `ext2_dirempty`, where `read` says that its reads succeed. -/
def dirempty (s : NameSys) (read : Bool) (ip parentino : ℕ) : Bool :=
  read && (s.recs ip).all fun e => decide (e.name = [46] ∨ e.name = [46, 46] ∧ e.ino = parentino)

/-- The end of a call with an error. -/
def failed (e : Errno) : RenameRes := .done (some (.other e))

/-! ### New inodes -/

/-- What the functions below answer while an inode is made; `fresh` is the inode that `ext2_valloc`
returns. -/
structure MakeEnv where
  valloc : Except Errno ℕ
  fresh : RenameInode
  update : Option Errno
  direnter : DirAnswer

/-- A new inode, on the volume of the directory it is made in. -/
def newInode (fresh : RenameInode) (i : ℕ) (dp : RenameInode) (isDir : Bool) (nlink : BitVec 16) : RenameInode :=
  { fresh with number := i, mount := dp.mount, devvp := dp.devvp, isDir := isDir, nlink := nlink, inRename := false }

/-- `bad`: the new inode gets no link, so that it is freed with its last reference. -/
def makeBad (s : NameSys) (i : ℕ) (e : Errno) : RenameRes × NameSys :=
  (failed e, s.modify i fun ip => { ip with nlink := 0 })

/-- `ext2_makeinode` -/
def ext2Makeinode (dvp : ℕ) (env : MakeEnv) (s : NameSys) : RenameRes × NameSys :=
  match env.valloc with
  | .error e => (failed e, s)
  | .ok i =>
      let s := s.alloc i (newInode env.fresh i (s.inode dvp) false 1)
      match env.update with
      | some e => makeBad s i e
      | none =>
          let s := s.setRecs dvp env.direnter.recs
          match env.direnter.error with
          | some e => makeBad s i e
          | none => (.done none, s)

/-- `ext2_mknod`; the inode is written and fetched again, and stays when that fails. -/
def ext2Mknod (dvp : ℕ) (env : MakeEnv) (update vget : Option Errno) (s : NameSys) : RenameRes × NameSys :=
  let r := ext2Makeinode dvp env s
  if r.1 = .done none then (.done ((update.orElse fun _ => vget).map .other), r.2) else r

/-- `ext2_symlink`; a long target is written into the file, which stays when that fails. -/
def ext2Symlink (dvp : ℕ) (env : MakeEnv) (write : Option Errno) (s : NameSys) : RenameRes × NameSys :=
  let r := ext2Makeinode dvp env s
  if r.1 = .done none then (.done (write.map .other), r.2) else r

/-- What the functions below answer while a directory is made. -/
structure MkdirEnv where
  valloc : Except Errno ℕ
  fresh : RenameInode
  /-- `ext2_update` of the parent; the result of that of the new inode is lost -/
  updateParent : Option Errno
  balloc : Option Errno
  write : Option Errno
  direnter : DirAnswer
  /-- `EXT2F_INCOMPAT_FTYPE` -/
  ftype : Bool

/-- The live records of a new directory. -/
def templateRecs (ftype : Bool) (i dp : ℕ) : List Dirent :=
  let t := mkdirTemplate ftype 0 i dp
  [⟨t.dot_ino, t.dot_type, t.dot_name.take t.dot_namlen⟩,
    ⟨t.dotdot_ino, t.dotdot_type, t.dotdot_name.take t.dotdot_namlen⟩]

/-- `ext2_mkdir` -/
def ext2Mkdir (dvp : ℕ) (env : MkdirEnv) (s : NameSys) : RenameRes × NameSys :=
  if LINK_MAX ≤ (s.inode dvp).nlink.toNat then (failed .emlink, s)
  else match env.valloc with
  | .error e => (failed e, s)
  | .ok i =>
      let s := (s.alloc i (newInode env.fresh i (s.inode dvp) true 2)).addLinks dvp 1
      -- `dp->i_nlink` keeps the new link when the parent cannot be written
      match env.updateParent with
      | some e => makeBad s i e
      | none =>
          match env.balloc.orElse fun _ => env.write with
          | some e => makeBad (s.addLinks dvp (-1)) i e
          | none =>
              let s := (s.setRecs i (templateRecs env.ftype i dvp)).setRecs dvp env.direnter.recs
              match env.direnter.error with
              | some e => makeBad (s.addLinks dvp (-1)) i e
              | none => (.done none, s.addDir i)

/-! ### Links -/

/-- `ext2_remove` -/
def ext2Remove (vp dvp : ℕ) (dirremove : DirAnswer) (s : NameSys) : RenameRes × NameSys :=
  if (s.inode vp).immutable ∨ (s.inode vp).append ∨ (s.inode dvp).append then (failed .eperm, s)
  else
    let s := s.setRecs dvp dirremove.recs
    match dirremove.error with
    | some e => (failed e, s)
    | none => (.done none, s.addLinks vp (-1))

/-- `ext2_link` -/
def ext2Link (vp tdvp : ℕ) (update : Option Errno) (direnter : DirAnswer) (s : NameSys) : RenameRes × NameSys :=
  if LINK_MAX ≤ (s.inode vp).nlink.toNat then (failed .emlink, s)
  else if (s.inode vp).immutable ∨ (s.inode vp).append then (failed .eperm, s)
  else
    let s := s.addLinks vp 1
    match update with
    | some e => (failed e, s.addLinks vp (-1))
    | none =>
        let s := s.setRecs tdvp direnter.recs
        match direnter.error with
        | some e => (failed e, s.addLinks vp (-1))
        | none => (.done none, s)

/-- What `ext2_rmdir` reads of an inode. -/
def rmdirInode (ip : RenameInode) : RmdirInode := ⟨ip.nlink.toInt, ip.immutable, ip.append⟩

/-- `ext2_rmdir`; `read` says that the directory can be read. -/
def ext2Rmdir (vp dvp : ℕ) (read : Bool) (dirremove : DirAnswer) (truncate : Option Errno) (s : NameSys) :
    RenameRes × NameSys :=
  match rmdirCheck (rmdirInode (s.inode vp)) (rmdirInode (s.inode dvp)) (s.dirempty read vp dvp) with
  | some e => (failed e, s)
  | none =>
      let s := s.setRecs dvp dirremove.recs
      match dirremove.error with
      | some e => (failed e, s)
      | none =>
          let s := ((s.addLinks dvp (-1)).addLinks vp (-2)).dropDir vp
          (.done (truncate.map .other), if truncate = none then s.setRecs vp [] else s)

/-- `ext2_inactive`, with the last reference to a vnode: `vfree` says that the bit could be cleared. -/
def ext2Inactive (i : ℕ) (s : NameSys) : NameSys :=
  if (s.inode i).nlink.toInt ≤ 0 then { s with used := Function.update s.used i false } else s

/-! ### Renames -/

/-- What the functions below answer during a rename; `dirempty` says that the target can be read. -/
structure RenameAnswers extends RenameEnv ℕ where
  /-- the live records that `ext2_direnter`, `ext2_dirrewrite` and `ext2_dirremove` leave -/
  enterRecs : List Dirent
  rewriteRecs : List Dirent
  removeRecs : List Dirent
  /-- those of the source after its `..` has been written -/
  sourceRecs : List Dirent
  /-- `ext2_truncate` of a directory that is replaced -/
  truncate : Option Errno

section

variable (env : RenameAnswers) (a : RenameArgs ℕ)

/-- The inodes as `ext2Rename` takes them. -/
def renameSt (s : NameSys) : RenameSt ℕ := ⟨s.inode, []⟩

/-- The checks of the target that is replaced, with the emptiness of its records. -/
def withEmpty (s : NameSys) : RenameEnv ℕ :=
  { env.toRenameEnv with dirempty := a.tvp.any fun tvp => s.dirempty env.dirempty tvp a.tdvp }

/-- `out` -/
def renameOut (s : NameSys) (e : RenameErrno) : RenameRes × NameSys :=
  (.done (some e), (s.mark a.fvp false).addLinks a.fvp (-1))

/-- The third part: the source is unlinked. -/
def renameUnlink (dir : Bool) (newparent : ℤ) (s : NameSys) : RenameRes × NameSys :=
  let moved := dir ∧ newparent ≠ 0
  let s := if moved then s.addLinks a.fdvp (-1) else s
  if moved ∧ env.mangled then (.panic, s)
  else
    let s := if moved ∧ env.readSource.isOk then s.setRecs a.fvp env.sourceRecs else s
    let s := s.setRecs a.fdvp env.removeRecs
    let s := if env.dirremove = none then s.addLinks a.fvp (-1) else s
    (.done (env.dirremove.map .other), s.mark a.fvp false)

/-- The second part for a new name. -/
def renameEnter (dir : Bool) (newparent : ℤ) (s : NameSys) : RenameRes × NameSys :=
  if (s.inode a.tdvp).devvp ≠ (s.inode a.fvp).devvp then (.panic, s)
  else
    let moved := dir ∧ newparent ≠ 0
    if moved ∧ LINK_MAX ≤ (s.inode a.tdvp).nlink.toNat then renameOut a s (.other .emlink)
    else
      let s := if moved then s.addLinks a.tdvp 1 else s
      -- `dp->i_nlink` keeps the new link when the parent cannot be written
      match if moved then env.updateParent else none with
      | some e => renameOut a s (.other e)
      | none =>
          let s := s.setRecs a.tdvp env.enterRecs
          match env.direnter with
          | some e => renameOut a (if moved then s.addLinks a.tdvp (-1) else s) (.other e)
          | none => renameUnlink env a dir newparent s

/-- The second part for a target that is replaced. -/
def renameReplace (dir : Bool) (newparent : ℤ) (tvp : ℕ) (s : NameSys) : RenameRes × NameSys :=
  let xp := s.inode tvp
  if xp.devvp ≠ (s.inode a.tdvp).devvp ∨ xp.devvp ≠ (s.inode a.fvp).devvp then (.panic, s)
  else if xp.number = (s.inode a.fvp).number then (.panic, s)
  else match replaceCheck (withEmpty env a s) a dir tvp s.renameSt with
    | some e => renameOut a s (.other e)
    | none =>
        let s := s.setRecs a.tdvp env.rewriteRecs
        match env.dirrewrite with
        | some e => renameOut a s (.other e)
        | none =>
            let s := if dir ∧ newparent = 0 then s.addLinks a.tdvp (-1) else s
            let s := s.addLinks tvp (-1)
            let s := if dir then (s.addLinks tvp (-1)).dropDir tvp else s
            if dir ∧ (s.inode tvp).nlink ≠ 0 then (.panic, s)
            else
              let s := if dir ∧ env.truncate = none then s.setRecs tvp [] else s
              renameUnlink env a dir newparent s

/-- The second part. -/
def renameLink (dir : Bool) (newparent : ℤ) (s : NameSys) : RenameRes × NameSys :=
  match a.tvp with
  | none => renameEnter env a dir newparent s
  | some tvp => renameReplace env a dir newparent tvp s

/-- What follows the checks. -/
def renameMove (fuel : ℕ) (s : NameSys) : RenameRes × NameSys :=
  let dir := (s.inode a.fvp).isDir
  let newparent := newParent a dir s.renameSt
  let s := (if dir then s.mark a.fvp true else s).addLinks a.fvp 1
  match env.update with
  | some e => renameOut a s (.other e)
  | none =>
      if dir ∧ newparent ≠ 0 then
        match (ext2Checkpath env.toWalkEnv (s.inode a.fvp).number (s.inode a.tdvp).number fuel a.tdvp).1 with
        | .done none => renameLink env a dir newparent s
        | .done (some e) => renameOut a s e
        | .panic => (.panic, s)
        | .running => (.running, s)
      else renameLink env a dir newparent s

/-- `ext2_rename` -/
def ext2Rename (fuel : ℕ) (s : NameSys) : RenameRes × NameSys :=
  match renameCheck a s.renameSt with
  | some e => (.done e, s)
  | none => renameMove env a fuel s

end

/-! ### The inodes of a rename -/

/-- A call on the directories and one on the iocounts end alike, with the same inodes. -/
def SameInodes (r : RenameRes × NameSys) (r' : RenameRes × RenameSt ℕ) : Prop :=
  r.1 = r'.1 ∧ r.2.inode = r'.2.inode

section

variable {env : RenameAnswers} {a : RenameArgs ℕ} {s s' s₀ : NameSys} {t t' : RenameSt ℕ}
  {r₁ r₂ : RenameRes × NameSys} {t₁ t₂ : RenameRes × RenameSt ℕ} {dir : Bool} {newparent : ℤ}

theorem addLinks_same (h : s.inode = t.inode) (i : ℕ) (d : BitVec 16) :
    (s.addLinks i d).inode = (t.addLinks i d).inode := by
  funext w
  simp only [addLinks, modify, RenameSt.addLinks, RenameSt.modify, h]

theorem mark_same (h : s.inode = t.inode) (i : ℕ) (on : Bool) :
    (s.mark i on).inode = (t.mark i on).inode := by
  funext w
  simp only [mark, modify, RenameSt.mark, RenameSt.modify, h]

theorem ite_same {c : Prop} [Decidable c] (h : s.inode = t.inode) (h' : s'.inode = t'.inode) :
    (if c then s else s').inode = (if c then t else t').inode := by
  split <;> assumption

theorem dropDir_inode (s : NameSys) (d : ℕ) : (s.dropDir d).inode = s.inode := rfl

/-- The live records of a directory are not in its inode. -/
theorem ite_setRecs_inode {c : Prop} [Decidable c] (s : NameSys) (d : ℕ) (l : List Dirent) :
    (if c then s.setRecs d l else s).inode = s.inode := by
  split <;> rfl

theorem SameInodes.ite {c : Prop} [Decidable c] (h₁ : SameInodes r₁ t₁) (h₂ : SameInodes r₂ t₂) :
    SameInodes (if c then r₁ else r₂) (if c then t₁ else t₂) := by
  split <;> assumption

theorem renameOut_same (h : s.inode = t.inode) (e : RenameErrno) :
    SameInodes (renameOut a s e) (Ext2fs.renameOut a t e) :=
  ⟨rfl, addLinks_same (mark_same h _ _) _ _⟩

/-- `bad` drops iocounts, and goes on to `out`. -/
theorem renameBad_same (h : s.inode = t.inode) (e : Errno) :
    SameInodes (renameOut a s (.other e)) (Ext2fs.renameBad a t e) := by
  unfold renameBad
  cases a.tvp with
  | none => exact renameOut_same h _
  | some v => exact renameOut_same h _

theorem renameUnlink_same (s₀ : NameSys) (h : s.inode = t.inode) :
    SameInodes (renameUnlink env a dir newparent s)
      (Ext2fs.renameUnlink (withEmpty env a s₀) a dir newparent t) := by
  have hparent := ite_same (c := dir = true ∧ newparent ≠ 0) (addLinks_same h a.fdvp (-1)) h
  apply SameInodes.ite
  · exact ⟨rfl, hparent⟩
  · refine ⟨rfl, mark_same (ite_same (addLinks_same ?_ _ _) ?_) _ _⟩ <;>
      exact (ite_setRecs_inode _ _ _).trans hparent

theorem renameEnter_same (h : s.inode = t.inode) :
    SameInodes (renameEnter env a dir newparent s)
      (Ext2fs.renameEnter (withEmpty env a s₀) a dir newparent t) := by
  have hparent := ite_same (c := dir = true ∧ newparent ≠ 0) (addLinks_same h a.tdvp 1) h
  unfold renameEnter Ext2fs.renameEnter
  dsimp only [withEmpty]
  rw [h]
  refine .ite ⟨rfl, h⟩ (.ite (renameBad_same h _) ?_)
  cases (if dir = true ∧ newparent ≠ 0 then env.updateParent else none) with
  | some e => exact renameBad_same hparent e
  | none =>
    cases env.direnter with
    | some e =>
      have hentered : ((if dir = true ∧ newparent ≠ 0 then s.addLinks a.tdvp 1 else s).setRecs a.tdvp
          env.enterRecs).inode = _ := hparent
      exact renameBad_same (ite_same (addLinks_same hentered a.tdvp (-1)) hentered) e
    | none => exact renameUnlink_same s₀ hparent

/-- Whether a target is empty is a matter of the live records. -/
theorem withEmpty_congr (h : s.recs = s₀.recs) : withEmpty env a s = withEmpty env a s₀ := by
  unfold withEmpty dirempty
  rw [h]

theorem renameReplace_same {tvp : ℕ} (h : s.inode = t.inode) (hrecs : s.recs = s₀.recs) :
    SameInodes (renameReplace env a dir newparent tvp s)
      (Ext2fs.renameReplace (withEmpty env a s₀) a dir newparent tvp t) := by
  have hcheck : replaceCheck (withEmpty env a s) a dir tvp s.renameSt =
      replaceCheck (withEmpty env a s₀) a dir tvp t := by
    unfold replaceCheck renameSt
    rw [withEmpty_congr hrecs, h]
  unfold renameReplace Ext2fs.renameReplace
  dsimp only
  rw [hcheck, h]
  refine .ite ⟨rfl, h⟩ (.ite ⟨rfl, h⟩ ?_)
  cases replaceCheck (withEmpty env a s₀) a dir tvp t with
  | some e => exact renameBad_same h e
  | none =>
    change SameInodes (match env.dirrewrite with | some e => _ | none => _)
      (match env.dirrewrite with | some e => _ | none => _)
    cases env.dirrewrite with
    | some e => exact renameBad_same h e
    | none =>
      have hrewritten : (s.setRecs a.tdvp env.rewriteRecs).inode = t.inode := h
      have hparent := ite_same (c := dir = true ∧ newparent = 0) (addLinks_same hrewritten a.tdvp (-1)) hrewritten
      have htarget := addLinks_same (t := RenameSt.put _ a.tdvp) hparent tvp (-1)
      have hdropped := ite_same (c := dir = true) 
        ((dropDir_inode _ tvp).trans (addLinks_same htarget tvp (-1))) htarget
      dsimp only
      rw [hdropped]
      exact .ite ⟨rfl, hdropped⟩ (renameUnlink_same s₀ ((ite_setRecs_inode _ _ _).trans hdropped))

theorem renameLink_same (h : s.inode = t.inode) (hrecs : s.recs = s₀.recs) :
    SameInodes (renameLink env a dir newparent s)
      (Ext2fs.renameLink (withEmpty env a s₀) a dir newparent t) := by
  unfold renameLink Ext2fs.renameLink
  cases a.tvp with
  | none => exact renameEnter_same h
  | some tvp => exact renameReplace_same h hrecs

theorem renameMove_same (fuel : ℕ) (s : NameSys) :
    SameInodes (renameMove env a fuel s) (Ext2fs.renameMove (withEmpty env a s) a fuel s.renameSt) := by
  have hmarked : (if (s.inode a.fvp).isDir = true then s.mark a.fvp true else s).inode =
      (if (s.renameSt.inode a.fvp).isDir = true then s.renameSt.mark a.fvp true else s.renameSt).inode :=
    ite_same (mark_same rfl _ _) rfl
  have hlinked := addLinks_same (t := RenameSt.put _ a.fdvp) hmarked a.fvp 1
  have hrecs : ((if (s.inode a.fvp).isDir = true then s.mark a.fvp true else s).addLinks a.fvp 1).recs =
      s.recs := by
    split <;> rfl
  unfold renameMove Ext2fs.renameMove
  dsimp only [withEmpty]
  generalize (RenameSt.put _ a.fdvp).addLinks a.fvp 1 = t at hlinked ⊢
  rw [hlinked]
  cases env.update with
  | some e => exact renameBad_same hlinked e
  | none =>
    refine .ite ?_ (renameLink_same hlinked hrecs)
    -- the walk changes no inode
    generalize ext2Checkpath env.toWalkEnv _ _ fuel a.tdvp = walk
    obtain ⟨res, ops⟩ := walk
    cases res with
    | done e =>
      cases e with
      | none => exact renameLink_same hlinked hrecs
      | some e => exact renameOut_same hlinked e
    | panic => exact ⟨rfl, hlinked⟩
    | running => exact ⟨rfl, hlinked⟩

/-- **The inodes of a rename**, and its result, are those of the rename that counts the vnodes too. -/
theorem rename_inode (env : RenameAnswers) (a : RenameArgs ℕ) (fuel : ℕ) (s : NameSys) :
    SameInodes (ext2Rename env a fuel s) (Ext2fs.ext2Rename (withEmpty env a s) a fuel s.renameSt) := by
  unfold ext2Rename Ext2fs.ext2Rename
  cases renameCheck a s.renameSt with
  | some e =>
    unfold renameAbort
    cases a.tvp <;> exact ⟨rfl, rfl⟩
  | none => exact renameMove_same fuel s

end

end NameSys

end Ext2fs
