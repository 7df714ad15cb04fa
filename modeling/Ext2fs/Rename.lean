import Ext2fs.Basic
import Ext2fs.Lib.RefCount

/-!
# The vnodes in a rename

`ext2_rename` and `ext2_checkpath`, with the inodes they change and every iocount they take or drop, in
order.  The vfs layer holds an iocount on each of the four vnodes for the whole call and drops it
itself; the two functions keep the protocol of a kernel that hands its references over.

* `ext2Checkpath`, `ext2Rename` — the two functions;
* `checkpath_net` — the walk drops one iocount that the caller holds on its target;
* `rename_drops` — past the checks, a rename drops one of the source's directory first and never takes
  an iocount it does not drop;
* **`rename_iocounts`** — no call leaves the iocounts of its caller alone.

The results of the functions that change directories and write inodes are answers of the rest of the
driver; what they do to the directories is the subject of `DirOps`.
-/

namespace Ext2fs

open RefCount

/-- The errors of a rename: `EXDEV`, and those of the other operations. -/
inductive RenameErrno where
  | exdev
  | other (e : Errno)
  deriving DecidableEq, Repr

/-- How a call ends. -/
inductive RenameRes where
  | done (e : Option RenameErrno)
  | panic
  | running
  deriving DecidableEq, Repr

/-! ### The walk up -/

/-- The `..` of a `struct ext2fs_dirtemplate`. -/
structure DirTemplate where
  /-- `dotdot_ino` -/
  dotdotIno : ℕ
  /-- `dotdot_type`, read as the length of the name -/
  dotdotType : ℕ
  /-- the first two characters of `dotdot_name` -/
  dotdotName : UInt8 × UInt8
  deriving DecidableEq, Repr

/-- The second entry is taken for `..`. -/
def DirTemplate.isDotDot (t : DirTemplate) : Prop :=
  t.dotdotType = 2 ∧ t.dotdotName.1 = 46 ∧ t.dotdotName.2 = 46

instance (t : DirTemplate) : Decidable t.isDotDot := inferInstanceAs (Decidable (_ ∧ _))

/-- The number of the root directory. -/
def ROOTINO : ℕ := 2

/-- What the rest of the kernel answers during the walk; a read, and `ext2_vget`, are told the round. -/
structure WalkEnv (V : Type*) where
  /-- `vnode_vtype(vp) == VDIR` -/
  isDir : V → Bool
  /-- `vn_rdwr` of the first two entries -/
  read : ℕ → V → Except Errno DirTemplate
  /-- `ext2_vget` of `..` -/
  vget : ℕ → ℕ → Except Errno V

variable {V : Type*}

/-- The loop of `ext2_checkpath`, at most `fuel` rounds of it from the given round on. -/
def checkpathLoop (env : WalkEnv V) (source : ℕ) : ℕ → ℕ → V → RenameRes × List (RefOp V)
  | 0, _, _ => (.running, [])
  | fuel + 1, round, vp =>
      if env.isDir vp = false then (.done (some (.other .enotdir)), [.put vp])
      else match env.read round vp with
        | .error e => (.done (some (.other e)), [.put vp])
        | .ok dirbuf =>
            if ¬dirbuf.isDotDot then (.done (some (.other .enotdir)), [.put vp])
            else if dirbuf.dotdotIno = source then (.done (some (.other .einval)), [.put vp])
            else if dirbuf.dotdotIno = ROOTINO then (.done none, [.put vp])
            else match env.vget round dirbuf.dotdotIno with
              | .error e => (.done (some (.other e)), [.put vp])
              | .ok vp' =>
                  let r := checkpathLoop env source fuel (round + 1) vp'
                  (r.1, .put vp :: .get vp' :: r.2)

/-- `ext2_checkpath`, for the numbers of the source and the target and the vnode of the target. -/
def ext2Checkpath (env : WalkEnv V) (source targetIno fuel : ℕ) (target : V) :
    RenameRes × List (RefOp V) :=
  if targetIno = source then (.done (some (.other .eexist)), [.put target])
  else if targetIno = ROOTINO then (.done none, [.put target])
  else checkpathLoop env source fuel 0 target

/-! ### The rename -/

/-- What a rename reads of an inode, and changes in it. -/
structure RenameInode where
  /-- `i_number` -/
  number : ℕ
  /-- the mount of the vnode, and `i_devvp` -/
  mount : ℕ
  devvp : ℕ
  /-- `(i_mode & IFMT) == IFDIR`, and the sticky bit -/
  isDir : Bool
  sticky : Bool
  /-- `IMMUTABLE` and `APPEND` in `i_flags` -/
  immutable : Bool
  append : Bool
  /-- `i_uid` -/
  uid : ℕ
  /-- `i_nlink` -/
  nlink : BitVec 16
  /-- `IN_RENAME` in `i_flag` -/
  inRename : Bool

/-- The arguments of a rename. -/
structure RenameArgs (V : Type*) where
  fvp : V
  fdvp : V
  tdvp : V
  tvp : Option V
  /-- the name of the source is `.` -/
  dot : Bool
  /-- `ISDOTDOT` in the flags of either name -/
  isDotDot : Bool

/-- What the rest of the kernel answers during a rename. -/
structure RenameEnv (V : Type*) extends WalkEnv V where
  /-- the caller -/
  cred : ℕ
  /-- `ext2_update` of the source, and of the target's directory -/
  update : Option Errno
  updateParent : Option Errno
  /-- `ext2_direnter`, `ext2_dirrewrite` and `ext2_dirremove` -/
  direnter : Option Errno
  dirrewrite : Option Errno
  dirremove : Option Errno
  /-- `ext2_dirempty` of the target -/
  dirempty : Bool
  /-- the `..` of the source, to be changed -/
  readSource : Except Errno DirTemplate

/-- The inodes, and the iocounts taken and dropped so far. -/
structure RenameSt (V : Type*) where
  inode : V → RenameInode
  ops : List (RefOp V)

variable [DecidableEq V]

namespace RenameSt

/-- `vnode_put` -/
def put (s : RenameSt V) (v : V) : RenameSt V := { s with ops := s.ops ++ [.put v] }

/-- An inode changes. -/
def modify (s : RenameSt V) (v : V) (f : RenameInode → RenameInode) : RenameSt V :=
  { s with inode := fun w => if w = v then f (s.inode v) else s.inode w }

/-- `i_nlink += d` -/
def addLinks (s : RenameSt V) (v : V) (d : BitVec 16) : RenameSt V :=
  s.modify v fun ip => { ip with nlink := ip.nlink + d }

/-- `IN_RENAME` set or cleared. -/
def mark (s : RenameSt V) (v : V) (on : Bool) : RenameSt V :=
  s.modify v fun ip => { ip with inRename := on }

end RenameSt

/-- The most links of an inode. -/
def LINK_MAX : ℕ := 32000

section

variable (env : RenameEnv V) (a : RenameArgs V)

/-- The checks that lead to `abortit`; `some e` is the error, or none for a rename to itself. -/
def renameCheck (s : RenameSt V) : Option (Option RenameErrno) :=
  let ip := s.inode a.fvp
  if ip.mount ≠ (s.inode a.tdvp).mount ∨ a.tvp.any (fun v => ip.mount ≠ (s.inode v).mount) then
    some (some .exdev)
  else if a.tvp.any (fun v => (s.inode v).immutable || (s.inode v).append ||
      (s.inode a.tdvp).append) then
    some (some (.other .eperm))
  else if a.tvp = some a.fvp then some none
  else if (LINK_MAX : ℤ) ≤ ip.nlink.toInt then some (some (.other .emlink))
  else if ip.immutable ∨ ip.append ∨ (s.inode a.fdvp).append then some (some (.other .eperm))
  else if ip.isDir ∧ (a.dot ∨ a.fdvp = a.fvp ∨ a.isDotDot ∨ ip.inRename) then
    some (some (.other .einval))
  else none

/-- `abortit`: both branches of the test for `tdvp == tvp` drop `tdvp` once. -/
def renameAbort (s : RenameSt V) (e : Option RenameErrno) : RenameRes × RenameSt V :=
  let s := s.put a.tdvp
  let s := match a.tvp with
    | some v => s.put v
    | none => s
  (.done e, (s.put a.fdvp).put a.fvp)

/-- `out` -/
def renameOut (s : RenameSt V) (e : RenameErrno) : RenameRes × RenameSt V :=
  (.done (some e), ((s.mark a.fvp false).addLinks a.fvp (-1)).put a.fvp)

/-- `bad`, where `xp` is the target and `dp` its directory. -/
def renameBad (s : RenameSt V) (e : Errno) : RenameRes × RenameSt V :=
  let s := match a.tvp with
    | some v => s.put v
    | none => s
  renameOut a (s.put a.tdvp) (.other e)

/-- The source has no `..` to change, as the read of its first entries shows. -/
def RenameEnv.mangled : Bool :=
  match env.readSource with
  | .ok dirbuf => !decide dirbuf.isDotDot
  | .error _ => false

/-- The third part: the source is unlinked.  `xp` is the inode of `fvp` and so always `ip`. -/
def renameUnlink (dir : Bool) (newparent : ℤ) (s : RenameSt V) : RenameRes × RenameSt V :=
  let moved := dir ∧ newparent ≠ 0
  let s := if moved then s.addLinks a.fdvp (-1) else s
  -- `ext2_dirbad` on a volume that is mounted for writing
  if moved ∧ env.mangled then (.panic, s)
  else
    let s := if env.dirremove = none then s.addLinks a.fvp (-1) else s
    let s := s.mark a.fvp false
    (.done (env.dirremove.map .other), ((s.put a.fdvp).put a.fvp).put a.fvp)

/-- The second part for a new name. -/
def renameEnter (dir : Bool) (newparent : ℤ) (s : RenameSt V) : RenameRes × RenameSt V :=
  if (s.inode a.tdvp).devvp ≠ (s.inode a.fvp).devvp then (.panic, s)
  else
    let moved := dir ∧ newparent ≠ 0
    if moved ∧ LINK_MAX ≤ (s.inode a.tdvp).nlink.toNat then renameBad a s .emlink
    else
      let s := if moved then s.addLinks a.tdvp 1 else s
      match if moved then env.updateParent else none with
      | some e => renameBad a s e
      | none =>
          match env.direnter with
          | some e => renameBad a (if moved then s.addLinks a.tdvp (-1) else s) e
          | none => renameUnlink env a dir newparent (s.put a.tdvp)

/-- The checks of a target that is replaced. -/
def replaceCheck (dir : Bool) (tvp : V) (s : RenameSt V) : Option Errno :=
  let xp := s.inode tvp
  let dp := s.inode a.tdvp
  if dp.sticky ∧ env.cred ≠ 0 ∧ env.cred ≠ dp.uid ∧ xp.uid ≠ env.cred then some .eperm
  else if xp.isDir then
    if env.dirempty = false ∨ 2 < xp.nlink.toInt then some .enotempty
    else if dir = false then some .enotdir
    else none
  else if dir then some .eisdir
  else none

/-- The second part for a target that is replaced. -/
def renameReplace (dir : Bool) (newparent : ℤ) (tvp : V) (s : RenameSt V) :
    RenameRes × RenameSt V :=
  let xp := s.inode tvp
  let dp := s.inode a.tdvp
  if xp.devvp ≠ dp.devvp ∨ xp.devvp ≠ (s.inode a.fvp).devvp then (.panic, s)
  else if xp.number = (s.inode a.fvp).number then (.panic, s)
  else match replaceCheck env a dir tvp s with
    | some e => renameBad a s e
    | none =>
        match env.dirrewrite with
        | some e => renameBad a s e
        | none =>
            let s := if dir ∧ newparent = 0 then s.addLinks a.tdvp (-1) else s
            let s := (s.put a.tdvp).addLinks tvp (-1)
            let s := if dir then s.addLinks tvp (-1) else s
            if dir ∧ (s.inode tvp).nlink ≠ 0 then (.panic, s)
            else renameUnlink env a dir newparent (s.put tvp)

/-- The second part. -/
def renameLink (dir : Bool) (newparent : ℤ) (s : RenameSt V) : RenameRes × RenameSt V :=
  match a.tvp with
  | none => renameEnter env a dir newparent s
  | some tvp => renameReplace env a dir newparent tvp s

/-- `newparent`: the number of the target's directory, unless the source is there already. -/
def newParent (dir : Bool) (s : RenameSt V) : ℤ :=
  let oldparent := if dir then i32 (s.inode a.fdvp).number else 0
  if oldparent ≠ i32 (s.inode a.tdvp).number then i32 (s.inode a.tdvp).number else 0

/-- What follows the checks; the walk up takes at most `fuel` rounds. -/
def renameMove (fuel : ℕ) (s : RenameSt V) : RenameRes × RenameSt V :=
  let dir := (s.inode a.fvp).isDir
  let newparent := newParent a dir s
  let s := if dir then s.mark a.fvp true else s
  let s := (s.put a.fdvp).addLinks a.fvp 1
  match env.update with
  | some e => renameBad a s e
  | none =>
      if dir ∧ newparent ≠ 0 then
        let r := ext2Checkpath env.toWalkEnv (s.inode a.fvp).number (s.inode a.tdvp).number fuel
          a.tdvp
        let s := { s with ops := s.ops ++ r.2 }
        match r.1 with
        | .done none => renameLink env a dir newparent s
        | .done (some e) => renameOut a s e
        | .panic => (.panic, s)
        | .running => (.running, s)
      else renameLink env a dir newparent s

/-- `ext2_rename` -/
def ext2Rename (fuel : ℕ) (s : RenameSt V) : RenameRes × RenameSt V :=
  match renameCheck a s with
  | some e => renameAbort a s e
  | none => renameMove env a fuel s

end

/-! ### What the walk up drops -/

section

variable {env : WalkEnv V} {source targetIno fuel round : ℕ} {vp v : V} {e : Option RenameErrno}

omit [DecidableEq V] in
/-- A round of the walk drops the iocount on its vnode, and ends the walk or takes one on the vnode of
the next round. -/
theorem checkpathLoop_round (env : WalkEnv V) (source fuel round : ℕ) (vp : V) :
    (∃ e, checkpathLoop env source (fuel + 1) round vp = (.done e, [.put vp])) ∨
      ∃ vp', checkpathLoop env source (fuel + 1) round vp =
        ((checkpathLoop env source fuel (round + 1) vp').1,
          .put vp :: .get vp' :: (checkpathLoop env source fuel (round + 1) vp').2) := by
  rw [checkpathLoop]
  by_cases hdir : env.isDir vp = false
  · rw [if_pos hdir]
    exact .inl ⟨_, rfl⟩
  rw [if_neg hdir]
  cases hread : env.read round vp with
  | error e => exact .inl ⟨_, rfl⟩
  | ok dirbuf =>
    dsimp only
    by_cases hdot : ¬dirbuf.isDotDot
    · rw [if_pos hdot]
      exact .inl ⟨_, rfl⟩
    rw [if_neg hdot]
    by_cases hsource : dirbuf.dotdotIno = source
    · rw [if_pos hsource]
      exact .inl ⟨_, rfl⟩
    rw [if_neg hsource]
    by_cases hroot : dirbuf.dotdotIno = ROOTINO
    · rw [if_pos hroot]
      exact .inl ⟨_, rfl⟩
    rw [if_neg hroot]
    cases hvget : env.vget round dirbuf.dotdotIno with
    | error e => exact .inl ⟨_, rfl⟩
    | ok vp' => exact .inr ⟨vp', rfl⟩

/-- **The walk drops one iocount on its first vnode**, and as many on each of the others as it takes. -/
theorem checkpathLoop_net (h : (checkpathLoop env source fuel round vp).1 = .done e) (v : V) :
    net v (checkpathLoop env source fuel round vp).2 = -if vp = v then 1 else 0 := by
  induction fuel generalizing round vp with
  | zero => exact absurd h (by simp [checkpathLoop])
  | succ fuel ih =>
    rcases checkpathLoop_round env source fuel round vp with ⟨e', hend⟩ | ⟨vp', hnext⟩
    · rw [hend, net_put, net_nil, zero_sub]
    · rw [hnext] at h ⊢
      have hrest := ih h
      rw [net_put, net_get, hrest]
      ring

omit [DecidableEq V] in
/-- The first thing the walk does with an iocount is to drop one it was not given. -/
theorem checkpathLoop_put (h : (checkpathLoop env source fuel round vp).1 = .done e) :
    [.put vp] <+: (checkpathLoop env source fuel round vp).2 := by
  cases fuel with
  | zero => exact absurd h (by simp [checkpathLoop])
  | succ fuel =>
    rcases checkpathLoop_round env source fuel round vp with ⟨e', hend⟩ | ⟨vp', hnext⟩
    · rw [hend]
    · rw [hnext]
      exact List.prefix_append [_] _

omit [DecidableEq V] in
/-- What `ext2_checkpath` does: it drops the iocount on its target at once, or walks. -/
theorem checkpath_cases (env : WalkEnv V) (source targetIno fuel : ℕ) (vp : V) :
    (∃ e, ext2Checkpath env source targetIno fuel vp = (.done e, [.put vp])) ∨
      ext2Checkpath env source targetIno fuel vp = checkpathLoop env source fuel 0 vp := by
  unfold ext2Checkpath
  split_ifs
  · exact .inl ⟨_, rfl⟩
  · exact .inl ⟨_, rfl⟩
  · exact .inr rfl

/-- **`ext2_checkpath` drops one iocount on its target.** -/
theorem checkpath_net (h : (ext2Checkpath env source targetIno fuel vp).1 = .done e) (v : V) :
    net v (ext2Checkpath env source targetIno fuel vp).2 = -if vp = v then 1 else 0 := by
  rcases checkpath_cases env source targetIno fuel vp with ⟨e', hend⟩ | hwalk
  · rw [hend, net_put, net_nil, zero_sub]
  · rw [hwalk] at h ⊢
    exact checkpathLoop_net h v

omit [DecidableEq V] in
theorem checkpath_put (h : (ext2Checkpath env source targetIno fuel vp).1 = .done e) :
    [.put vp] <+: (ext2Checkpath env source targetIno fuel vp).2 := by
  rcases checkpath_cases env source targetIno fuel vp with ⟨e', hend⟩ | hwalk
  · rw [hend]
  · rw [hwalk] at h ⊢
    exact checkpathLoop_put h

end

/-! ### What a rename drops -/

section

variable {env : RenameEnv V} {a : RenameArgs V} {s : RenameSt V}

omit [DecidableEq V] in
@[simp] theorem put_ops (s : RenameSt V) (v : V) : (s.put v).ops = s.ops ++ [.put v] := rfl

@[simp] theorem mark_ops (s : RenameSt V) (v : V) (on : Bool) : (s.mark v on).ops = s.ops := rfl

@[simp] theorem addLinks_ops (s : RenameSt V) (v : V) (d : BitVec 16) :
    (s.addLinks v d).ops = s.ops := rfl

@[simp] theorem ite_addLinks_ops (c : Prop) [Decidable c] (s : RenameSt V) (v : V) (d : BitVec 16) :
    (if c then s.addLinks v d else s).ops = s.ops := by
  split <;> rfl

@[simp] theorem ite_mark_ops (c : Prop) [Decidable c] (s : RenameSt V) (v : V) (on : Bool) :
    (if c then s.mark v on else s).ops = s.ops := by
  split <;> rfl

theorem renameOut_drops (s : RenameSt V) (e : RenameErrno) : Drops s.ops (renameOut a s e).2.ops :=
  .put s.ops a.fvp

theorem renameBad_drops (s : RenameSt V) (e : Errno) : Drops s.ops (renameBad a s e).2.ops := by
  unfold renameBad
  cases a.tvp with
  | none => exact (Drops.put s.ops a.tdvp).trans (renameOut_drops _ _)
  | some v => exact ((Drops.put s.ops v).trans (.put _ a.tdvp)).trans (renameOut_drops _ _)

theorem renameUnlink_drops (dir : Bool) (newparent : ℤ) (s : RenameSt V) :
    Drops s.ops (renameUnlink env a dir newparent s).2.ops := by
  unfold renameUnlink
  dsimp only
  split
  · rw [ite_addLinks_ops]
    exact .refl _
  · simp only [put_ops, mark_ops, ite_addLinks_ops]
    exact ((Drops.put s.ops a.fdvp).trans (.put _ a.fvp)).trans (.put _ a.fvp)

theorem renameEnter_drops (dir : Bool) (newparent : ℤ) (s : RenameSt V) :
    Drops s.ops (renameEnter env a dir newparent s).2.ops := by
  unfold renameEnter
  dsimp only
  split
  · exact .refl _
  split
  · exact renameBad_drops s _
  · have hsame := ite_addLinks_ops (dir = true ∧ newparent ≠ 0) s a.tdvp 1
    generalize (if dir = true ∧ newparent ≠ 0 then s.addLinks a.tdvp 1 else s) = s₁ at hsame ⊢
    rw [← hsame]
    split
    · exact renameBad_drops s₁ _
    split
    · have h := renameBad_drops (a := a)
        (if dir = true ∧ newparent ≠ 0 then s₁.addLinks a.tdvp (-1) else s₁)
      rw [ite_addLinks_ops] at h
      exact h _
    · exact (Drops.put s₁.ops a.tdvp).trans (renameUnlink_drops dir newparent (s₁.put a.tdvp))

theorem renameReplace_drops (dir : Bool) (newparent : ℤ) (tvp : V) (s : RenameSt V) :
    Drops s.ops (renameReplace env a dir newparent tvp s).2.ops := by
  unfold renameReplace
  dsimp only
  split
  · exact .refl _
  split
  · exact .refl _
  split
  · exact renameBad_drops s _
  split
  · exact renameBad_drops s _
  · generalize hs₁ : (if dir = true ∧ newparent = 0 then s.addLinks a.tdvp (-1) else s) = s₁
    have hsame : s₁.ops = s.ops := by
      rw [← hs₁, ite_addLinks_ops]
    generalize hs₂ : (if dir = true then ((s₁.put a.tdvp).addLinks tvp (-1)).addLinks tvp (-1)
      else (s₁.put a.tdvp).addLinks tvp (-1)) = s₂
    have hput : Drops s.ops s₂.ops := by
      rw [← hs₂, ite_addLinks_ops, addLinks_ops, put_ops, hsame]
      exact .put _ a.tdvp
    split
    · exact hput
    · exact (hput.trans (.put _ tvp)).trans (renameUnlink_drops dir newparent (s₂.put tvp))

theorem renameLink_drops (dir : Bool) (newparent : ℤ) (s : RenameSt V) :
    Drops s.ops (renameLink env a dir newparent s).2.ops := by
  unfold renameLink
  split
  · exact renameEnter_drops dir newparent s
  · exact renameReplace_drops dir newparent _ s

/-- **Past the checks**, a rename that returns drops the iocount on the source's directory, and from
there on at most drops. -/
theorem renameMove_drops (fuel : ℕ) (s : RenameSt V) {e : Option RenameErrno}
    (h : (renameMove env a fuel s).1 = .done e) :
    Drops (s.ops ++ [.put a.fdvp]) (renameMove env a fuel s).2.ops := by
  unfold renameMove at h ⊢
  dsimp only at h ⊢
  generalize hs₁ : ((if (s.inode a.fvp).isDir = true then s.mark a.fvp true else s).put
    a.fdvp).addLinks a.fvp 1 = s₁ at h ⊢
  have hops : s.ops ++ [.put a.fdvp] = s₁.ops := by
    rw [← hs₁, addLinks_ops, put_ops, ite_mark_ops]
  rw [hops]
  cases hupdate : env.update with
  | some e => exact renameBad_drops s₁ e
  | none =>
    rw [hupdate] at h
    dsimp only at h ⊢
    split
    swap
    · exact renameLink_drops _ _ s₁
    next hmoved =>
      rw [if_pos hmoved] at h
      -- the walk takes as many iocounts as it drops, but for the one on its target
      have hwalk : ∀ e', (ext2Checkpath env.toWalkEnv (s₁.inode a.fvp).number
          (s₁.inode a.tdvp).number fuel a.tdvp).1 = .done e' →
          Drops s₁.ops (s₁.ops ++ (ext2Checkpath env.toWalkEnv (s₁.inode a.fvp).number
            (s₁.inode a.tdvp).number fuel a.tdvp).2) := by
        intro e' he'
        refine ⟨_, rfl, fun v => ?_⟩
        rw [checkpath_net he' v]
        split <;> omega
      split
      next hdone => exact (hwalk _ hdone).trans (renameLink_drops _ _ _)
      next e' hdone => exact (hwalk _ hdone).trans (renameOut_drops _ _)
      next hpanic =>
        rw [hpanic] at h
        exact absurd h (by simp)
      next hrunning =>
        rw [hrunning] at h
        exact absurd h (by simp)

/-- The first iocount a rename touches is dropped, whatever follows. -/
theorem renameMove_put (fuel : ℕ) (s : RenameSt V) :
    s.ops ++ [.put a.fdvp] <+: (renameMove env a fuel s).2.ops := by
  unfold renameMove
  dsimp only
  generalize hs₁ : ((if (s.inode a.fvp).isDir = true then s.mark a.fvp true else s).put
    a.fdvp).addLinks a.fvp 1 = s₁
  have hops : s.ops ++ [.put a.fdvp] = s₁.ops := by
    rw [← hs₁, addLinks_ops, put_ops, ite_mark_ops]
  rw [hops]
  split
  · exact (renameBad_drops s₁ _).isPrefix
  split
  swap
  · exact (renameLink_drops _ _ s₁).isPrefix
  generalize ext2Checkpath env.toWalkEnv (s₁.inode a.fvp).number (s₁.inode a.tdvp).number fuel
    a.tdvp = r
  have hwalk := List.prefix_append s₁.ops r.2
  split
  · exact hwalk.trans (renameLink_drops _ _ { s₁ with ops := s₁.ops ++ r.2 }).isPrefix
  · exact hwalk.trans (renameOut_drops { s₁ with ops := s₁.ops ++ r.2 } _).isPrefix
  · exact hwalk
  · exact hwalk

/-- `abortit` drops an iocount on each of the vnodes. -/
theorem renameAbort_net (s : RenameSt V) (e : Option RenameErrno) (v : V) :
    net v (renameAbort a s e).2.ops = net v s.ops - (if a.tdvp = v then 1 else 0) -
      (if a.tvp = some v then 1 else 0) - (if a.fdvp = v then 1 else 0) -
      (if a.fvp = v then 1 else 0) := by
  unfold renameAbort
  cases htvp : a.tvp with
  | none =>
    simp only [put_ops, net_append, net_put, net_nil, reduceCtorEq, if_false]
    ring
  | some w =>
    simp only [put_ops, net_append, net_put, net_nil, Option.some.injEq]
    ring

/-- **No rename leaves the iocounts of its caller alone**, and no walk up does: each drops first what
the caller holds.  A rename that returns has one iocount too few on the directory of its source, and a
walk that returns exactly one too few on its target. -/
theorem rename_iocounts :
    (∀ (env : RenameEnv V) (a : RenameArgs V) (inode : V → RenameInode) (fuel : ℕ),
      ¬Balanced (ext2Rename env a fuel ⟨inode, []⟩).2.ops ∧
      ∀ e, (ext2Rename env a fuel ⟨inode, []⟩).1 = .done e →
        net a.fdvp (ext2Rename env a fuel ⟨inode, []⟩).2.ops < 0) ∧
    (∀ (env : WalkEnv V) (source targetIno fuel : ℕ) (target : V) (e : Option RenameErrno),
      (ext2Checkpath env source targetIno fuel target).1 = .done e →
        ¬Balanced (ext2Checkpath env source targetIno fuel target).2 ∧
        ∀ v, net v (ext2Checkpath env source targetIno fuel target).2 =
          -if target = v then 1 else 0) := by
  refine ⟨fun env a inode fuel => ?_, fun env source targetIno fuel target e h =>
    ⟨not_balanced_of_put (checkpath_put h), checkpath_net h⟩⟩
  cases hcheck : renameCheck a (⟨inode, []⟩ : RenameSt V) with
  | some e' =>
    have habort : ext2Rename env a fuel ⟨inode, []⟩ = renameAbort a ⟨inode, []⟩ e' := by
      unfold ext2Rename
      rw [hcheck]
    have hneg : net a.fdvp (renameAbort a (⟨inode, []⟩ : RenameSt V) e').2.ops < 0 := by
      rw [renameAbort_net, net_nil, if_pos (rfl : a.fdvp = a.fdvp)]
      split_ifs <;> omega
    rw [habort]
    exact ⟨fun hb => absurd (hb.settled a.fdvp) (by omega), fun _ _ => hneg⟩
  | none =>
    have hmove : ext2Rename env a fuel ⟨inode, []⟩ = renameMove env a fuel ⟨inode, []⟩ := by
      unfold ext2Rename
      rw [hcheck]
    rw [hmove]
    refine ⟨not_balanced_of_put (renameMove_put fuel ⟨inode, []⟩), fun e he => ?_⟩
    have hle := (renameMove_drops fuel ⟨inode, []⟩ he).net_le a.fdvp
    rw [net_append, net_nil, net_put, net_nil, if_pos rfl] at hle
    omega

end

/-- A rename of a file to a new name in its directory in which every step succeeds. -/
def plainEnv : RenameEnv ℕ where
  isDir _ := true
  read _ _ := .error .eio
  vget _ _ := .error .eio
  cred := 0
  update := none
  updateParent := none
  direnter := none
  dirrewrite := none
  dirremove := none
  dirempty := false
  readSource := .error .eio

/-- The inodes of such a rename: the directory is vnode 0, the file vnode 1. -/
def plainInode (v : ℕ) : RenameInode where
  number := 11 + v
  mount := 0
  devvp := 0
  isDir := v = 0
  sticky := false
  immutable := false
  append := false
  uid := 0
  nlink := 2
  inRename := false

/-- The plainest rename takes the file's iocount down by two and the directory's by three. -/
theorem plainRename_drops :
    let a : RenameArgs ℕ := ⟨1, 0, 0, none, false, false⟩
    let r := ext2Rename plainEnv a 0 ⟨plainInode, []⟩
    r.1 = .done none ∧ ¬Balanced r.2.ops ∧ net 1 r.2.ops = -2 ∧ net 0 r.2.ops = -3 := by
  refine ⟨by decide, fun hb => ?_, by decide, by decide⟩
  exact absurd (hb.settled 1) (by decide)

end Ext2fs
