import Ext2fs.Rename
import Ext2fs.Lib.RootedTree

/-!
# The walk up a tree of directories

The directories that `ext2_mkdir`, `ext2_rmdir` and `ext2_rename` make of an empty volume, each with the
first two entries that are read as a `struct ext2fs_dirtemplate`.

* `mkdirTemplate` — what `ext2_mkdir` writes;
* `DirTree`, `DirTree.Step`, `DirTree.Built` — the volume, its changes, and what comes of them;
* `DirTree.Inv` — every `..` names the directory that has the entry, and leads to the root;
* `checkpath_ftype`, `checkpath_noftype` — what `ext2_checkpath` comes to with and without the feature;
* **`checkpath_right_iff`** — it tells ancestors apart, and `ext2_rename` knows every `..`, exactly on
  volumes with the feature.
-/

namespace Ext2fs

open Relation RootedTree

/-! ### The first two entries -/

def EXT2_FT_UNKNOWN : ℕ := 0
def EXT2_FT_DIR : ℕ := 2
def MINBSIZE : ℕ := 1024

/-- `struct ext2fs_dirtemplate` -/
structure Ext2fsDirTemplate where
  dot_ino : ℕ
  dot_reclen : ℕ
  dot_namlen : ℕ
  dot_type : ℕ
  dot_name : List UInt8
  dotdot_ino : ℕ
  dotdot_reclen : ℕ
  dotdot_namlen : ℕ
  dotdot_type : ℕ
  dotdot_name : List UInt8
  deriving DecidableEq

def mastertemplate : Ext2fsDirTemplate :=
  ⟨0, 12, 1, EXT2_FT_DIR, [46, 0, 0, 0], 0, MINBSIZE - 12, 2, EXT2_FT_DIR, [46, 46, 0, 0]⟩

def omastertemplate : Ext2fsDirTemplate :=
  ⟨0, 12, 1, EXT2_FT_UNKNOWN, [46, 0, 0, 0], 0, MINBSIZE - 12, 2, EXT2_FT_UNKNOWN, [46, 46, 0, 0]⟩

/-- The entries of a new directory `ip` in `dp`; `ftype` is `EXT2F_INCOMPAT_FTYPE`. -/
def mkdirTemplate (ftype : Bool) (bsize ip dp : ℕ) : Ext2fsDirTemplate :=
  let dtp := if ftype then mastertemplate else omastertemplate
  { dtp with dot_ino := ip, dotdot_ino := dp, dotdot_reclen := bsize - 12 }

/-- What `ext2_checkpath` and `ext2_rename` look at. -/
def Ext2fsDirTemplate.dotdot (t : Ext2fsDirTemplate) : DirTemplate :=
  ⟨t.dotdot_ino, t.dotdot_type, (t.dotdot_name.getD 0 0, t.dotdot_name.getD 1 0)⟩

/-! ### The volume -/

/-- A directory: its first two entries, and the directories that the others name. -/
structure DirNode where
  dirbuf : Ext2fsDirTemplate
  subdirs : List ℕ

/-- The directories of a volume, by their numbers. -/
structure DirTree where
  ftype : Bool
  bsize : ℕ
  dir : ℕ → Option DirNode

namespace DirTree

variable (T : DirTree)

/-- The numbers of the directories. -/
def dirs : Set ℕ := {d | (T.dir d).isSome}

/-- The directory that `..` names. -/
def dotdot (d : ℕ) : ℕ := ((T.dir d).map fun n => n.dirbuf.dotdot_ino).getD 0

/-- The directory `p` has an entry for the directory `c`. -/
def Entry (c p : ℕ) : Prop := ∃ n, T.dir p = some n ∧ c ∈ n.subdirs

/-- `a` is an ancestor of `d`. -/
def Ancestor (a d : ℕ) : Prop := TransGen T.Entry d a

/-- What the walk reads: the vnode of a directory goes by its number. -/
def walkEnv : WalkEnv ℕ where
  isDir d := (T.dir d).isSome
  read _ d :=
    match T.dir d with
    | some n => .ok n.dirbuf.dotdot
    | none => .error .enotdir
  vget _ d := if (T.dir d).isSome then .ok d else .error .enoent

/-- An entry for `c` is made in `p`. -/
def direnter (c p : ℕ) : DirTree :=
  { T with dir := fun d => if d = p then (T.dir p).map fun n => { n with subdirs := c :: n.subdirs } else T.dir d }

/-- The entry for `c` in `p` is removed. -/
def dirremove (c p : ℕ) : DirTree :=
  { T with
    dir := fun d =>
      if d = p then (T.dir p).map fun n => { n with subdirs := n.subdirs.filter (· ≠ c) } else T.dir d }

/-- The directory `d` is on the volume as `n`, or not at all. -/
def set (d : ℕ) (n : Option DirNode) : DirTree := { T with dir := Function.update T.dir d n }

/-- `ext2_rename` writes the number of the new parent into the `..` that it has read. -/
def setDotdot (d p : ℕ) : DirTree :=
  T.set d ((T.dir d).map fun n => { n with dirbuf := { n.dirbuf with dotdot_ino := p } })

/-- The walk comes back with 0. -/
def MayMove (source target : ℕ) : Prop :=
  ∃ fuel, (ext2Checkpath T.walkEnv source target fuel target).1 = .done none

/-- The changes of a volume.  A directory is made; an empty one is removed, by `ext2_rmdir` or by a rename
within its directory to its name; one is moved, and may replace an empty one.  A rename to another directory
does not come back unless `ext2_checkpath` allows it and `..` is recognised; one within a directory changes
names only. -/
inductive Step : DirTree → DirTree → Prop
  | mkdir {T : DirTree} {c p : ℕ} (hp : p ∈ T.dirs) (hc : c ∉ T.dirs) :
      Step T ((T.set c (some ⟨mkdirTemplate T.ftype T.bsize c p, []⟩)).direnter c p)
  | rmdir {T : DirTree} {c p : ℕ} (hc : T.Entry c p) (hempty : ∀ x, ¬T.Entry x c) :
      Step T ((T.dirremove c p).set c none)
  | move {T : DirTree} {c p q : ℕ} {n : DirNode} (hc : T.Entry c p) (hq : q ∈ T.dirs) (hpq : p ≠ q)
      (hmay : T.MayMove c q) (hn : T.dir c = some n) (hdotdot : n.dirbuf.dotdot.isDotDot) :
      Step T (((T.direnter c q).setDotdot c q).dirremove c p)
  | replace {T : DirTree} {c p q x : ℕ} {n : DirNode} (hc : T.Entry c p) (hx : T.Entry x q) (hpq : p ≠ q)
      (hmay : T.MayMove c q) (hempty : ∀ y, ¬T.Entry y x) (hcx : c ≠ x) (hn : T.dir c = some n)
      (hdotdot : n.dirbuf.dotdot.isDotDot) :
      Step T (((((T.dirremove x q).set x none).direnter c q).setDotdot c q).dirremove c p)

/-- An empty volume.  What is put into `lost+found` of a new volume is what `ext2_mkdir` writes. -/
def start (ftype : Bool) (bsize : ℕ) : DirTree where
  ftype
  bsize
  dir d := if d = ROOTINO then some ⟨mkdirTemplate ftype bsize ROOTINO ROOTINO, []⟩ else none

/-- The trees that the driver builds. -/
def Built (T : DirTree) : Prop := ∃ ftype bsize, ReflTransGen Step (start ftype bsize) T

/-! ### What is asked -/

/-- **The answer of the walk**: `EEXIST` for the target itself, `EINVAL` for an ancestor of it, and else 0. -/
def CheckpathRight (source target : ℕ) : Prop :=
  ∃ fuel e, (ext2Checkpath T.walkEnv source target fuel target).1 = .done e ∧
    (source = target → e = some (.other .eexist)) ∧
    (source ≠ target → T.Ancestor source target → e = some (.other .einval)) ∧
    (source ≠ target → ¬T.Ancestor source target → e = none)

/-- The walk is right for every two directories, and the `..` of each but the root is recognised. -/
def Right : Prop :=
  (∀ source ∈ T.dirs, ∀ target ∈ T.dirs, T.CheckpathRight source target) ∧
    ∀ d n, T.dir d = some n → d ≠ ROOTINO → n.dirbuf.dotdot.isDotDot

/-! ### The invariant -/

/-- Every `..` names the directory with the entry and leads to the root, and is as `ext2_mkdir` wrote it. -/
structure Inv : Prop where
  tree : IsTree ROOTINO T.dotdot T.dirs
  entry : ∀ c p, T.Entry c p ↔ c ∈ T.dirs ∧ p ∈ T.dirs ∧ c ≠ ROOTINO ∧ T.dotdot c = p
  template : ∀ d n, T.dir d = some n → d ≠ ROOTINO →
    n.dirbuf.dotdot_type = (if T.ftype then EXT2_FT_DIR else EXT2_FT_UNKNOWN) ∧
      n.dirbuf.dotdot_name = [46, 46, 0, 0]

section Changes

variable {T} {c d p x y : ℕ} {n : DirNode}

theorem mem_dirs : d ∈ T.dirs ↔ ∃ n, T.dir d = some n := Option.isSome_iff_exists

theorem dotdot_of (h : T.dir d = some n) : T.dotdot d = n.dirbuf.dotdot_ino := by
  unfold dotdot
  rw [h]
  rfl

theorem direnter_dir : (T.direnter c p).dir d =
    if d = p then (T.dir d).map fun n => { n with subdirs := c :: n.subdirs } else T.dir d := by
  show (if d = p then _ else _) = _
  split
  · next h => rw [h]
  · rfl

theorem dirremove_dir : (T.dirremove c p).dir d =
    if d = p then (T.dir d).map fun n => { n with subdirs := n.subdirs.filter (· ≠ c) } else T.dir d := by
  show (if d = p then _ else _) = _
  split
  · next h => rw [h]
  · rfl

theorem direnter_dirs : (T.direnter c p).dirs = T.dirs := by
  ext d
  show ((T.direnter c p).dir d).isSome = true ↔ (T.dir d).isSome = true
  rw [direnter_dir]
  split <;> simp

theorem dirremove_dirs : (T.dirremove c p).dirs = T.dirs := by
  ext d
  show ((T.dirremove c p).dir d).isSome = true ↔ (T.dir d).isSome = true
  rw [dirremove_dir]
  split <;> simp

theorem direnter_dotdot : (T.direnter c p).dotdot = T.dotdot := by
  funext d
  unfold dotdot
  rw [direnter_dir]
  split <;> simp [Function.comp_def]

theorem dirremove_dotdot : (T.dirremove c p).dotdot = T.dotdot := by
  funext d
  unfold dotdot
  rw [dirremove_dir]
  split <;> simp [Function.comp_def]

theorem direnter_entry (hp : p ∈ T.dirs) : (T.direnter c p).Entry x y ↔ T.Entry x y ∨ x = c ∧ y = p := by
  obtain ⟨m, hm⟩ := mem_dirs.1 hp
  unfold Entry
  rw [direnter_dir]
  by_cases hy : y = p
  · subst hy
    simp [hm, or_comm]
  · simp [hy]

theorem dirremove_entry : (T.dirremove c p).Entry x y ↔ T.Entry x y ∧ ¬(x = c ∧ y = p) := by
  unfold Entry
  rw [dirremove_dir]
  by_cases hy : y = p
  · subst hy
    cases T.dir y <;> simp
  · simp [hy]

theorem set_dir_self {m : Option DirNode} : (T.set d m).dir d = m := by
  show Function.update T.dir d m d = m
  rw [Function.update_self]

theorem set_dir_ne {m : Option DirNode} (hx : x ≠ d) : (T.set d m).dir x = T.dir x := by
  show Function.update T.dir d m x = T.dir x
  rw [Function.update_of_ne hx]

theorem set_dirs_some : (T.set d (some n)).dirs = insert d T.dirs := by
  ext x
  show (Function.update T.dir d _ x).isSome = true ↔ x = d ∨ (T.dir x).isSome = true
  by_cases hx : x = d
  · simp [hx]
  · simp [hx]

theorem set_dirs_none : (T.set d none).dirs = T.dirs \ {d} := by
  ext x
  show (Function.update T.dir d none x).isSome = true ↔ (T.dir x).isSome = true ∧ x ≠ d
  by_cases hx : x = d
  · simp [hx]
  · simp [hx]

theorem set_dotdot_some : (T.set d (some n)).dotdot = Function.update T.dotdot d n.dirbuf.dotdot_ino := by
  funext x
  show ((Function.update T.dir d (some n) x).map _).getD 0 = _
  by_cases hx : x = d
  · simp [hx]
  · simp [hx, dotdot]

theorem set_dotdot_ne {m : Option DirNode} (hx : x ≠ d) : (T.set d m).dotdot x = T.dotdot x := by
  show ((Function.update T.dir d m x).map _).getD 0 = _
  rw [Function.update_of_ne hx]
  rfl

theorem set_entry {m : Option DirNode} :
    (T.set d m).Entry x y ↔ if y = d then ∃ n, m = some n ∧ x ∈ n.subdirs else T.Entry x y := by
  show (∃ n, Function.update T.dir d m y = some n ∧ _) ↔ _
  by_cases hy : y = d
  · simp [hy]
  · simp [hy, Entry]

theorem setDotdot_dirs (hd : d ∈ T.dirs) : (T.setDotdot d p).dirs = T.dirs := by
  obtain ⟨m, hm⟩ := mem_dirs.1 hd
  unfold setDotdot
  rw [hm, Option.map_some, set_dirs_some, Set.insert_eq_of_mem hd]

theorem setDotdot_dotdot (hd : d ∈ T.dirs) : (T.setDotdot d p).dotdot = Function.update T.dotdot d p := by
  obtain ⟨m, hm⟩ := mem_dirs.1 hd
  unfold setDotdot
  rw [hm, Option.map_some, set_dotdot_some]

theorem setDotdot_entry : (T.setDotdot d p).Entry x y ↔ T.Entry x y := by
  unfold setDotdot
  rw [set_entry]
  by_cases hy : y = d
  · subst hy
    unfold Entry
    cases T.dir y <;> simp
  · simp [hy]

end Changes

section Keeps

variable {T} {c d p q x y a : ℕ} {n : DirNode}

theorem mkdirTemplate_template (ftype : Bool) (bsize ip dp : ℕ) :
    (mkdirTemplate ftype bsize ip dp).dotdot_type = (if ftype then EXT2_FT_DIR else EXT2_FT_UNKNOWN) ∧
      (mkdirTemplate ftype bsize ip dp).dotdot_name = [46, 46, 0, 0] := by
  cases ftype <;> exact ⟨rfl, rfl⟩

theorem mkdirTemplate_ino (ftype : Bool) (bsize ip dp : ℕ) : (mkdirTemplate ftype bsize ip dp).dotdot_ino = dp := rfl

/-- Only the template of a directory in question counts. -/
theorem Inv.template_of (h : T.Inv) {T' : DirTree} (hft : T'.ftype = T.ftype)
    (hdir : ∀ d m, T'.dir d = some m → d ≠ ROOTINO → ∃ n, T.dir d = some n ∧
      m.dirbuf.dotdot_type = n.dirbuf.dotdot_type ∧ m.dirbuf.dotdot_name = n.dirbuf.dotdot_name) :
    ∀ d m, T'.dir d = some m → d ≠ ROOTINO →
      m.dirbuf.dotdot_type = (if T'.ftype then EXT2_FT_DIR else EXT2_FT_UNKNOWN) ∧
        m.dirbuf.dotdot_name = [46, 46, 0, 0] := by
  intro d m hm hd
  obtain ⟨n, hn, htype, hname⟩ := hdir d m hm hd
  obtain ⟨h1, h2⟩ := h.template d n hn hd
  rw [hft, htype, hname]
  exact ⟨h1, h2⟩

theorem direnter_dirbuf {m : DirNode} (hm : (T.direnter c p).dir d = some m) :
    ∃ n, T.dir d = some n ∧ m.dirbuf = n.dirbuf := by
  rw [direnter_dir] at hm
  split at hm
  · obtain ⟨n, hn, rfl⟩ := Option.map_eq_some_iff.1 hm
    exact ⟨n, hn, rfl⟩
  · exact ⟨m, hm, rfl⟩

theorem dirremove_dirbuf {m : DirNode} (hm : (T.dirremove c p).dir d = some m) :
    ∃ n, T.dir d = some n ∧ m.dirbuf = n.dirbuf := by
  rw [dirremove_dir] at hm
  split at hm
  · obtain ⟨n, hn, rfl⟩ := Option.map_eq_some_iff.1 hm
    exact ⟨n, hn, rfl⟩
  · exact ⟨m, hm, rfl⟩

/-- **A directory is made.** -/
theorem Inv.mkdir (h : T.Inv) (hp : p ∈ T.dirs) (hc : c ∉ T.dirs) :
    Inv ((T.set c (some ⟨mkdirTemplate T.ftype T.bsize c p, []⟩)).direnter c p) := by
  have hroot : c ≠ ROOTINO := fun hcr => hc (hcr ▸ h.tree.root_mem)
  have hpc : p ≠ c := fun hpc => hc (hpc ▸ hp)
  have hdirs : (T.set c (some ⟨mkdirTemplate T.ftype T.bsize c p, []⟩)).dirs = insert c T.dirs := set_dirs_some
  have hdotdot : (T.set c (some ⟨mkdirTemplate T.ftype T.bsize c p, []⟩)).dotdot =
      Function.update T.dotdot c p := set_dotdot_some
  have hmem : p ∈ (T.set c (some ⟨mkdirTemplate T.ftype T.bsize c p, []⟩)).dirs := hdirs ▸ Set.mem_insert_of_mem c hp
  refine ⟨?_, fun x y => ?_, fun d m hm hd => ?_⟩
  · rw [direnter_dirs, direnter_dotdot, hdirs, hdotdot]
    exact h.tree.add hc hp
  · rw [direnter_entry hmem, set_entry, direnter_dirs, direnter_dotdot, hdirs, hdotdot]
    by_cases hyc : y = c
    · subst hyc
      have hnone : ∀ x ∈ T.dirs, x ≠ ROOTINO → T.dotdot x ≠ y := fun x hx hxr hxy =>
        hc (hxy ▸ h.tree.par_mem x hx hxr)
      constructor
      · rintro (hx | ⟨rfl, hxy⟩)
        · simp at hx
        · exact absurd hxy.symm hpc
      · rintro ⟨hx, -, hxr, hxy⟩
        rcases hx with rfl | hx
        · rw [Function.update_self] at hxy
          exact absurd hxy hpc
        · have hxy' : x ≠ y := fun hc' => hc (hc' ▸ hx)
          rw [Function.update_of_ne hxy'] at hxy
          exact absurd hxy (hnone x hx hxr)
    · rw [if_neg hyc, h.entry]
      by_cases hxc : x = c
      · subst hxc
        rw [Function.update_self]
        constructor
        · rintro (⟨hx, -⟩ | ⟨-, rfl⟩)
          · exact absurd hx hc
          · exact ⟨Set.mem_insert _ _, Set.mem_insert_of_mem _ hp, hroot, rfl⟩
        · rintro ⟨-, -, -, rfl⟩
          exact .inr ⟨rfl, rfl⟩
      · rw [Function.update_of_ne hxc]
        simp [hxc, hyc]
  · obtain ⟨n, hn, hbuf⟩ := direnter_dirbuf hm
    rw [hbuf]
    by_cases hdc : d = c
    · subst hdc
      have hnew : n = ⟨mkdirTemplate T.ftype T.bsize d p, []⟩ :=
        Option.some.inj (hn.symm.trans set_dir_self)
      rw [hnew]
      exact mkdirTemplate_template T.ftype T.bsize d p
    · exact h.template d n ((set_dir_ne hdc).symm.trans hn) hd

/-- An empty directory is removed. -/
theorem Inv.rmdir (h : T.Inv) (hc : T.Entry c p) (hempty : ∀ x, ¬T.Entry x c) : Inv ((T.dirremove c p).set c none) := by
  obtain ⟨hcm, hpm, hroot, hcp⟩ := (h.entry c p).1 hc
  have hleaf : ∀ x ∈ T.dirs, x ≠ ROOTINO → T.dotdot x ≠ c := fun x hx hxr hxc =>
    hempty x ((h.entry x c).2 ⟨hx, hcm, hxr, hxc⟩)
  have hdirs : ((T.dirremove c p).set c none).dirs = T.dirs \ {c} := by
    rw [set_dirs_none, dirremove_dirs]
  have hdotdot : ∀ x, x ≠ c → ((T.dirremove c p).set c none).dotdot x = T.dotdot x := fun x hx => by
    rw [set_dotdot_ne hx, dirremove_dotdot]
  have htree := h.tree.remove hroot hleaf
  refine ⟨?_, fun x y => ?_, h.template_of rfl fun d m hm hd => ?_⟩
  · rw [hdirs]
    refine ⟨htree.root_mem, fun d hd hdr => ?_, fun d hd => ?_⟩
    · rw [hdotdot d hd.2]
      exact htree.par_mem d hd hdr
    · refine reaches_congr (d := c) hdotdot (htree.rooted d hd) fun z hz => ?_
      exact (htree.mem_of_reaches hd hz).2
  · rw [set_entry, dirremove_entry, h.entry, hdirs]
    by_cases hyc : y = c
    · subst hyc
      simp
    · rw [if_neg hyc]
      by_cases hxc : x = c
      · subst hxc
        simp only [Set.mem_sdiff, Set.mem_singleton_iff, not_true_eq_false, and_false, false_and, iff_false,
          true_and]
        rintro ⟨⟨-, -, -, hxy⟩, hne⟩
        exact hne (hxy.symm.trans hcp)
      · rw [hdotdot x hxc]
        simp [hxc, hyc]
  · by_cases hdc : d = c
    · subst hdc
      rw [set_dir_self] at hm
      cases hm
    · rw [set_dir_ne hdc] at hm
      obtain ⟨n, hn, hbuf⟩ := dirremove_dirbuf hm
      exact ⟨n, hn, by rw [hbuf], by rw [hbuf]⟩

/-- **A directory is moved** to one that is neither itself nor below it. -/
theorem Inv.move (h : T.Inv) (hc : T.Entry c p) (hq : q ∈ T.dirs) (hpq : p ≠ q) (hcq : c ≠ q)
    (habove : ¬Above ROOTINO T.dotdot c q) : Inv (((T.direnter c q).setDotdot c q).dirremove c p) := by
  obtain ⟨hcm, hpm, hroot, hcp⟩ := (h.entry c p).1 hc
  have hcm' : c ∈ (T.direnter c q).dirs := by
    rw [direnter_dirs]
    exact hcm
  have hdirs : (((T.direnter c q).setDotdot c q).dirremove c p).dirs = T.dirs := by
    rw [dirremove_dirs, setDotdot_dirs hcm', direnter_dirs]
  have hdotdot : (((T.direnter c q).setDotdot c q).dirremove c p).dotdot = Function.update T.dotdot c q := by
    rw [dirremove_dotdot, setDotdot_dotdot hcm', direnter_dotdot]
  refine ⟨?_, fun x y => ?_, h.template_of rfl fun d m hm hd => ?_⟩
  · rw [hdirs, hdotdot]
    exact h.tree.move hroot hq hcq habove
  · rw [dirremove_entry, setDotdot_entry, direnter_entry hq, h.entry, hdirs, hdotdot]
    by_cases hxc : x = c
    · subst hxc
      rw [Function.update_self, hcp]
      constructor
      · rintro ⟨⟨hx, hy, hr, rfl⟩ | ⟨-, rfl⟩, hne⟩
        · exact absurd ⟨rfl, rfl⟩ hne
        · exact ⟨hcm, hq, hroot, rfl⟩
      · rintro ⟨-, -, -, rfl⟩
        exact ⟨.inr ⟨rfl, rfl⟩, fun hne => hpq hne.2.symm⟩
    · rw [Function.update_of_ne hxc]
      simp [hxc]
  · obtain ⟨n, hn, hbuf⟩ := dirremove_dirbuf hm
    rw [hbuf]
    by_cases hdc : d = c
    · subst hdc
      obtain ⟨n', hn', rfl⟩ := Option.map_eq_some_iff.1 (set_dir_self.symm.trans hn)
      obtain ⟨n'', hn'', hbuf'⟩ := direnter_dirbuf hn'
      refine ⟨n'', hn'', ?_, ?_⟩
      · rw [← hbuf']
      · rw [← hbuf']
    · obtain ⟨n', hn', hbuf'⟩ := direnter_dirbuf ((set_dir_ne hdc).symm.trans hn)
      exact ⟨n', hn', by rw [hbuf'], by rw [hbuf']⟩

end Keeps

/-! ### The walk -/

section Walk

variable {T} {c d p q x a source target : ℕ} {n : DirNode}

/-- An ancestor, by the entries, is above, by the `..`. -/
theorem Inv.ancestor_iff (h : T.Inv) (hd : d ∈ T.dirs) : T.Ancestor a d ↔ Above ROOTINO T.dotdot a d := by
  constructor
  · exact TransGen.mono (fun c p hc => ((h.entry c p).1 hc).2.2) d a
  · intro ha
    have hstep : ∀ y ∈ T.dirs, ∀ z, Up ROOTINO T.dotdot y z → T.Entry y z := by
      rintro y hy z ⟨hyr, rfl⟩
      exact (h.entry y _).2 ⟨hy, h.tree.par_mem y hy hyr, hyr, rfl⟩
    induction ha with
    | single hup => exact .single (hstep d hd _ hup)
    | tail hrest hup ih => exact .tail ih (hstep _ (h.tree.mem_of_reaches hd hrest.to_reflTransGen) _ hup)

/-- **The `..` is recognised** exactly on volumes with the feature. -/
theorem Inv.isDotDot_iff (h : T.Inv) (hn : T.dir d = some n) (hd : d ≠ ROOTINO) :
    n.dirbuf.dotdot.isDotDot ↔ T.ftype = true := by
  obtain ⟨htype, hname⟩ := h.template d n hn hd
  unfold DirTemplate.isDotDot Ext2fsDirTemplate.dotdot
  rw [htype, hname]
  cases T.ftype <;> simp [EXT2_FT_UNKNOWN, EXT2_FT_DIR]

/-- A round of the walk on a volume with the feature. -/
theorem checkpathLoop_ftype (h : T.Inv) (hft : T.ftype = true) (hx : x ∈ T.dirs) (hxr : x ≠ ROOTINO)
    (fuel round : ℕ) : (checkpathLoop T.walkEnv source (fuel + 1) round x).1 =
      if T.dotdot x = source then .done (some (.other .einval))
      else if T.dotdot x = ROOTINO then .done none
      else (checkpathLoop T.walkEnv source fuel (round + 1) (T.dotdot x)).1 := by
  obtain ⟨n, hn⟩ := mem_dirs.1 hx
  have hdotdot : n.dirbuf.dotdot.isDotDot := (h.isDotDot_iff hn hxr).2 hft
  have hino : n.dirbuf.dotdot.dotdotIno = T.dotdot x := (dotdot_of hn).symm
  have hread : T.walkEnv.read round x = .ok n.dirbuf.dotdot := by
    show (match T.dir x with | some n => _ | none => _) = _
    rw [hn]
  have hvget : T.walkEnv.vget round (T.dotdot x) = .ok (T.dotdot x) := if_pos (h.tree.par_mem x hx hxr)
  rw [checkpathLoop, if_neg (by rw [show T.walkEnv.isDir x = true from hx]; decide), hread]
  simp only [hdotdot, not_true_eq_false, if_false, hino, hvget]
  split
  · rfl
  · split <;> rfl

/-- Without the feature the walk ends at its first directory. -/
theorem checkpathLoop_noftype (h : T.Inv) (hft : T.ftype = false) (hx : x ∈ T.dirs) (hxr : x ≠ ROOTINO)
    (fuel round : ℕ) : (checkpathLoop T.walkEnv source (fuel + 1) round x).1 = .done (some (.other .enotdir)) := by
  obtain ⟨n, hn⟩ := mem_dirs.1 hx
  have hdotdot : ¬n.dirbuf.dotdot.isDotDot := fun hd =>
    Bool.false_ne_true (hft.symm.trans ((h.isDotDot_iff hn hxr).1 hd))
  have hread : T.walkEnv.read round x = .ok n.dirbuf.dotdot := by
    show (match T.dir x with | some n => _ | none => _) = _
    rw [hn]
  rw [checkpathLoop, if_neg (by rw [show T.walkEnv.isDir x = true from hx]; decide), hread]
  simp only [hdotdot, not_false_eq_true, if_true]

/-- **Where the walk ends it is right.** -/
theorem checkpathLoop_right (h : T.Inv) (hft : T.ftype = true) {fuel round : ℕ} {e : Option RenameErrno}
    (hx : x ∈ T.dirs) (hxr : x ≠ ROOTINO) (he : (checkpathLoop T.walkEnv source fuel round x).1 = .done e) :
    (Above ROOTINO T.dotdot source x → e = some (.other .einval)) ∧
      (¬Above ROOTINO T.dotdot source x → e = none) := by
  induction fuel generalizing round x with
  | zero => cases he
  | succ fuel ih =>
    rw [checkpathLoop_ftype h hft hx hxr] at he
    rw [above_iff hxr]
    split at he
    · next hsource =>
      obtain rfl := RenameRes.done.inj he
      exact ⟨fun _ => rfl, fun hn => absurd (.inl hsource.symm) hn⟩
    · next hsource =>
      split at he
      · next hroot =>
        obtain rfl := RenameRes.done.inj he
        refine ⟨fun habove => ?_, fun _ => rfl⟩
        rcases habove with hc | hc
        · exact absurd hc.symm hsource
        · rw [hroot] at hc
          exact absurd hc not_above_root
      · next hroot =>
        obtain ⟨h1, h2⟩ := ih (h.tree.par_mem x hx hxr) hroot he
        exact ⟨fun habove => h1 (habove.resolve_left (Ne.symm hsource)), fun hn => h2 fun hc => hn (.inr hc)⟩

/-- **The walk ends**, at the root at the latest. -/
theorem checkpathLoop_ends (source : ℕ) (h : T.Inv) (hft : T.ftype = true) (hx : x ∈ T.dirs) (hxr : x ≠ ROOTINO) :
    ∃ fuel, ∀ round, ∃ e, (checkpathLoop T.walkEnv source fuel round x).1 = .done e := by
  have hway := h.tree.rooted x hx
  induction hway using ReflTransGen.head_induction_on with
  | refl => exact absurd rfl hxr
  | @head x y hup _ ih =>
    obtain ⟨-, rfl⟩ := hup
    by_cases hroot : T.dotdot x = ROOTINO
    · refine ⟨1, fun round => ?_⟩
      rw [checkpathLoop_ftype h hft hx hxr, if_pos hroot]
      split
      · exact ⟨_, rfl⟩
      · exact ⟨_, rfl⟩
    · obtain ⟨fuel, hfuel⟩ := ih (h.tree.par_mem x hx hxr) hroot
      refine ⟨fuel + 1, fun round => ?_⟩
      rw [checkpathLoop_ftype h hft hx hxr, if_neg hroot]
      split
      · exact ⟨_, rfl⟩
      · exact hfuel (round + 1)

/-- **On a volume with the feature** the walk is right. -/
theorem checkpath_ftype (h : T.Inv) (hft : T.ftype = true) (htarget : target ∈ T.dirs) :
    T.CheckpathRight source target := by
  unfold CheckpathRight ext2Checkpath
  by_cases heq : target = source
  · exact ⟨0, some (.other .eexist), by rw [if_pos heq], fun _ => rfl, fun hne => absurd heq.symm hne,
      fun hne => absurd heq.symm hne⟩
  simp only [if_neg heq, h.ancestor_iff htarget]
  by_cases hroot : target = ROOTINO
  · simp only [if_pos hroot]
    refine ⟨0, none, rfl, fun hc => absurd hc.symm heq, fun _ habove => ?_, fun _ _ => rfl⟩
    rw [hroot] at habove
    exact absurd habove not_above_root
  · simp only [if_neg hroot]
    obtain ⟨fuel, hfuel⟩ := checkpathLoop_ends source h hft htarget hroot
    obtain ⟨e, he⟩ := hfuel 0
    obtain ⟨h1, h2⟩ := checkpathLoop_right h hft htarget hroot he
    exact ⟨fuel, e, he, fun hc => absurd hc.symm heq, fun _ => h1, fun _ => h2⟩

/-- **Without the feature** the walk refuses every target below the root, other than the source. -/
theorem checkpath_noftype (h : T.Inv) (hft : T.ftype = false) (htarget : target ∈ T.dirs)
    (hne : target ≠ source) (hroot : target ≠ ROOTINO) (fuel : ℕ) :
    (ext2Checkpath T.walkEnv source target (fuel + 1) target).1 = .done (some (.other .enotdir)) := by
  unfold ext2Checkpath
  rw [if_neg hne, if_neg hroot]
  exact checkpathLoop_noftype h hft htarget hroot fuel 0

/-- A move that is allowed goes to a directory that is not below. -/
theorem Inv.not_above_of_mayMove (h : T.Inv) (hft : T.ftype = true) (hq : q ∈ T.dirs) (hmay : T.MayMove c q) :
    c ≠ q ∧ ¬Above ROOTINO T.dotdot c q := by
  obtain ⟨fuel, hfuel⟩ := hmay
  unfold ext2Checkpath at hfuel
  by_cases heq : q = c
  · rw [if_pos heq] at hfuel
    cases hfuel
  rw [if_neg heq] at hfuel
  refine ⟨Ne.symm heq, fun habove => ?_⟩
  by_cases hroot : q = ROOTINO
  · rw [hroot] at habove
    exact not_above_root habove
  · rw [if_neg hroot] at hfuel
    have hright := checkpathLoop_right h hft hq hroot hfuel
    exact absurd (hright.1 habove) (by simp)

end Walk

/-! ### What the driver builds -/

section Builds

variable {T T' : DirTree}

theorem start_inv (ftype : Bool) (bsize : ℕ) : (start ftype bsize).Inv := by
  have hdirs : ∀ d, d ∈ (start ftype bsize).dirs ↔ d = ROOTINO := by
    intro d
    show (if d = ROOTINO then some _ else none : Option DirNode).isSome = true ↔ _
    by_cases hd : d = ROOTINO <;> simp [hd]
  refine ⟨⟨(hdirs _).2 rfl, fun d hd hne => absurd ((hdirs d).1 hd) hne, fun d hd => ?_⟩, fun c p => ?_,
    fun d n hn hne => ?_⟩
  · rw [(hdirs d).1 hd]
  · constructor
    · rintro ⟨n, hn, hc⟩
      have hn' : (if p = ROOTINO then some (⟨mkdirTemplate ftype bsize ROOTINO ROOTINO, []⟩ : DirNode) else none) =
          some n := hn
      split at hn'
      · obtain rfl := Option.some.inj hn'
        exact absurd hc List.not_mem_nil
      · cases hn'
    · exact fun h => absurd ((hdirs c).1 h.1) h.2.2.1
  · exact absurd ((hdirs d).1 (mem_dirs.2 ⟨n, hn⟩)) hne

/-- **A change keeps the invariant.** -/
theorem Step.keeps (hstep : Step T T') (h : T.Inv) : T'.Inv := by
  cases hstep with
  | mkdir hp hc => exact h.mkdir hp hc
  | rmdir hc hempty => exact h.rmdir hc hempty
  | @move c p q n hc hq hpq hmay hn hdotdot =>
    have hroot := ((h.entry c p).1 hc).2.2.1
    obtain ⟨hcq, habove⟩ := h.not_above_of_mayMove ((h.isDotDot_iff hn hroot).1 hdotdot) hq hmay
    exact h.move hc hq hpq hcq habove
  | @replace c p q x n hc hx hpq hmay hempty hcx hn hdotdot =>
    have hroot := ((h.entry c p).1 hc).2.2.1
    have hq := ((h.entry x q).1 hx).2.1
    obtain ⟨hcq, habove⟩ := h.not_above_of_mayMove ((h.isDotDot_iff hn hroot).1 hdotdot) hq hmay
    have h' := h.rmdir hx hempty
    have hqx : q ≠ x := fun hqx => hempty x (hqx ▸ hx)
    have hentry : ∀ y z, ((T.dirremove x q).set x none).Entry y z → T.Entry y z := by
      intro y z hyz
      rw [set_entry] at hyz
      split at hyz
      · obtain ⟨n, hn, -⟩ := hyz
        cases hn
      · exact (dirremove_entry.1 hyz).1
    have hq' : q ∈ ((T.dirremove x q).set x none).dirs := by
      rw [set_dirs_none, dirremove_dirs]
      exact ⟨hq, hqx⟩
    have hc' : ((T.dirremove x q).set x none).Entry c p := by
      have hpx : p ≠ x := fun hpx => hempty c (hpx ▸ hc)
      rw [set_entry, if_neg hpx, dirremove_entry]
      exact ⟨hc, fun heq => hcx heq.1⟩
    refine h'.move hc' hq' hpq hcq fun hc => habove ?_
    rw [← h'.ancestor_iff hq'] at hc
    rw [← h.ancestor_iff hq]
    exact TransGen.mono hentry q c hc

/-- **Every tree that the driver builds** has the invariant. -/
theorem Built.inv (h : T.Built) : T.Inv := by
  obtain ⟨ftype, bsize, hrun⟩ := h
  induction hrun with
  | refl => exact start_inv ftype bsize
  | tail _ hstep ih => exact hstep.keeps ih

/-- **In a tree that the driver has built** the walk is right for every two directories, and every `..` is
recognised, exactly on volumes with the feature, but for a tree of the root alone. -/
theorem checkpath_right_iff (h : T.Built) : T.Right ↔ T.ftype = true ∨ ∀ d ∈ T.dirs, d = ROOTINO := by
  have hinv := h.inv
  constructor
  · rintro ⟨-, hdotdot⟩
    by_contra hnone
    obtain ⟨hft, hmore⟩ := not_or.1 hnone
    push Not at hmore
    obtain ⟨d, hd, hroot⟩ := hmore
    obtain ⟨n, hn⟩ := mem_dirs.1 hd
    exact hft ((hinv.isDotDot_iff hn hroot).1 (hdotdot d n hn hroot))
  · rintro (hft | hroot)
    · exact ⟨fun _ _ target htarget => checkpath_ftype hinv hft htarget,
        fun d n hn hd => (hinv.isDotDot_iff hn hd).2 hft⟩
    · refine ⟨fun source hs target ht => ⟨0, some (.other .eexist), ?_, fun _ => rfl, fun hne => ?_, fun hne => ?_⟩,
        fun d n hn hd => absurd (hroot d (mem_dirs.2 ⟨n, hn⟩)) hd⟩
      · unfold ext2Checkpath
        rw [if_pos ((hroot target ht).trans (hroot source hs).symm)]
      · exact absurd ((hroot source hs).trans (hroot target ht).symm) hne
      · exact absurd ((hroot source hs).trans (hroot target ht).symm) hne

/-- Two directories below the root. -/
def twoDirs (ftype : Bool) : DirTree :=
  let T := ((start ftype 1024).set 12 (some ⟨mkdirTemplate ftype 1024 12 2, []⟩)).direnter 12 2
  (T.set 13 (some ⟨mkdirTemplate ftype 1024 13 2, []⟩)).direnter 13 2

theorem twoDirs_built (ftype : Bool) : (twoDirs ftype).Built :=
  ⟨ftype, 1024, .tail (.tail .refl (.mkdir rfl Bool.false_ne_true)) (.mkdir rfl Bool.false_ne_true)⟩

theorem twoDirs_right : (twoDirs true).Right := (checkpath_right_iff (twoDirs_built true)).2 (.inl rfl)

/-- Without the feature the walk from one to the other ends with `ENOTDIR`. -/
theorem twoDirs_wrong : (twoDirs false).Built ∧ ¬(twoDirs false).CheckpathRight 12 13 ∧ ¬(twoDirs false).Right := by
  have hmem : ∀ d, d = 12 ∨ d = 13 → d ∈ (twoDirs false).dirs := by
    rintro d (rfl | rfl) <;> rfl
  have hinv := (twoDirs_built false).inv
  have hup : ¬(twoDirs false).Ancestor 12 13 := by
    rw [hinv.ancestor_iff (hmem 13 (.inr rfl)), above_iff (by decide), show (twoDirs false).dotdot 13 = ROOTINO from rfl]
    rintro (hc | hc)
    · exact absurd hc (by decide)
    · exact not_above_root hc
  have hwrong : ¬(twoDirs false).CheckpathRight 12 13 := by
    rintro ⟨fuel, e, he, -, -, hnone⟩
    rw [hnone (by decide) hup] at he
    cases fuel with
    | zero => cases he
    | succ fuel =>
      rw [checkpath_noftype hinv rfl (hmem 13 (.inr rfl)) (by decide) (by decide)] at he
      exact absurd he (by simp)
  exact ⟨twoDirs_built false, hwrong, fun hright => hwrong (hright.1 12 (hmem 12 (.inl rfl)) 13 (hmem 13 (.inr rfl)))⟩

end Builds

end DirTree

end Ext2fs
