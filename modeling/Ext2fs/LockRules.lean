import Ext2fs.BallocLock

/-!
# The rules of the mount lock

The calls that use `um_lock`, each from its entry to its return: the lock is free at both ends, taken
only while it is free, released only while it is held, and held at every `LCK_MTX_ASSERT`.

`ext2_alloc` returns with the lock free in every case.  `ext2_ext_balloc` and `ext4_ext_new_block`
release it once more, and so does `ext2_balloc` when it gives an indirect block back that is not the
first one.

* `lockCall_disciplined_iff` — **exactly which calls keep to the rules**.
-/

namespace Ext2fs

open Mutex

/-- `EXT2_MAXSYMLINKLEN` -/
def EXT2_MAXSYMLINKLEN : ℕ := NSLOTS * 4

/-- One pointer word when the first `size` bytes of the 60 are cleared. -/
def clearBytes (size i word : ℕ) : ℕ :=
  let k := min 4 (size - 4 * i)
  word / 2 ^ (8 * k) * 2 ^ (8 * k)

/-- `bzero(&oip->i_shortlink, oip->i_size)`: the text of a symbolic link lies over the pointers. -/
def World.clearShortlink (w : World) : World :=
  { w with ip := { w.ip with
      db := fun i => clearBytes w.ip.size i (w.ip.db i)
      ib := fun i => clearBytes w.ip.size (i + NDADDR) (w.ip.ib i) } }

namespace Locking

variable (fs : MExt2fs)

/-- `ext2_balloc`; `extents` is `i_flag & IN_E4EXTENTS`. -/
def ext2Balloc (env : BallocLockEnv) (ext : ExtLockEnv) (extents sync clrbuf : Bool) (lbn : ℤ)
    (size : ℕ) (w : World) : Locked (Option Errno × World) :=
  if lbn < 0 then pure (some .efbig, w)
  else if extents then
    let r := ext2ExtBalloc fs ext clrbuf lbn.toNat size w
    ⟨(match r.value with | (.error e, w) => (some e, w) | (.ok _, w) => (none, w)), r.ops⟩
  else ballocMapped fs env sync lbn size w

/-- `ext2_truncate`; `link` says that the vnode is a symbolic link. -/
def ext2Truncate (env : TruncLockEnv) (extents link sync : Bool) (length : ℤ) (w : World) :
    Locked (Option Errno × World) :=
  if length < 0 then pure (some .einval, w)
  else if extents then
    releasing fs env.ext.bitmapOk w (ext2ExtTruncate fs env.ext length.toNat w).decided
  else if link = true ∧ w.ip.size < EXT2_MAXSYMLINKLEN then
    pure (ext2Update fs env.toUpdateEnv true (w.clearShortlink.setSize 0).mark)
  else truncMapped fs env sync length w

end Locking

/-- A call of one of the functions that use the lock. -/
inductive LockCall where
  | balloc (env : BallocLockEnv) (ext : ExtLockEnv) (extents sync clrbuf : Bool) (lbn : ℤ)
      (size : ℕ) (w : World)
  | extBalloc (env : ExtLockEnv) (clrbuf : Bool) (lbn size : ℕ) (w : World)
  | newBlock (bitmapOk : ℤ → Bool) (search : AllocEnv) (env : NewBlockEnv) (w : World)
  | valloc (env : VallocEnv) (isDir : Bool)
  | blkfree (bitmapOk : ℤ → Bool) (bno : ℤ) (w : World)
  | vfree (inodeBitmap : Bool)
  | truncate (env : TruncLockEnv) (extents link sync : Bool) (length : ℤ) (w : World)

namespace LockCall

variable (fs : MExt2fs)

/-- The operations on the lock between the entry of a call and its return. -/
def ops : LockCall → List Op
  | balloc env ext extents sync clrbuf lbn size w =>
      (Locking.ext2Balloc fs env ext extents sync clrbuf lbn size w).ops
  | extBalloc env clrbuf lbn size w => (Locking.ext2ExtBalloc fs env clrbuf lbn size w).ops
  | newBlock bitmapOk search env w => (Locking.ext4ExtNewBlock fs bitmapOk search env w).ops
  | valloc env isDir => (ext2Valloc fs env isDir).ops
  | blkfree bitmapOk bno w => (ext2Blkfree fs bitmapOk bno w).ops
  | vfree inodeBitmap => (ext2Vfree inodeBitmap).ops
  | truncate env extents link sync length w =>
      (Locking.ext2Truncate fs env extents link sync length w).ops

/-- The calls that keep to the rules: those that make no allocation in the extent code, whose searches
come to no block with a number that is 0 or negative as an `int32_t`, and that give back no indirect
block besides the first one. -/
def Keeps : LockCall → Prop
  | balloc env ext extents sync _ lbn size w =>
      if extents then 0 ≤ lbn → Locking.ExtKeeps fs ext lbn.toNat w
      else Locking.MappedKeeps fs env sync lbn size w
  | extBalloc env _ lbn _ w => Locking.ExtKeeps fs env lbn w
  | newBlock _ _ _ _ => False
  | valloc _ _ => True
  | blkfree _ _ _ => True
  | vfree _ => True
  | truncate env extents link sync length w =>
      extents = true ∨ link = true ∧ w.ip.size < EXT2_MAXSYMLINKLEN ∨
        Locking.TruncKeeps fs env sync length w

end LockCall

section

variable (fs : MExt2fs)

theorem Locking.ext2Balloc_ends (env : BallocLockEnv) (ext : ExtLockEnv)
    (extents sync clrbuf : Bool) (lbn : ℤ) (size : ℕ) (w : World) :
    Ends (Locking.ext2Balloc fs env ext extents sync clrbuf lbn size w).ops
      ((LockCall.balloc env ext extents sync clrbuf lbn size w).Keeps fs) := by
  unfold Locking.ext2Balloc LockCall.Keeps
  by_cases hlbn : lbn < 0
  · rw [if_pos hlbn]
    refine (Ends.pure _).of_iff ?_
    cases extents with
    | true => simp [not_le.2 hlbn]
    | false => simp [Locking.MappedKeeps, not_le.2 hlbn]
  · rw [if_neg hlbn]
    cases extents with
    | true =>
      simp only [if_true, not_lt.1 hlbn, true_implies]
      exact Locking.ext2ExtBalloc_ends fs ext clrbuf lbn.toNat size w
    | false =>
      simp only [Bool.false_eq_true, if_false]
      exact Locking.ballocMapped_ends fs env sync lbn size w

theorem Locking.ext2Truncate_ends (env : TruncLockEnv) (extents link sync : Bool) (length : ℤ)
    (w : World) :
    Ends (Locking.ext2Truncate fs env extents link sync length w).ops
      ((LockCall.truncate env extents link sync length w).Keeps fs) := by
  unfold Locking.ext2Truncate LockCall.Keeps
  by_cases hneg : length < 0
  · rw [if_pos hneg]
    exact (Ends.pure _).of_iff (by simp [Locking.TruncKeeps, not_le.2 hneg])
  · rw [if_neg hneg]
    cases extents with
    | true =>
      rw [if_pos rfl]
      exact (Locking.releasing_ends fs _ _ _).of_iff (by simp)
    | false =>
      rw [if_neg Bool.false_ne_true]
      by_cases hlink : link = true ∧ w.ip.size < EXT2_MAXSYMLINKLEN
      · rw [if_pos hlink]
        exact (Ends.pure _).of_iff (by simp [hlink])
      · rw [if_neg hlink]
        exact (Locking.truncMapped_ends fs env sync length w).of_iff (by simp [hlink])

/-- **The rules of the mount lock.**  For every call, whatever fails and however many groups are tried:
the lock is taken only while free, released only while held, held at every assertion and free on
return if and only if the call is one of `Keeps`. -/
theorem lockCall_disciplined_iff (c : LockCall) : Disciplined (c.ops fs) ↔ c.Keeps fs := by
  cases c with
  | balloc env ext extents sync clrbuf lbn size w =>
    exact (Locking.ext2Balloc_ends fs env ext extents sync clrbuf lbn size w).disciplined_iff
  | extBalloc env clrbuf lbn size w =>
    exact (Locking.ext2ExtBalloc_ends fs env clrbuf lbn size w).disciplined_iff
  | newBlock bitmapOk search env w =>
    exact (Locking.ext4ExtNewBlock_ends fs bitmapOk search env w).disciplined_iff
  | valloc env isDir => exact (ext2Valloc_ends fs env isDir).disciplined_iff
  | blkfree bitmapOk bno w => exact (blkfreeOps_ends fs bitmapOk bno).disciplined_iff
  | vfree inodeBitmap => exact (ext2Vfree_ends inodeBitmap).disciplined_iff
  | truncate env extents link sync length w =>
    exact (Locking.ext2Truncate_ends fs env extents link sync length w).disciplined_iff

/-- A search whose first group has the free block 100. -/
def foundAt100 : AllocEnv where
  fbcount := 1
  suser := true
  inoCg := 0
  group := fun _ _ => ⟨true, true, true, some 100⟩

/-- `ext4_ext_new_block` with everything succeeding: `ext2_alloc` has released the lock, and
`EXT2_UNLOCK` releases it again. -/
theorem newBlock_undisciplined :
    ¬ Disciplined ((LockCall.newBlock (fun _ => true) foundAt100 ⟨some 100, true, true⟩
      (World.empty fun b => decide (b = 100))).ops volume4k) := by
  decide +kernel

end

end Ext2fs
