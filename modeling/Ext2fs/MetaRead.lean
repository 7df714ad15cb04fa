import Ext2fs.Basic
import Ext2fs.Lib.Bytes

/-!
# Reading the contents of a directory or a link

`ext2_read` of a vnode that is no regular file goes through the blocks in the buffer cache
(`ext2_meta_read`): to the end of the range, or of the file.

* `metaRead` — the loop over the blocks;
* `metaRead_spec` — without errors it delivers the bytes of the range that the file has.
-/

namespace Ext2fs

open Bytes

/-- The rest of the kernel during a read. -/
structure MetaEnv where
  /-- `ext2_blkatoff` of a block of the file -/
  read : ℕ → Option Errno
  /-- `uiomove` at an offset -/
  uiomove : ℕ → Option Errno

/-- Blocks are read and bytes are moved without errors. -/
structure MetaEnv.Works (env : MetaEnv) : Prop where
  read : ∀ k, env.read k = none
  uiomove : ∀ o, env.uiomove o = none

/-- What a read has done: `error`, `uio_offset`, `uio_resid` and the bytes that were moved. -/
structure MetaReadRes where
  error : Option Errno
  offset : ℕ
  resid : ℕ
  data : List UInt8

section

variable (fs : MExt2fs) (env : MetaEnv) (m : Mem) (size : ℕ)

/-- `ext2_meta_read`, from an offset that is not negative; nothing when the rounds do not suffice. -/
def metaReadLoop : ℕ → ℕ → ℕ → List UInt8 → Option MetaReadRes
  | 0, _, _, _ => none
  | fuel + 1, off, resid, data =>
      if 0 < resid then
        if size ≤ off then some ⟨none, off, resid, data⟩
        else
          match env.read (fs.lblkno off) with
          | some e => some ⟨some e, off, resid, data⟩
          | none =>
              let bytes := fs.bsize - fs.blkoff off
              let bytes := if resid < bytes then resid else bytes
              let bytes := if size < off + bytes then size - off else bytes
              if bytes = 0 then some ⟨none, off, resid, data⟩
              else
                match env.uiomove off with
                | some e => some ⟨some e, off, resid, data⟩
                | none => metaReadLoop fuel (off + bytes) (resid - bytes) (data ++ slice m off bytes)
      else some ⟨none, off, resid, data⟩

/-- `ext2_meta_read` of `resid` bytes at an offset. -/
def metaRead (off resid : ℕ) : Option MetaReadRes := metaReadLoop fs env m size (resid + 1) off resid []

end

variable {fs : MExt2fs} {env : MetaEnv} {m : Mem} {size fuel off resid : ℕ}

theorem metaReadLoop_spec (h : env.Works) (hfuel : resid < fuel) (data : List UInt8) :
    metaReadLoop fs env m size fuel off resid data =
      some ⟨none, off + min resid (size - off), resid - min resid (size - off),
        data ++ slice m off (min resid (size - off))⟩ := by
  induction fuel generalizing off resid data with
  | zero => omega
  | succ fuel ih =>
    unfold metaReadLoop
    by_cases hgo : 0 < resid
    · rw [if_pos hgo]
      by_cases hend : size ≤ off
      · have hnone : min resid (size - off) = 0 := by omega
        rw [if_pos hend, hnone]
        simp [slice]
      · have hoff : fs.blkoff off < fs.bsize := Nat.mod_lt _ fs.bsize_pos
        rw [if_neg hend, h.read]
        simp only [h.uiomove]
        generalize hb : (if size < off + (if resid < fs.bsize - fs.blkoff off then resid
          else fs.bsize - fs.blkoff off) then size - off else
            if resid < fs.bsize - fs.blkoff off then resid else fs.bsize - fs.blkoff off) = b
        have hbytes : 0 < b ∧ b ≤ resid ∧ b ≤ size - off := by
          subst hb
          split <;> split <;> omega
        -- one block, and the rest of the range
        have hrest : min resid (size - off) = b + min (resid - b) (size - (off + b)) := by omega
        rw [if_neg (by omega), ih (by omega), hrest, List.append_assoc, slice_append, Nat.add_assoc,
          Nat.sub_sub]
    · have hnone : min resid (size - off) = 0 := by omega
      rw [if_neg hgo, hnone]
      simp [slice]

/-- **A read without errors** delivers the bytes of the range that the file has. -/
theorem metaRead_spec (h : env.Works) : metaRead fs env m size off resid =
    some ⟨none, off + min resid (size - off), resid - min resid (size - off),
      slice m off (min resid (size - off))⟩ :=
  metaReadLoop_spec h (Nat.lt_succ_self resid) []

/-- A range in the file is read as a whole. -/
theorem metaRead_within (h : env.Works) (hle : off + resid ≤ size) : metaRead fs env m size off resid =
    some ⟨none, off + resid, 0, slice m off resid⟩ := by
  have hall : min resid (size - off) = resid := by omega
  rw [metaRead_spec h, hall, Nat.sub_self]

end Ext2fs
