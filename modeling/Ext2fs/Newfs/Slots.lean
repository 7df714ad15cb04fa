import Ext2fs.Newfs.MapsRight

/-!
# Where `iput` puts an inode

`mke2fs` fills in `sblock` by hand, so that the macros of the driver work in it.  Two members that they
read are never assigned, `e2fs_ipg` and `e2fs_gdsize`: `ino_to_cg` then divides by 0, and every
descriptor that `EXT2_GD` gives is the first one.

* `SlotRight` — the macros name the place that the number of the inode says;
* `slotRight_iff` — in a right layout they do for the inodes of the first group, and for no other;
* **`slots_never`** — the members are not what the layout says, for any call.
-/

namespace Ext2fs.Newfs

open Tracked Fsck

/-! ### What is to be -/

/-- The block and the slot of an inode are those in the table of its group. -/
structure SlotRight (p : Params) (sb : Sb) (gd : List Desc) (ino : ℕ) : Prop where
  block : (sblock p sb).ino_to_fsba gd ino =
    gd[(ino - 1) / sb.ipg]?.map fun d => d.i_tables + (ino - 1) % sb.ipg / p.ipb
  slot : (sblock p sb).ino_to_fsbo ino = (ino - 1) % sb.ipg % p.ipb

/-- The members that the macros divide by or multiply with are those of the layout. -/
structure MembersRight (p : Params) (sb : Sb) : Prop where
  e2fs_ipg : (sblock p sb).e2fs_ipg = sb.ipg ∧ (sblock p sb).e2fs_ipg ≠ 0
  e2fs_ipb : (sblock p sb).e2fs_ipb = p.bsize / p.inodesize ∧ (sblock p sb).e2fs_ipb ≠ 0
  e2fs_gdsize : (sblock p sb).e2fs_gdsize = EXT2_MIN_GD_SIZE ∧ (sblock p sb).e2fs_gdsize ≠ 0
  disk_ipg : (sblock p sb).disk_ipg = sb.ipg ∧ (sblock p sb).disk_ipg ≠ 0

/-- **`iput` stores the created inodes in their slots**, and the macros are given what they need. -/
structure InodesRight (o : Options) : Prop where
  slots : ∀ ino ∈ created (newfs o).value.1,
    SlotRight (main o).value (newfs o).value.1 (blank (newfs o).value.2).gd ino
  members : MembersRight (main o).value (newfs o).value.1

/-! ### What there is -/

section

variable {p : Params} {sb : Sb} {gd : List Desc} {ino : ℕ}

/-- The stride of `EXT2_GD` is 0. -/
theorem descAt_eq (p : Params) (sb : Sb) (gd : List Desc) (cg : ℕ) :
    descAt gd (sblock p sb).e2fs_gdsize cg = gd[0]? :=
  congrArg (gd[·]?) ((congrArg (· / EXT2_MIN_GD_SIZE) (Nat.mul_zero cg)).trans (Nat.zero_div _))

theorem ino_to_fsba_eq (p : Params) (sb : Sb) (gd : List Desc) (ino : ℕ) :
    (sblock p sb).ino_to_fsba gd ino =
      gd[0]?.map fun d => d.i_tables + (ino - 1) % sb.ipg / p.ipb := by
  unfold Sblock.ino_to_fsba
  rw [descAt_eq]
  rfl

/-- **In a right layout** the place is right exactly for the inodes of the first group. -/
theorem slotRight_iff (h : Ready p sb) (hino : (ino - 1) / sb.ipg < sb.gcount) :
    SlotRight p sb ((List.range sb.gcount).map (descOf p sb)) ino ↔ (ino - 1) / sb.ipg = 0 := by
  have hget : ∀ c, c < sb.gcount →
      ((List.range sb.gcount).map (descOf p sb))[c]? = some (descOf p sb c) := fun c hc => by
    rw [List.getElem?_map, List.getElem?_range hc]
    rfl
  have hslot : (sblock p sb).ino_to_fsbo ino = (ino - 1) % sb.ipg % p.ipb := by
    rw [h.ipg, Nat.mod_mul_left_mod]
    rfl
  constructor
  · intro hr
    have hblock := hr.block
    rw [ino_to_fsba_eq, hget 0 h.gcount, hget _ hino] at hblock
    have hsame : bitmapAt p sb 0 + 1 + 1 + (ino - 1) % sb.ipg / p.ipb =
        bitmapAt p sb ((ino - 1) / sb.ipg) + 1 + 1 + (ino - 1) % sb.ipg / p.ipb :=
      Option.some.inj hblock
    by_contra hne
    -- the table of another group is behind the first group
    have hat := h.toFits.bitmapAt_le 0
    have hend := h.end_le h.gcount
    have hmono := sb.base_mono (c := 0 + 1) (d := (ino - 1) / sb.ipg) (Nat.pos_of_ne_zero hne)
    have hle := h.toFits.base_le ((ino - 1) / sb.ipg)
    generalize (ino - 1) % sb.ipg / p.ipb = k at hsame
    omega
  · intro h0
    refine ⟨?_, hslot⟩
    rw [ino_to_fsba_eq, h0]

/-- **The members are never right.** -/
theorem not_membersRight (p : Params) (sb : Sb) : ¬MembersRight p sb := fun h => h.e2fs_ipg.2 rfl

end

/-! ### The macros of the inodes -/

/-- **For no call** are the macros given what they need: `e2fs_ipg` is 0, and so is `e2fs_gdsize`. -/
theorem slots_never (o : Options) : ¬InodesRight o := fun h => not_membersRight _ _ h.members

/-- The image of 64 MiB: the divisor of `ino_to_cg` and the stride of `EXT2_GD` are 0. -/
theorem smallImage_members :
    (smallImage.Valid ∧ Accepts (main smallImage).value ∧ LayoutRight smallImage) ∧
      (sblock (main smallImage).value (newfs smallImage).value.1).e2fs_ipg = 0 ∧
        (newfs smallImage).value.1.ipg = 2048 ∧
          (sblock (main smallImage).value (newfs smallImage).value.1).e2fs_gdsize = 0 ∧
            ¬InodesRight smallImage :=
  ⟨⟨smallImage_valid, smallImage_accepted, smallImage_right⟩, rfl, by decide +kernel, rfl,
    fun h => not_membersRight _ _ h.members⟩

end Ext2fs.Newfs
