import Ext2fs.Newfs.Groups

/-!
# What holds all through a run

What a run does is to write, to read, and to change the descriptors and totals in memory.  Where a
property of the volume is kept by each write, and does not depend on the memory, it holds wherever the run
ends.

* `Robust` — what a property has to be like;
* `validate_keeps`, `fsinit_keeps`, `construct_keeps` — the parts of a run keep it;
* `Asks` — the writes that were asked for have a property.
-/

namespace Ext2fs.Newfs

open Tracked Fsck Stopping

section

variable {raw : Data → Bitmap} {p : Params} {sb : Sb} {I : Volume → Prop}

/-! ### The parts of a run -/

/-- **A property of the volume** that each write of a block keeps, whatever is in memory. -/
structure Robust (p : Params) (I : Volume → Prop) : Prop where
  block : ∀ b data, Keeps I (wtfsBlock p b data)
  memory : ∀ vol gd fb fi, I vol → I { vol with gd := gd, fbcount := fb, ficount := fi }

theorem rdfsBlock_keeps (b : ℕ) : Keeps I (rdfsBlock p b) :=
  (Keeps.assert _).bind fun _ => Keeps.get.bind fun _ => Keeps.pure _

/-- What comes before the groups. -/
theorem validate_keeps (hlast : Keeps I (wtfs p .lastSector (p.fssize - 1) p.sectorsize []))
    (hzap : ∀ bno size, Keeps I (wtfs p .zap bno size [])) : Keeps I (validate p sb) := by
  have hold : ∀ sec, Keeps I (zap_old_sblock p sb sec) := fun sec => by
    unfold zap_old_sblock
    refine .ite (.pure _) (.ite (.pure _) (.ite (.ite ?_ (.pure _)) (.pure _)))
    exact hzap _ _
  refine hlast.bind fun _ => Keeps.each (fun pbsize => ?_) _
  exact (Keeps.ofOption _).bind fun blocks => Keeps.each (fun _ => hold _) blocks

/-- A group. -/
theorem initcg_keeps_of (hblock : ∀ b data, Keeps I (wtfsBlock p b data))
    (hsuper : ∀ c, Keeps I (writeSuper p sb c)) (c : ℕ) : Keeps I (initcg p sb c) := by
  unfold initcg
  refine (Keeps.when (hsuper c)).bind fun _ => Keeps.get.bind fun vol => ?_
  refine (Keeps.ofOption _).bind fun d => (hblock _ _).bind fun _ => ?_
  refine Keeps.bind ((Keeps.assert _).bind fun _ => hblock _ _) fun _ => ?_
  exact Keeps.each (fun i => hblock _ _) _

theorem initcg_keeps (h : Robust p I) (hsuper : ∀ c, Keeps I (writeSuper p sb c)) (c : ℕ) :
    Keeps I (initcg p sb c) := initcg_keeps_of h.block hsuper c

/-- A block that is taken, or none. -/
theorem alloc_keeps (h : Robust p I) (size mode : ℕ) : Keeps I (alloc raw p sb size mode) := by
  unfold alloc
  refine Keeps.get.bind fun vol => (Keeps.ofOption _).bind fun d => ?_
  refine .ite (.pure _) (.ite (.pure _) ?_)
  refine (rdfsBlock_keeps _).bind fun data => ?_
  cases firstClear (data.map raw) (sb.bpg / NBBY) with
  | none => exact .pure _
  | some bno =>
    refine (h.block _ _).bind fun _ => Keeps.bind (Keeps.modify fun vol hI => ?_) fun _ => .pure _
    exact h.memory vol _ _ _ hI

theorem allocOrStop_keeps (h : Robust p I) (size mode : ℕ) :
    Keeps I (allocOrStop raw p sb size mode) :=
  (alloc_keeps h size mode).bind fun _ => (Keeps.assert _).bind fun _ => Keeps.pure _

/-- An inode. -/
theorem iput_keeps (h : Robust p I) (ip : Node) (ino : ℕ) : Keeps I (iput raw p sb ip ino) := by
  have hmark : Keeps I (markInode raw p sb ino) := by
    unfold markInode
    refine Keeps.get.bind fun vol => (Keeps.ofOption _).bind fun d => (Keeps.ofOption _).bind fun _ => ?_
    refine (Keeps.assert _).bind fun _ => (rdfsBlock_keeps _).bind fun data => ?_
    refine Keeps.bind ((Keeps.assert _).bind fun _ => h.block _ _) fun _ => ?_
    exact Keeps.modify fun vol hI => h.memory vol _ _ _ hI
  refine (Keeps.when hmark).bind fun _ => (Keeps.assert _).bind fun _ => ?_
  refine Keeps.get.bind fun vol => (Keeps.ofOption _).bind fun b => ?_
  exact (rdfsBlock_keeps b).bind fun _ => h.block _ _

/-- The inodes and directories, from what is known of a write, of a block and of an inode. -/
theorem fsinit_keeps_of (hblock : ∀ b data, Keeps I (wtfsBlock p b data))
    (halloc : ∀ size mode, Keeps I (allocOrStop raw p sb size mode))
    (hiput : ∀ ip ino, Keeps I (iput raw p sb ip ino)) : Keeps I (fsinit raw p sb) := by
  have hresize : Keeps I (init_resizeino raw p sb) := by
    refine (halloc _ _).bind fun dindir => ?_
    refine (Keeps.each (fun i => ?_) _).bind fun _ => (hblock _ _).bind fun _ => hiput _ _
    exact (Keeps.assert _).bind fun _ => (Keeps.assert _).bind fun _ => hblock _ _
  have hlost : Keeps I (init_lostfound raw p sb) := by
    refine (halloc _ _).bind fun blk => ?_
    refine (Keeps.gather (halloc _ _) _).bind fun blks => ?_
    refine (hblock _ _).bind fun _ => ?_
    exact (Keeps.each (fun b => hblock _ _) blks).bind fun _ => hiput _ _
  have hroot : Keeps I (init_root raw p sb) :=
    (halloc _ _).bind fun blk => (hblock _ _).bind fun _ => hiput _ _
  exact (Keeps.when hresize).bind fun _ => hlost.bind fun _ => hroot

/-- The inodes and directories. -/
theorem fsinit_keeps (h : Robust p I) : Keeps I (fsinit raw p sb) :=
  fsinit_keeps_of h.block (allocOrStop_keeps h) (iput_keeps h)

/-- **Everything behind the check of the volume.** -/
theorem construct_keeps (h : Robust p I) (hsuper : ∀ c, Keeps I (writeSuper p sb c)) :
    Keeps I (construct raw p sb) :=
  (Keeps.each (initcg_keeps h hsuper) _).bind fun _ => (fsinit_keeps h).bind fun _ => hsuper 0

/-! ### The writes -/

/-- The descriptors are in `C`, and the writes so far in `G`. -/
structure Asks (C : List Desc → Prop) (G : Request → Prop) (vol : Volume) : Prop where
  gd : C vol.gd
  asked : ∀ r ∈ vol.asked, G r

variable {C : List Desc → Prop} {G : Request → Prop}

theorem Asks.cons {vol : Volume} {r : Request} {disk : ℕ → Data} (h : Asks C G vol) (hr : G r) :
    Asks C G { vol with asked := r :: vol.asked, disk := disk } :=
  ⟨h.gd, fun r' hr' => (List.mem_cons.1 hr').elim (fun heq => heq ▸ hr) (h.asked r')⟩

/-- **One write.** -/
theorem wtfs_asks {what : What} {bno : ℤ} {size : ℕ} (data : List Data)
    (h : G ⟨what, i32 bno, size⟩) : Keeps (Asks C G) (wtfs p what bno size data) :=
  wtfs_meets (fun _ hvol _ => hvol.cons h) fun _ hvol _ => hvol.cons h

theorem writeSuper_asks {c : ℕ} (h : ∀ bno size, G ⟨.super c, i32 bno, size⟩) :
    Keeps (Asks C G) (writeSuper p sb c) :=
  Keeps.get.bind fun _ => wtfs_asks _ (h _ _)

/-- The writes of blocks are the only ones that are looked at. -/
theorem robust_asks (h : ∀ b, G ⟨.block b, i32 (p.todb b), p.bsize⟩) :
    Robust p (Asks (fun _ => True) G) where
  block b _ := wtfs_asks _ (h b)
  memory _ _ _ _ hvol := ⟨trivial, hvol.asked⟩

end

end Ext2fs.Newfs
