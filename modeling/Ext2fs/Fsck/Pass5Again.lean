import Ext2fs.RepairedVolume

/-!
# What `pass5` leaves alone

On the volumes that `pass5` repairs there is one right answer for the bitmaps and the counts, so a volume
that has it already is left as it is.

* `GroupRight.unique` — the one right answer for a group;
* `pass5_elsewhere` — no other block is written;
* **`pass5_settles`** — `pass5` changes nothing exactly on a repaired volume, and so nothing in a second
  run.
-/

namespace Ext2fs.Fsck

section

variable {fs : SbImage} {v : GroupTable} {f f' : Found} {old : Before fs} {r r' : Pass5Result fs} {c : ℕ}

/-- What is there before the pass, as the pass would leave it. -/
def Before.result (old : Before fs) : Pass5Result fs := ⟨old.disk, old.gd, old.fbcount, old.ficount⟩

/-- What the pass left, as the next run finds it. -/
def Pass5Result.again (r : Pass5Result fs) (junk : fs.Bits) : Before fs :=
  ⟨r.disk, junk, r.gd, r.fbcount, r.ficount⟩

/-! ### The one right answer -/

/-- **The bitmaps and the counts of a group** are determined by what the passes have found. -/
theorem GroupRight.unique {bb ib bb' ib' : fs.Bits} {g g' : GroupCounts} (h : GroupRight fs f c bb ib g)
    (h' : GroupRight fs f' c bb' ib' g') (hblocks : f'.blockmap = f.blockmap)
    (hstates : f'.statemap = f.statemap) : bb' = bb ∧ ib' = ib ∧ g' = g := by
  have hbb : bb' = bb := by
    funext k
    by_cases hk : k < fs.e2fs_bpg.toNat
    · obtain ⟨_, hiff⟩ := h.blocks k hk
      obtain ⟨_, hiff'⟩ := h'.blocks k hk
      rw [hblocks] at hiff'
      exact Bool.eq_iff_iff.2 (hiff'.trans hiff.symm)
    · rw [h.blockPadding k (Nat.le_of_not_lt hk), h'.blockPadding k (Nat.le_of_not_lt hk)]
  have hib : ib' = ib := by
    funext k
    by_cases hk : k < fs.e2fs_ipg.toNat
    · obtain ⟨_, hiff⟩ := h.inodes k hk
      obtain ⟨_, hiff'⟩ := h'.inodes k hk
      rw [hstates] at hiff'
      exact Bool.eq_iff_iff.2 (hiff'.trans hiff.symm)
    · rw [h.inodePadding k (Nat.le_of_not_lt hk), h'.inodePadding k (Nat.le_of_not_lt hk)]
  have hdirs := h'.ndirs
  rw [hstates, ← h.ndirs] at hdirs
  refine ⟨hbb, hib, ?_⟩
  calc g' = ⟨g'.nbfree, g'.nifree, g'.ndirs⟩ := rfl
    _ = ⟨g.nbfree, g.nifree, g.ndirs⟩ := by rw [h'.nbfree, h'.nifree, hdirs, hbb, hib, h.nbfree, h.nifree]

/-- Two repaired volumes agree in the bitmaps, in the counts and in the totals. -/
theorem Repaired.unique (h : Repaired fs v f r) (h' : Repaired fs v f' r')
    (hblocks : f'.blockmap = f.blockmap) (hstates : f'.statemap = f.statemap) :
    (∀ c < fs.gcount, r'.disk (fs.place (v.b_bitmap c)) = r.disk (fs.place (v.b_bitmap c)) ∧
      r'.disk (fs.place (v.i_bitmap c)) = r.disk (fs.place (v.i_bitmap c)) ∧ r'.gd c = r.gd c) ∧
    r'.fbcount = r.fbcount ∧ r'.ficount = r.ficount := by
  have hgroups := fun c hc => (h.groups c hc).unique (h'.groups c hc) hblocks hstates
  have hgd : ∀ c ∈ Finset.range fs.gcount, r'.gd c = r.gd c := fun c hc =>
    (hgroups c (Finset.mem_range.1 hc)).2.2
  refine ⟨hgroups, ?_, ?_⟩
  · rw [h.fbcount, h'.fbcount]
    exact Finset.sum_congr rfl fun c hc => by rw [hgd c hc]
  · rw [h.ficount, h'.ficount]
    exact Finset.sum_congr rfl fun c hc => by rw [hgd c hc]

/-- Right groups and totals are what the pass would have written. -/
theorem Countable.repaired (hc : Countable fs f.statemap)
    (hsize : fs.bsize = 1024 ∨ fs.bsize = 2048 ∨ fs.bsize = 4096)
    (hgroups : ∀ c < fs.gcount, GroupRight fs f c (r.disk (fs.place (v.b_bitmap c)))
      (r.disk (fs.place (v.i_bitmap c))) (r.gd c))
    (hfbcount : r.fbcount = ∑ c ∈ Finset.range fs.gcount, (r.gd c).nbfree)
    (hficount : r.ficount = ∑ c ∈ Finset.range fs.gcount, (r.gd c).nifree) : Repaired fs v f r := by
  refine ⟨fun c hlt => ?_, hgroups, hfbcount, hficount⟩
  obtain ⟨hbb, hib, -⟩ := (hc.group (c := c)).unique (hgroups c hlt) rfl rfl
  rw [hc.bbmap hsize hlt, hc.ibmap hsize hlt]
  exact ⟨hbb, hib⟩

/-! ### What is left alone -/

/-- **No block but those of the bitmaps** is written. -/
theorem pass5_elsewhere {blockmap : ℕ → Bool} {statemap : ℕ → InoState} {a : ℤ}
    (h : BitmapsPlaced fs v blockmap statemap)
    (ha : ∀ c < fs.gcount, fs.place (v.b_bitmap c) ≠ a ∧ fs.place (v.i_bitmap c) ≠ a) :
    (pass5 fs v f old).disk a = old.disk a := by
  refine pass5_disk_old (.inr fun c hc hputs => ?_)
  obtain ⟨hb, hi⟩ := h.reaches c hc
  rcases hputs with ⟨-, heq⟩ | heq
  · rw [(SbImage.sector_place hb.1).2] at heq
    exact (ha c hc).1 heq
  · rw [(SbImage.sector_place hi.1).2] at heq
    exact (ha c hc).2 heq

/-- There are no descriptors behind those of the groups. -/
theorem pass5_gd_behind (hc : fs.gcount ≤ c) : (pass5 fs v f old).gd c = old.gd c := by
  have hgd := loop_gd fs v f old fs.gcount c
  rw [if_neg (Nat.not_lt.2 hc)] at hgd
  exact hgd

variable {blockmap : ℕ → Bool} {statemap : ℕ → InoState} {around : ℤ → Bool}

/-- **A volume that has the right answer** is left as it is. -/
theorem Repairable.unchanged (h : Repairable fs v blockmap statemap)
    (hsize : fs.bsize = 1024 ∨ fs.bsize = 2048 ∨ fs.bsize = 4096)
    (hf : f.blockmap = blockmap) (hs : f.statemap = statemap) (hold : Repaired fs v f old.result) :
    pass5 fs v ⟨blockmap, around, statemap⟩ old = old.result := by
  have hright := h.right hsize around old
  obtain ⟨hgroups, hfbcount, hficount⟩ := hold.unique hright hf.symm hs.symm
  have hdisk : (pass5 fs v ⟨blockmap, around, statemap⟩ old).disk = old.disk := by
    funext a
    by_cases hplace : ∀ c < fs.gcount, fs.place (v.b_bitmap c) ≠ a ∧ fs.place (v.i_bitmap c) ≠ a
    · exact pass5_elsewhere h.placed hplace
    · obtain ⟨c, hc, hat⟩ : ∃ c < fs.gcount, fs.place (v.b_bitmap c) = a ∨ fs.place (v.i_bitmap c) = a := by
        by_contra hno
        exact hplace fun c hc => ⟨fun heq => hno ⟨c, hc, .inl heq⟩, fun heq => hno ⟨c, hc, .inr heq⟩⟩
      rcases hat with rfl | rfl
      · exact (hgroups c hc).1
      · exact (hgroups c hc).2.1
  have hgd : (pass5 fs v ⟨blockmap, around, statemap⟩ old).gd = old.gd := by
    funext c
    by_cases hc : c < fs.gcount
    · exact (hgroups c hc).2.2
    · exact pass5_gd_behind (Nat.le_of_not_lt hc)
  calc pass5 fs v ⟨blockmap, around, statemap⟩ old
      = ⟨(pass5 fs v ⟨blockmap, around, statemap⟩ old).disk,
          (pass5 fs v ⟨blockmap, around, statemap⟩ old).gd,
          (pass5 fs v ⟨blockmap, around, statemap⟩ old).fbcount,
          (pass5 fs v ⟨blockmap, around, statemap⟩ old).ficount⟩ := rfl
    _ = old.result := by rw [hdisk, hgd, hfbcount, hficount]; rfl

end

/-- **When `pass5` has nothing to do.**  On the volumes it repairs, it changes nothing exactly if the volume
is repaired; and it changes nothing in a second run, whatever lies around its map then. -/
theorem pass5_settles (env : Env) (sb : SbImage) (s : St) (h : setup env sb = some s) (v : GroupTable)
    (blockmap : ℕ → Bool) (statemap : ℕ → InoState) (hr : Repairable s.sblock v blockmap statemap)
    (around : ℤ → Bool) (old : Before s.sblock) :
    (pass5 s.sblock v ⟨blockmap, around, statemap⟩ old = old.result ↔
      Repaired s.sblock v ⟨blockmap, around, statemap⟩ old.result) ∧
    ∀ around' junk,
      pass5 s.sblock v ⟨blockmap, around', statemap⟩
          ((pass5 s.sblock v ⟨blockmap, around, statemap⟩ old).again junk) =
        pass5 s.sblock v ⟨blockmap, around, statemap⟩ old := by
  have hbad := (setup_checks h).1
  unfold SbImage.Bad at hbad
  have hsize : s.sblock.bsize = 1024 ∨ s.sblock.bsize = 2048 ∨ s.sblock.bsize = 4096 :=
    DivState.bsize_cases (by omega)
  have hright := hr.right hsize around old
  refine ⟨⟨fun hsame => ?_, fun hold => hr.unchanged hsize rfl rfl hold⟩, fun around' junk => ?_⟩
  · rwa [hsame] at hright
  · exact hr.unchanged (f := ⟨blockmap, around, statemap⟩) hsize rfl rfl hright

/-- Two runs on the volume of one group where an inode was cleared. -/
theorem pass5_settles_sharing :
    let old : Before oneGroup := ⟨fun _ _ => false, fun _ => false, fun _ => ⟨0, 0, 0⟩, 0, 0⟩
    pass5 oneGroup bitmapTable ⟨sharingFound.blockmap, fun _ => true, sharingFound.statemap⟩
        ((pass5 oneGroup bitmapTable sharingFound old).again fun _ => true) =
      pass5 oneGroup bitmapTable sharingFound old := by
  intro old
  have hset : (setup preenOneGroup oneGroup).map St.sblock = some oneGroup := by decide +kernel
  obtain ⟨s, hs, hsb⟩ := Option.map_eq_some_iff.1 hset
  have hsettles := pass5_settles preenOneGroup oneGroup s hs bitmapTable sharingFound.blockmap
    sharingFound.statemap
  rw [hsb] at hsettles
  exact (hsettles oneGroup_repairable sharingFound.around old).2 (fun _ => true) fun _ => true

end Ext2fs.Fsck
